import JsonShape.Proofs.Regular
import JsonShape.Proofs.Summary

/-!
# A fuller sample reports no less

`Covers s t` says that `s` describes all that `t` does: it has the alternatives and keys of `t`, and
the lengths of `t` are between its own. `ranged s` writes each length of `s` as a range.

* `evenlySpaced_subset`: a multiple of a sample size inspects all elements that the size does;
* `covers_summary`: so it finds all that the smaller sample finds;
* `required_ranged_merge`: merging a shape that is covered adds nothing.
-/

namespace JsonShape

open Shape

/-! ## Indices -/

theorem evenlySpaced_subset {size k : Nat} (hk : 0 < k) (length : Nat) :
    evenlySpaced length size ⊆ evenlySpaced length (k * size) := by
  intro i hi
  have hlt := lt_of_mem_evenlySpaced hi
  have hle : size ≤ k * size := Nat.le_mul_of_pos_left size hk
  by_cases hall : length ≤ k * size
  · rw [evenlySpaced_of_le hall]
    exact List.mem_range.mpr hlt
  · rw [evenlySpaced_of_lt (by omega)] at hi
    rw [evenlySpaced_of_lt (by omega)]
    obtain ⟨j, hj, rfl⟩ := List.mem_map.mp hi
    have hj := List.mem_range.mp hj
    refine List.mem_map.mpr ⟨k * j, List.mem_range.mpr (Nat.mul_lt_mul_of_pos_left hj hk), ?_⟩
    rw [Nat.mul_assoc, Nat.mul_div_mul_left _ _ hk]

theorem sampled_subset {size k : Nat} (hk : 0 < k) (items : Array Value) :
    sampled items size ⊆ sampled items (k * size) := by
  intro v hv
  obtain ⟨i, hi, hv⟩ := List.mem_filterMap.mp hv
  exact List.mem_filterMap.mpr ⟨i, evenlySpaced_subset hk _ hi, hv⟩

/-! ## Lengths as ranges -/

namespace Shape

mutual

/-- The shape with each length written as a range. -/
def ranged : Shape → Shape
  | .scalar name => .scalar name
  | .array a => .array ⟨a.extent.ranged, ranged a.element, a.collapsed⟩
  | .object o => .object ⟨rangedFields o.fields, o.collapsed⟩
  | .choice vs => .choice (rangedAlternatives vs)

def rangedFields : List (Field Shape) → List (Field Shape)
  | [] => []
  | f :: fs => ⟨f.name, ranged f.shape, f.isOptional⟩ :: rangedFields fs

def rangedAlternatives : List Shape → List Shape
  | [] => []
  | v :: vs => ranged v :: rangedAlternatives vs

end

theorem rangedFields_eq_map (fs : List (Field Shape)) :
    rangedFields fs = fs.map (Field.map ranged) := by
  induction fs with
  | nil => rfl
  | cons f fs ih => rw [rangedFields, ih, List.map_cons, Field.map]

theorem rangedAlternatives_eq_map (vs : List Shape) : rangedAlternatives vs = vs.map ranged := by
  induction vs with
  | nil => rfl
  | cons v vs ih => rw [rangedAlternatives, ih, List.map_cons]

theorem ranged_object (o : ObjectOf Shape) : (object o).ranged = object (o.map ranged) := by
  rw [ranged, rangedFields_eq_map, ObjectOf.map]

theorem keepsKinds_ranged : KeepsKinds ranged where
  kind s := by cases s <;> rfl
  choice vs := by rw [ranged, rangedAlternatives_eq_map]

/-! ## Shapes that cover others -/

/-- All that the second shape describes is described by the first. The element of an array that
describes none only holds the place. -/
inductive Covers : Shape → Shape → Prop
  | scalar {s : Shape} {name : String} (hs : .scalar name ∈ s.alternatives) :
    Covers s (.scalar name)
  | array {s : Shape} {a b : ArrayOf Shape} (hs : .array a ∈ s.alternatives)
    (hl : a.extent.bounds.1 ≤ b.extent.bounds.1 ∧ b.extent.bounds.2 ≤ a.extent.bounds.2)
    (he : b.hasElement = true → a.hasElement = true)
    (hb : b.hasElement = true → Covers a.element b.element)
    (hc : b.collapsed = true → a.collapsed = true) : Covers s (.array b)
  | object {s : Shape} {a b : ObjectOf Shape} (hs : .object a ∈ s.alternatives)
    (hn : Field.names b.fields ⊆ Field.names a.fields)
    (hf : ∀ name t u, Field.shape? a.fields name = some t → Field.shape? b.fields name = some u →
      Covers t u)
    (hc : b.collapsed = true → a.collapsed = true) : Covers s (.object b)
  | choice {s : Shape} {vs : List Shape} (hv : ∀ v ∈ vs, Covers s v) : Covers s (.choice vs)

theorem Covers.alternative {s t v : Shape} (h : Covers s t) (hv : v ∈ t.alternatives) :
    Covers s v := by
  cases t with
  | choice vs =>
    cases h with
    | choice h => exact h v hv
  | _ =>
    obtain rfl := List.mem_singleton.mp hv
    exact h

theorem Covers.kind_mem {s v : Shape} (h : Covers s v) (hv : v.kind ≠ .choice) :
    v.kind ∈ kinds s.alternatives := by
  cases h with
  | scalar hs => exact List.mem_map.mpr ⟨_, hs, rfl⟩
  | array hs => exact List.mem_map.mpr ⟨_, hs, rfl⟩
  | object hs => exact List.mem_map.mpr ⟨_, hs, rfl⟩
  | choice _ => exact absurd rfl hv

theorem covers_ofAlternatives {s : Shape} {vs : List Shape} (h : ∀ v ∈ vs, Covers s v) :
    Covers s (ofAlternatives vs) := by
  unfold ofAlternatives
  split
  · exact h _ List.mem_cons_self
  · exact .choice h

/-! ## Merging a covered shape -/

section Merge

theorem required_ranged_array_merge {a b : ArrayOf Shape}
    (hl : a.extent.bounds.1 ≤ b.extent.bounds.1 ∧ b.extent.bounds.2 ≤ a.extent.bounds.2)
    (he : b.hasElement = true → a.hasElement = true)
    (hm : b.hasElement = true →
      (merge a.element b.element).ranged.required = a.element.ranged.required)
    (hc : b.collapsed = true → a.collapsed = true) :
    (array (a.merge merge b)).ranged.required = (array a).ranged.required := by
  refine required_array_eq ?_ ?_ ?_
  · apply Extent.ranged_eq_ranged
    rw [ArrayOf.extent_merge, Extent.bounds_hull, Int.min_eq_left hl.1, Int.max_eq_left hl.2]
  · show (ArrayOf.merge merge a b).element.ranged.required = a.element.ranged.required
    rw [ArrayOf.element_merge]
    cases hB : b.hasElement with
    | false => rfl
    | true => simp [he hB, hm hB]
  · show (ArrayOf.merge merge a b).collapsed = a.collapsed
    rw [ArrayOf.collapsed_merge]
    cases hA : a.collapsed with
    | false =>
      have hB : b.collapsed = false := by simpa [hA] using hc
      simp [hB]
    | true =>
      have hnone : a.hasElement = false := by simp [ArrayOf.hasElement, hA]
      have hnone' : b.hasElement = false := by
        rw [hnone] at he
        simpa using he
      simp [hnone, hnone']

theorem required_ranged_object_merge {a b : ObjectOf Shape} (ha : (Field.names a.fields).Nodup)
    (hac : a.collapsed = true → a.fields = [])
    (hn : Field.names b.fields ⊆ Field.names a.fields)
    (hm : ∀ name t u, Field.shape? a.fields name = some t → Field.shape? b.fields name = some u →
      (merge t u).ranged.required = t.ranged.required)
    (hc : b.collapsed = true → a.collapsed = true) :
    (object (a.merge merge b)).ranged.required = (object a).ranged.required := by
  have hnames : Field.names (a.merge merge b).fields = Field.names a.fields := by
    rw [ObjectOf.names_merge_eq_union, Keyed.union_eq_left hn]
  rw [ranged_object, ranged_object]
  refine required_object_eq ?_ ?_ (fun name s t hs ht => ?_) ?_
  · simp only [ObjectOf.map, Field.names_map, hnames]
  · simpa only [ObjectOf.map, Field.names_map, hnames] using ha
  · simp only [ObjectOf.map, Field.shape?_map, ObjectOf.shape?_merge] at hs ht
    obtain ⟨s', hs', rfl⟩ := Option.map_eq_some_iff.mp hs
    obtain ⟨t', ht', rfl⟩ := Option.map_eq_some_iff.mp ht
    exact Keyed.rel_merge_left (R := fun s t => s.ranged.required = t.ranged.required) hs' ht'
      (fun _ => rfl) fun u hu => hm name t' u ht' hu
  · show (a.merge merge b).collapsed = a.collapsed
    rw [ObjectOf.collapsed_merge]
    cases hA : a.collapsed with
    | false =>
      have hB : b.collapsed = false := by simpa [hA] using hc
      simp [hB]
    | true =>
      have hempty := hac hA
      have hempty' : b.fields = [] := by
        rw [hempty] at hn
        exact List.map_eq_nil_iff.mp (List.subset_nil.mp hn)
      simp [hempty, hempty']

/-- The alternative that takes the place of one that the shape covers is the one that covers it. -/
theorem required_ranged_unite {a u v : Shape} (ha : a.Regular) (hu : u.kind ≠ .choice)
    (h : Covers a u) (hv : findKind? a.alternatives u.kind = some v)
    (hm : ∀ t t', Inside a t → Inside u t' → Covers t t' →
      (merge t t').ranged.required = t.ranged.required) :
    (unite merge v u).ranged.required = v.ranged.required := by
  have hflat := ha.wellFormed.flat
  cases h with
  | scalar hs =>
    obtain rfl := Option.some.inj ((hflat.findKind?_kind hs).symm.trans hv)
    rfl
  | array hs hl he hb hc =>
    obtain rfl := Option.some.inj ((hflat.findKind?_kind hs).symm.trans hv)
    refine required_ranged_array_merge hl he (fun hB => ?_) hc
    exact hm _ _ (.element hs) (.element List.mem_cons_self) (hb hB)
  | object hs hn hf hc =>
    obtain rfl := Option.some.inj ((hflat.findKind?_kind hs).symm.trans hv)
    have hself := (ha.wellFormed.alternative hs).self
    refine required_ranged_object_merge hself.1 hself.2 hn (fun name t u ht hu => ?_) hc
    have hcovers := hf name t u ht hu
    obtain ⟨f, hf, -, rfl⟩ := Field.exists_of_shape? ht
    obtain ⟨g, hg, -, rfl⟩ := Field.exists_of_shape? hu
    exact hm _ _ (.field hs hf) (.field List.mem_cons_self hg) hcovers
  | choice _ => exact absurd rfl hu

/-- A shape absorbs what it covers. -/
theorem required_ranged_merge {a b : Shape} (ha : a.Regular) (hb : b.WellFormed)
    (h : Covers a b) : (merge a b).ranged.required = a.ranged.required := by
  induction a using inside_induction generalizing b with
  | step a ih =>
    have hfa := ha.wellFormed.flat
    have hkinds : kinds b.alternatives ⊆ kinds a.alternatives := by
      intro k hk
      obtain ⟨v, hv, rfl⟩ := List.mem_map.mp hk
      exact (h.alternative hv).kind_mem (hb.flat.kind_ne_choice hv)
    have hunited : kinds (united a b) = kinds a.alternatives := by
      rw [kinds_united hfa hb.flat, Keyed.union_eq_left hkinds]
    have hself : ofAlternatives (a.alternatives.map ranged) = a.ranged := by
      rw [← keepsKinds_ranged.ofAlternatives, ofAlternatives_alternatives ha.self.two_le_length]
    rw [merge_eq_ofAlternatives, keepsKinds_ranged.ofAlternatives, ← hself]
    refine required_ofAlternatives_eq ?_ ?_ fun k x y hx hy => ?_
    · rw [keepsKinds_ranged.kinds_map, keepsKinds_ranged.kinds_map, hunited]
    · rw [Flat, keepsKinds_ranged.kinds_map]
      exact flat_united hfa hb.flat
    · simp only [keepsKinds_ranged.findKind?_map, findKind?_united hfa hb.flat] at hx hy
      obtain ⟨w, hw, rfl⟩ := Option.map_eq_some_iff.mp hx
      obtain ⟨v, hv, rfl⟩ := Option.map_eq_some_iff.mp hy
      refine Keyed.rel_merge_left (R := fun w v => w.ranged.required = v.ranged.required) hw hv
        (fun _ => rfl) fun u hu => ?_
      have hub := mem_of_findKind? hu
      refine required_ranged_unite ha (hb.flat.kind_ne_choice hub) (h.alternative hub)
        (kind_of_findKind? hu ▸ hv) fun t t' ht ht' hcovers => ?_
      exact ih t ht (ha.inside ht) (hb.inside (hb.flat.inside hub ht')) hcovers

end Merge

/-- Which keys are optional does not matter. -/
theorem covers_of_required {s t : Shape} (h : Covers s.required t.required) : Covers s t := by
  induction t using Shape.induction generalizing s with
  | scalar name =>
    rw [required] at h
    cases h with
    | scalar hs =>
      rw [keepsKinds_required.alternatives] at hs
      obtain ⟨v, hv, heq⟩ := List.mem_map.mp hs
      cases v with
      | scalar _ =>
        cases heq
        exact .scalar hv
      | _ => cases heq
  | array b ih =>
    rw [required] at h
    cases h with
    | array hs hl he hb hc =>
      rw [keepsKinds_required.alternatives] at hs
      obtain ⟨v, hv, heq⟩ := List.mem_map.mp hs
      cases v with
      | array a =>
        cases heq
        exact .array hv hl he (fun hB => ih (hb hB)) hc
      | _ => cases heq
  | object b ih =>
    rw [required] at h
    cases h with
    | object hs hn hf hc =>
      rw [keepsKinds_required.alternatives] at hs
      obtain ⟨v, hv, heq⟩ := List.mem_map.mp hs
      cases v with
      | object a =>
        cases heq
        simp only [names_requiredFields, shape?_requiredFields] at hn hf
        refine .object hv hn (fun name t u ht hu => ?_) hc
        obtain ⟨g, hg, -, rfl⟩ := Field.exists_of_shape? hu
        exact ih g hg (hf name _ _ (by rw [ht]; rfl) (by rw [hu]; rfl))
      | _ => cases heq
  | choice vs ih =>
    rw [required, requiredAlternatives_eq_map] at h
    cases h with
    | choice h => exact .choice fun v hv => ih v hv (h _ (List.mem_map_of_mem hv))

end Shape

/-! ## Summaries of more values -/

/-- The shape that `f` gives for some values describes all that `g` reports on a part of them. -/
def CoversParts (f g : List Value → Shape) : Prop := ∀ vs ws, ws ⊆ vs → Covers (f vs) (g ws)

section Summary

variable {h : Heap} {size size' : Nat} {inner inner' : Option (List Value → Shape)}

theorem keysOf_subset {ms ms' : List (List (Scalar × Value))} (h : ms' ⊆ ms) :
    keysOf ms' ⊆ keysOf ms := by
  intro name hname
  rw [keysOf, List.mem_eraseDups] at hname ⊢
  obtain ⟨entries, he, hname⟩ := List.mem_flatMap.mp hname
  exact List.mem_flatMap.mpr ⟨entries, h he, hname⟩

theorem covers_summaryArray (hs : ∀ items, sampled items size' ⊆ sampled items size)
    (hi : Option.Rel CoversParts inner inner') {ls ls' : List (Array Value)} (hls : ls' ⊆ ls)
    (hne : ls' ≠ []) {s : Shape} (hmem : .array (summaryArray size inner ls) ∈ s.alternatives) :
    Covers s (.array (summaryArray size' inner' ls')) := by
  have hall : ls.all Array.isEmpty = true → ls'.all Array.isEmpty = true := by
    simp only [List.all_eq_true]
    exact fun h items hitems => h items (hls hitems)
  refine .array hmem ?_ ?_ (fun hB => ?_) (fun hc => by cases hc)
  · exact Extent.bounds_ofLengths_subset (List.map_subset _ hls) (mt List.map_eq_nil_iff.mp hne)
  · simp only [hasElement_summaryArray, Bool.not_eq_true', Bool.eq_false_iff]
    exact mt hall
  · have hsome' : ls'.all Array.isEmpty = false := by
      simpa [hasElement_summaryArray] using hB
    have hsome : ls.all Array.isEmpty = false := by
      rw [Bool.eq_false_iff] at hsome' ⊢
      exact mt hall hsome'
    cases hi with
    | none => exact .scalar (List.mem_singleton_self _)
    | some hfg =>
      simp only [summaryArray, hsome, hsome', Bool.false_eq_true, if_false]
      refine hfg _ _ fun v hv => ?_
      obtain ⟨items, hitems, hv⟩ := List.mem_flatMap.mp hv
      exact List.mem_flatMap.mpr ⟨items, hls hitems, hs items hv⟩

theorem covers_summaryObject (hi : Option.Rel CoversParts inner inner')
    {ms ms' : List (List (Scalar × Value))} (hms : ms' ⊆ ms) {s : Shape}
    (hmem : .object (summaryObject inner ms) ∈ s.alternatives) :
    Covers s (.object (summaryObject inner' ms')) := by
  cases hi with
  | none => exact .object hmem (List.nil_subset _) (fun _ _ _ _ hu => by cases hu) id
  | some hfg =>
    refine .object hmem ?_ (fun name t u ht hu => ?_) id
    · rw [names_summaryObject, names_summaryObject]
      exact keysOf_subset hms
    · rw [shape?_summaryObject] at ht hu
      split at ht <;> cases ht
      split at hu <;> cases hu
      exact hfg _ _ (List.filterMap_subset _ hms)

theorem covers_summarize (hs : ∀ items, sampled items size' ⊆ sampled items size)
    (hi : Option.Rel CoversParts inner inner') :
    CoversParts (h.summarize size inner) (h.summarize size' inner') := by
  intro vs ws hws
  refine covers_ofAlternatives (List.forall_mem_map.mpr fun k hk => ?_)
  have hkw : k ∈ h.kindsOf ws := List.mem_eraseDups.mp hk
  have hkv : k ∈ h.kindsOf vs := List.map_subset _ hws hkw
  have hmem : h.alternative size inner vs k ∈ (h.summarize size inner vs).alternatives := by
    rw [alternatives_summarize]
    exact List.mem_map_of_mem (List.mem_eraseDups.mpr hkv)
  cases k with
  | scalar name => exact .scalar hmem
  | array =>
    have hne : h.sequences ws ≠ [] := fun hnil => sequences_eq_nil_iff.mp hnil hkw
    exact covers_summaryArray hs hi (List.filterMap_subset _ hws) hne hmem
  | object => exact covers_summaryObject hi (List.filterMap_subset _ hws) hmem
  | choice => exact absurd hkw choice_notMem_kindsOf

theorem covers_summary (hs : ∀ items, sampled items size' ⊆ sampled items size) (levels : Nat) :
    CoversParts (h.summary size levels) (h.summary size' levels) := by
  induction levels with
  | zero => exact covers_summarize hs .none
  | succ levels ih => exact covers_summarize hs (.some ih)

end Summary

/-! ## Whole sequences -/

namespace Survey

variable {S : Survey} {size size' : Nat}

theorem outlineWith_of_lengthsLe (hle : size ≤ size') {inner inner' : Option (Value → Shape)}
    {v : Value} (hv : S.heap.LengthsLe size v)
    (hi : ∀ i c, v = .node i → S.heap[i]? = some c →
      Option.Rel (fun f g => ∀ w ∈ c.parts, f w = g w) inner inner') :
    S.outlineWith size inner v = S.outlineWith size' inner' v := by
  unfold outlineWith
  cases hview : S.heap.view v with
  | scalar name => rfl
  | sequence items =>
    obtain ⟨i, t, rfl, hc⟩ := Heap.view_eq_sequence hview
    have hlen := hv i t items ⟨i, rfl, .refl⟩ hc
    have helement : S.outlineElement size inner items = S.outlineElement size' inner' items := by
      cases hi i _ rfl hc with
      | none => rfl
      | some hfg =>
        refine outlineElement_congr rfl (.some ?_)
        rw [sampled_of_size_le hlen, sampled_of_size_le (Nat.le_trans hlen hle)]
        exact List.map_congr_left hfg
    simp only [helement]
  | mapping entries =>
    obtain ⟨i, t, rfl, hc⟩ := Heap.view_eq_mapping hview
    have hfields : outlineFields inner entries = outlineFields inner' entries := by
      cases hi i _ rfl hc with
      | none => rfl
      | some hfg =>
        refine foldl_addField_congr rfl fun name x y hx hy => ?_
        obtain rfl := Option.some.inj (hx.symm.trans hy)
        obtain ⟨e, he, rfl⟩ := Option.map_eq_some_iff.mp hx
        exact hfg _ (List.mem_map_of_mem (List.mem_of_find?_eq_some he))
    simp only [hfields]

/-- From a size on that no sequence exceeds, all sizes give the same. -/
theorem outline_of_lengthsLe (hle : size ≤ size') (levels : Nat) {v : Value}
    (hv : S.heap.LengthsLe size v) : S.outline size levels v = S.outline size' levels v := by
  induction levels generalizing v with
  | zero => exact outlineWith_of_lengthsLe hle hv fun _ _ _ _ => .none
  | succ levels ih =>
    refine outlineWith_of_lengthsLe hle hv fun i c hi hc => .some fun w hw => ?_
    subst hi
    exact ih (hv.part hc hw)

theorem covers_outline (hS : S.uninspected = .null) (hsize : 0 < size) (hsize' : 0 < size')
    (hs : ∀ items, sampled items size' ⊆ sampled items size) (levels : Nat) (v : Value) :
    Covers (S.outline size levels v) (S.outline size' levels v) := by
  apply covers_of_required
  rw [required_outline hS hsize, required_outline hS hsize', required_summary, required_summary]
  exact covers_summary hs levels [v] [v] (List.Subset.refl _)

theorem regular_outline (hS : S.uninspected = .null) (levels : Nat) {v : Value}
    (hv : S.heap.Acyclic v) : (S.outline size levels v).Regular := by
  rw [← shape_report levels 0 hv fun _ _ => List.not_mem_nil]
  exact regular_report hS size levels 0 [] v

theorem outline_sequence {v : Value} {items : Array Value} (hv : S.heap.view v = .sequence items)
    (levels : Nat) :
    ∃ s, S.outline size levels v = .array ⟨.exact items.size, s, false⟩ := by
  cases levels with
  | zero => exact ⟨_, by rw [outline, outlineWith, hv]⟩
  | succ levels => exact ⟨_, by rw [outline, outlineWith, hv]⟩

theorem infer_sampleSize_run (hS : S.digitLimit = none) (base : Option Options)
    (maxDepth : Option Int) {n : Nat} (hn : 0 < n) {v : Value} (hv : S.heap.Acyclic v)
    (log : Array Record) :
    ∃ log', (S.infer (.ofIntegers base (some n) maxDepth) v).run log = .ok (S.outline n
      (min (maxDepth.getD (base.getD {}).maxDepth).toNat (greatestDepth S.recursionLimit)) v)
        log' := by
  obtain ⟨log₁, ho⟩ := Request.options_ofIntegers_run base (some n) maxDepth log
  obtain ⟨log₂, hinfer⟩ := infer_run_of_acyclic ho hv (namesKeys_of_unlimited hS)
  have hclamp : max 1 ((n : Int).toNat) = n := by omega
  simp only [Options.clamp, Option.getD_some, hclamp] at hinfer
  exact ⟨log₂, hinfer⟩

end Survey

/-- **Sampling reports nothing that a fuller sample would not.**  For an acyclic value the shape
that a multiple of a sample size gives covers the shape that the sample size gives and absorbs it,
up to optional keys and up to writing one length as a range. Both know the length of a sequence at
the root. Where the multiple reaches every length, there is no difference to any greater size. -/
theorem infer_absorbs_sample (h : Heap) (limit : Int) (base : Option Options)
    (maxDepth : Option Int) {size k : Nat} (hsize : 0 < size) (hk : 0 < k) {v : Value}
    (hv : h.Acyclic v) (log : Array Record) :
    let S : Survey := { heap := h, recursionLimit := limit }
    let request (n : Nat) := Request.ofIntegers base (some n) maxDepth
    ∃ a b log₁ log₂, (S.infer (request (k * size)) v).run log = .ok a log₁ ∧
      (S.infer (request size) v).run log = .ok b log₂ ∧
      (merge a b).ranged.required = a.ranged.required ∧ Covers a b ∧
      (∀ items, h.view v = .sequence items → ∃ x y, a = .array x ∧ b = .array y ∧
        x.extent = .exact items.size ∧ y.extent = .exact items.size) ∧
      (h.LengthsLe (k * size) v → ∀ n, k * size ≤ n →
        ∃ log₃, (S.infer (request n) v).run log = .ok a log₃) := by
  intro S request
  have hksize : 0 < k * size := Nat.mul_pos hk hsize
  obtain ⟨log₁, ha⟩ := Survey.infer_sampleSize_run (S := S) rfl base maxDepth hksize hv log
  obtain ⟨log₂, hb⟩ := Survey.infer_sampleSize_run (S := S) rfl base maxDepth hsize hv log
  have hcovers := Survey.covers_outline (S := S) rfl hksize hsize (sampled_subset hk)
    (min (maxDepth.getD (base.getD {}).maxDepth).toNat (greatestDepth limit)) v
  refine ⟨_, _, log₁, log₂, ha, hb, ?_, hcovers, fun items hitems => ?_, fun hlen n hn => ?_⟩
  · exact required_ranged_merge (Survey.regular_outline rfl _ hv)
      (Survey.regular_outline rfl _ hv).wellFormed hcovers
  · obtain ⟨x, hx⟩ := Survey.outline_sequence (S := S) hitems _
    obtain ⟨y, hy⟩ := Survey.outline_sequence (S := S) hitems _
    exact ⟨_, _, hx, hy, rfl, rfl⟩
  · rw [Survey.outline_of_lengthsLe hn _ hlen]
    have hpos : 0 < n := Nat.lt_of_lt_of_le hksize hn
    exact Survey.infer_sampleSize_run (S := S) rfl base maxDepth hpos hv log

/-- Of four elements the smaller sample misses those with the key `"b"` and with `null`. -/
theorem infer_absorbs_sample_halved :
    let h : Heap := #[.mapping "dict" [(.text "a", .scalar (.int 1))],
      .mapping "dict" [(.text "a", .scalar (.int 2)), (.text "b", .scalar .null)],
      .sequence "list" #[.node 0, .node 1, .node 0, .scalar .null]]
    let S : Survey := { heap := h }
    let found : Field Shape := ⟨"a", .number, false⟩
    let missed : Field Shape := ⟨"b", .null, true⟩
    let a : Shape := .array ⟨.exact 4, .choice [.object ⟨[found, missed], false⟩, .null], false⟩
    let b : Shape := .array ⟨.exact 4, .object ⟨[found], false⟩, false⟩
    (∃ log, (S.infer (.ofIntegers none (some 4) none) (.node 2)).run #[] = .ok a log) ∧
      (∃ log, (S.infer (.ofIntegers none (some 2) none) (.node 2)).run #[] = .ok b log) ∧
      (merge a b).ranged.required = a.ranged.required ∧ Covers a b ∧
      ∃ log, (S.infer (.ofIntegers none (some 100) none) (.node 2)).run #[] = .ok a log := by
  intro h S found missed a b
  have hv : h.Acyclic (.node 2) := Heap.BottomUp.acyclic (by decide) _
  have hlen : h.LengthsLe 4 (.node 2) := Heap.lengthsLe_of_forall_mem (by decide) _
  obtain ⟨a', b', log₁, log₂, ha, hb, hmerge, hcovers, -, hwhole⟩ :=
    infer_absorbs_sample h 1000 none none (show 0 < 2 by decide) (show 0 < 2 by decide) hv #[]
  -- The names of the local definitions would keep `rfl` from evaluating closed terms.
  have hfuller : S.outline 4 8 (.node 2) = a := by
    dsimp only [S, h, a, found, missed]
    rfl
  have hsmaller : S.outline 2 8 (.node 2) = b := by
    dsimp only [S, h, b, found]
    rfl
  have hdepth : min ((none : Option Int).getD ((none : Option Options).getD {}).maxDepth).toNat
      (greatestDepth S.recursionLimit) = 8 := by decide
  obtain ⟨_, ha'⟩ := Survey.infer_sampleSize_run (S := S) rfl none none (n := 4)
    (by decide) hv #[]
  obtain ⟨_, hb'⟩ := Survey.infer_sampleSize_run (S := S) rfl none none (n := 2)
    (by decide) hv #[]
  rw [hdepth, hfuller] at ha'
  rw [hdepth, hsmaller] at hb'
  obtain ⟨rfl, -⟩ := EStateM.Result.ok.inj (ha.symm.trans ha')
  obtain ⟨rfl, -⟩ := EStateM.Result.ok.inj (hb.symm.trans hb')
  exact ⟨⟨log₁, ha⟩, ⟨log₂, hb⟩, hmerge, hcovers, hwhole hlen 100 (by decide)⟩

end JsonShape
