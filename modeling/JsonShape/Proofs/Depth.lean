import JsonShape.Proofs.Commuting
import JsonShape.Proofs.Unfolding

/-!
# Depth limits are coherent

`cut d s` withholds from the shape `s` what lies in containers at depth `d`.

* `cut_merge`: merging what is left merges first and withholds then;
* `cut_report`: a report with fewer levels is the cut of one with more;
* `infer_eq_cut`: so a survey that looks less deep gives the cut of what it gives when it looks
  deeper, down to the lengths, the order of keys and which of them are optional.
-/

namespace JsonShape

namespace Shape

/-! ## Cutting -/

mutual

/-- The shape without what lies in its containers at a depth. Alternatives are at the depth of the
choice. -/
def cut : Nat → Shape → Shape
  | _, .scalar name => .scalar name
  | 0, .array a => .array ⟨a.extent, null, a.collapsed⟩
  | d + 1, .array a => .array ⟨a.extent, cut d a.element, a.collapsed⟩
  | 0, .object o => .object ⟨[], o.collapsed⟩
  | d + 1, .object o => .object ⟨cutFields d o.fields, o.collapsed⟩
  | d, .choice vs => .choice (cutAlternatives d vs)

def cutFields : Nat → List (Field Shape) → List (Field Shape)
  | _, [] => []
  | d, f :: fs => ⟨f.name, cut d f.shape, f.isOptional⟩ :: cutFields d fs

def cutAlternatives : Nat → List Shape → List Shape
  | _, [] => []
  | d, v :: vs => cut d v :: cutAlternatives d vs

end

def cutField (d : Nat) (f : Field Shape) : Field Shape := ⟨f.name, f.shape.cut d, f.isOptional⟩

theorem cutFields_eq_map (d : Nat) (fs : List (Field Shape)) :
    cutFields d fs = fs.map (cutField d) := by
  induction fs with
  | nil => rw [cutFields, List.map_nil]
  | cons f fs ih => rw [cutFields, ih, List.map_cons, cutField]

theorem cutAlternatives_eq_map (d : Nat) (vs : List Shape) :
    cutAlternatives d vs = vs.map (cut d) := by
  induction vs with
  | nil => rw [cutAlternatives, List.map_nil]
  | cons v vs ih => rw [cutAlternatives, ih, List.map_cons]

/-- What is left of an array. -/
def cutArray : Nat → ArrayOf Shape → ArrayOf Shape
  | 0, a => ⟨a.extent, null, a.collapsed⟩
  | d + 1, a => ⟨a.extent, a.element.cut d, a.collapsed⟩

/-- What is left of an object. -/
def cutObject : Nat → ObjectOf Shape → ObjectOf Shape
  | 0, o => ⟨[], o.collapsed⟩
  | d + 1, o => ⟨o.fields.map (cutField d), o.collapsed⟩

theorem cut_array (d : Nat) (a : ArrayOf Shape) : (array a).cut d = array (cutArray d a) := by
  cases d <;> rfl

theorem cut_object (d : Nat) (o : ObjectOf Shape) : (object o).cut d = object (cutObject d o) := by
  cases d with
  | zero => rfl
  | succ d => rw [cut, cutObject, cutFields_eq_map]

theorem cut_choice (d : Nat) (vs : List Shape) : (choice vs).cut d = choice (vs.map (cut d)) := by
  rw [cut, cutAlternatives_eq_map]

theorem cut_scalar (d : Nat) (name : String) : (scalar name).cut d = scalar name := by
  cases d <;> rfl

theorem keepsKinds_cut (d : Nat) : KeepsKinds (cut d) where
  kind s := by
    cases s with
    | scalar name => rw [cut_scalar]
    | array a => rw [cut_array]; rfl
    | object o => rw [cut_object]; rfl
    | choice vs => rw [cut_choice]; rfl
  choice := cut_choice d

/-! ## Cutting merged shapes -/

section Merge

variable {d : Nat}

theorem hasElement_cutArray (a : ArrayOf Shape) : (cutArray d a).hasElement = a.hasElement := by
  cases d <;> rfl

/-- At depth zero the placeholders of both arrays merge to one. -/
theorem cutArray_merge {a b : ArrayOf Shape} (hm : ∀ e < d,
    (merge a.element b.element).cut e = merge (a.element.cut e) (b.element.cut e)) :
    cutArray d (a.merge merge b) = (cutArray d a).merge merge (cutArray d b) := by
  have hA := hasElement_cutArray (d := d) a
  have hB := hasElement_cutArray (d := d) b
  unfold ArrayOf.merge
  rw [hA, hB]
  cases d with
  | zero => simp [cutArray, null, merge_scalar_self]
  | succ d => simp only [cutArray, apply_ite (cut d), hm d (Nat.lt_succ_self d)]

/-- With a collapsed object this fails: merged with keys it loses its mark, and with what a cut
leaves of them it would keep it. -/
theorem cutObject_merge {a b : ObjectOf Shape} (ha : a.collapsed = false)
    (hb : b.collapsed = false) (hm : ∀ e < d, ∀ f ∈ a.fields, ∀ f' ∈ b.fields,
      (merge f.shape f'.shape).cut e = merge (f.shape.cut e) (f'.shape.cut e)) :
    cutObject d (a.merge merge b) = (cutObject d a).merge merge (cutObject d b) := by
  cases d with
  | zero => simp [cutObject, ObjectOf.merge, Field.additions, ha, hb]
  | succ d => exact ObjectOf.map_merge (hm d (Nat.lt_succ_self d))

/-- Merging what is left of two shapes gives what is left of their merge. -/
theorem cut_merge {a b : Shape} (ha : a.WellFormed) (hb : b.WellFormed)
    (hau : Everywhere Uncollapsed a) (hbu : Everywhere Uncollapsed b) :
    (merge a b).cut d = merge (a.cut d) (b.cut d) := by
  refine map_merge_of_inside keepsKinds_cut (fun d v s _ _ hv hs hk hc hparts => ?_) d ha hb hau hbu
  match v, s, hk with
  | .scalar _, .scalar _, _ => simp only [unite, cut_scalar]
  | .array x, .array y, _ =>
    have helement := hparts _ _ (.element List.mem_cons_self) (.element List.mem_cons_self)
    simp only [unite, cut_array, cutArray_merge fun e _ => helement e]
  | .object x, .object y, _ =>
    have hfields : ∀ e < d, ∀ f ∈ x.fields, ∀ f' ∈ y.fields,
        (merge f.shape f'.shape).cut e = merge (f.shape.cut e) (f'.shape.cut e) :=
      fun e _ f hf f' hf' =>
        hparts _ _ (.field List.mem_cons_self hf) (.field List.mem_cons_self hf') e
    simp only [unite, cut_object, cutObject_merge hv.self hs.self hfields]
  | .choice _, .choice _, _ => exact absurd rfl hc

/-- The placeholder for elements that there are none of is its own cut. -/
theorem cut_getD_foldFirst? {ss : List Shape}
    (hss : ∀ s ∈ ss, s.WellFormed ∧ Everywhere Uncollapsed s) :
    ((foldFirst? merge ss).getD null).cut d = (foldFirst? merge (ss.map (cut d))).getD null := by
  have hmerge : ∀ x y, x.WellFormed ∧ Everywhere Uncollapsed x →
      y.WellFormed ∧ Everywhere Uncollapsed y →
      (merge x y).WellFormed ∧ Everywhere Uncollapsed (merge x y) := fun _ _ hx hy =>
    ⟨wellFormed_merge hx.1 hy.1, keptByMerging_uncollapsed.everywhere_merge hx.2 hy.2⟩
  rw [← foldFirst?_map hmerge (fun _ _ hx hy => cut_merge hx.1 hy.1 hx.2 hy.2) hss]
  cases foldFirst? merge ss with
  | none => exact cut_scalar d "null"
  | some s => rfl

end Merge

end Shape

/-! ## Surveys that look less deep -/

open Shape

namespace Report

variable {α : Type} {size d : Nat} {f f' : α → Report}

theorem cut_zero_ofSequence (inner : Option (α → Report)) (xs : Array α) :
    (ofSequence .null size inner xs).shape.cut 0 = (ofSequence .null size none xs).shape :=
  rfl

theorem cut_zero_ofMapping (inner : Option (α → Report)) (es : List (Scalar × α)) :
    (ofMapping inner es).shape.cut 0 = (ofMapping (none : Option (α → Report)) es).shape := by
  cases inner <;> rfl

section Parts

variable (hcut : ∀ x, (f' x).shape.cut d = (f x).shape)
include hcut

/-- Elements are cut before they are merged on one side, and merged before they are cut on the
other. -/
theorem cut_succ_ofSequence
    (hparts : ∀ x, (f' x).shape.WellFormed ∧ Everywhere Uncollapsed (f' x).shape)
    (xs : Array α) : (ofSequence .null size (some f') xs).shape.cut (d + 1) =
      (ofSequence .null size (some f) xs).shape := by
  have hshapes : ∀ ys : List α, ((ys.map f').map shape).map (cut d) = (ys.map f).map shape := by
    intro ys
    simp [hcut]
  have hall : ∀ ys : List α, ∀ s ∈ (ys.map f').map shape,
      s.WellFormed ∧ Everywhere Uncollapsed s := fun ys =>
    List.forall_mem_map.mpr (List.forall_mem_map.mpr fun x _ => hparts x)
  simp only [ofSequence, cut_array, cutArray, cut_getD_foldFirst? (hall _), hshapes]

theorem cut_succ_ofMapping (es : List (Scalar × α)) :
    (ofMapping (some f') es).shape.cut (d + 1) = (ofMapping (some f) es).shape := by
  simp only [ofMapping, cut_object, fields_ofEntries_map fun x => (hcut x).symm]
  rfl

end Parts

end Report

namespace Tree

theorem cut_report {d d' : Nat} (hle : d ≤ d') (size : Nat) (t : Tree) :
    (t.report .null size d').shape.cut d = (t.report .null size d).shape := by
  induction d generalizing d' t with
  | zero =>
    have hzero : ∀ inner : Option (Tree → Report), (reportWith .null size inner t).shape.cut 0 =
        (reportWith .null size none t).shape := by
      intro inner
      cases t with
      | scalar name => exact cut_scalar 0 name
      | sequence items => exact Report.cut_zero_ofSequence inner items
      | mapping entries => exact Report.cut_zero_ofMapping inner entries
    cases d' with
    | zero => exact hzero none
    | succ d' => exact hzero (some (report .null size d'))
  | succ d ih =>
    cases d' with
    | zero => exact absurd hle (Nat.not_succ_le_zero d)
    | succ d' =>
      have hcut := ih (Nat.le_of_succ_le_succ hle)
      cases t with
      | scalar name => exact cut_scalar (d + 1) name
      | sequence items =>
        refine Report.cut_succ_ofSequence hcut (fun t => ⟨?_, ?_⟩) items
        · exact t.everywhere_report (givenBySurvey_wellFormedNode (wellFormed_scalar _)) d'
        · exact t.everywhere_report (givenBySurvey_uncollapsed (everywhere_scalar.mpr trivial)) d'
      | mapping entries => exact Report.cut_succ_ofMapping hcut entries

end Tree

/-- **Depth limits are coherent.**  Of two surveys that sample alike, the one that looks less deep
gives the shape that the other gives, without what lies in containers at its depth limit. -/
theorem infer_eq_cut {h : Heap} {v : Value} (hv : h.Acyclic v) (limit limit' : Int)
    {r r' : Request} {o o' : Options} {log log' log₁ log₁' : Array Record}
    (ho : r.options.run log = .ok o log₁) (ho' : r'.options.run log' = .ok o' log₁')
    (hsize : o.sampleSize = o'.sampleSize)
    (hle : min o.maxDepth (greatestDepth limit) ≤ min o'.maxDepth (greatestDepth limit')) :
    ∃ s log₂ s' log₂',
      (({ heap := h, recursionLimit := limit } : Survey).infer r v).run log = .ok s log₂ ∧
      (({ heap := h, recursionLimit := limit' } : Survey).infer r' v).run log' = .ok s' log₂' ∧
      s = s'.cut (min o.maxDepth (greatestDepth limit)) := by
  obtain ⟨t, ht⟩ := hv.exists_unfolds
  obtain ⟨log₂, hrun⟩ := Survey.infer_run (S := { heap := h, recursionLimit := limit }) ho
    (v := v) (Survey.namesKeys_of_unlimited rfl)
  obtain ⟨log₂', hrun'⟩ := Survey.infer_run (S := { heap := h, recursionLimit := limit' }) ho'
    (v := v) (Survey.namesKeys_of_unlimited rfl)
  refine ⟨_, log₂, _, log₂', hrun, hrun', ?_⟩
  have hapart : h.Apart v [] := fun _ _ => List.not_mem_nil
  rw [report_of_unfolds _ ht hv hapart, report_of_unfolds _ ht hv hapart, hsize]
  exact (t.cut_report hle o'.sampleSize).symm

/-- The list at depth 2 is in the shape, but what is in it is not. -/
theorem infer_eq_cut_list :
    let h : Heap := #[.sequence "list" #[.scalar (.int 1)], .mapping "dict" [(.text "a", .node 0)],
      .mapping "dict" [(.text "b", .scalar .null)], .sequence "list" #[.node 1, .node 2]]
    let deep : Shape := .array ⟨.exact 2, .object ⟨[⟨"a", .array ⟨.exact 1, .number, false⟩, true⟩,
      ⟨"b", .null, true⟩], false⟩, false⟩
    (∃ log, (({ heap := h } : Survey).infer {} (.node 3)).run #[] = .ok deep log) ∧
    ∃ log, (({ heap := h } : Survey).infer { maxDepth := some (.integer 2) } (.node 3)).run #[] =
      .ok (.array ⟨.exact 2, .object ⟨[⟨"a", .array ⟨.exact 1, .null, false⟩, true⟩,
        ⟨"b", .null, true⟩], false⟩, false⟩) log := by
  intro h deep
  have hb : h.BottomUp := by decide
  have ho : ({ maxDepth := some (.integer 2) } : Request).options.run #[] =
      .ok { maxDepth := 2 } #[] := rfl
  have ho' : ({} : Request).options.run #[] = .ok {} #[] := rfl
  obtain ⟨deepLog, hdeep⟩ := Survey.infer_run (S := { heap := h }) ho' (v := .node 3)
    (Survey.namesKeys_of_unlimited rfl)
  obtain ⟨s, log, s', log', hs, hs', hcut⟩ :=
    infer_eq_cut (hb.acyclic (.node 3)) 1000 1000 ho ho' rfl (by decide)
  cases hdeep.symm.trans hs'
  subst hcut
  exact ⟨⟨deepLog, hdeep⟩, log, hs⟩

end JsonShape
