import JsonShape.Proofs.Placeholder
import JsonShape.Proofs.Regular

/-!
# Repetition is invisible

A shape merged with itself stays as it is, except that lengths are written as ranges. `repeated s`
is `s` with the ranges that merging writes: those of arrays inside an array that describes no
element are out of its reach.

* `merge_eq_repeated`: merging shapes that differ at most in this gives `repeated`, of which there
  is no other than itself (`repeated_repeated`);
* `renderAt_repeated`, `onOneLine_repeated`: no text and no layout tells it from the shape;
* `mergeAll_replicate`: hence repeating a shape shows nowhere.
-/

namespace JsonShape

open Shape

/-! ## Lengths as ranges -/

namespace Extent

theorem bounds_ranged (e : Extent) : e.ranged.bounds = e.bounds := rfl

theorem bounds_eq_of_ranged_eq {e e' : Extent} (h : e.ranged = e'.ranged) :
    e.bounds = e'.bounds := by
  rw [← bounds_ranged, h, bounds_ranged]

theorem hull_of_bounds_eq {e e' : Extent} (h : e.bounds = e'.bounds) : e.hull e' = e'.ranged := by
  rw [hull, ranged, h, Int.min_self, Int.max_self]

end Extent

namespace Shape

mutual

/-- The shape with the lengths that merging reaches written as ranges. -/
def repeated : Shape → Shape
  | .scalar name => .scalar name
  | .array a =>
    .array ⟨a.extent.ranged, if a.hasElement then repeated a.element else a.element, a.collapsed⟩
  | .object o => .object ⟨repeatedFields o.fields, o.collapsed⟩
  | .choice vs => .choice (repeatedAlternatives vs)

def repeatedFields : List (Field Shape) → List (Field Shape)
  | [] => []
  | f :: fs => ⟨f.name, repeated f.shape, f.isOptional⟩ :: repeatedFields fs

def repeatedAlternatives : List Shape → List Shape
  | [] => []
  | v :: vs => repeated v :: repeatedAlternatives vs

end

def repeatedArray (a : ArrayOf Shape) : ArrayOf Shape :=
  ⟨a.extent.ranged, if a.hasElement then a.element.repeated else a.element, a.collapsed⟩

theorem repeatedFields_eq_map (fs : List (Field Shape)) :
    repeatedFields fs = fs.map (Field.map repeated) := by
  induction fs with
  | nil => rw [repeatedFields, List.map_nil]
  | cons f fs ih => rw [repeatedFields, ih, List.map_cons, Field.map]

theorem repeatedAlternatives_eq_map (vs : List Shape) :
    repeatedAlternatives vs = vs.map repeated := by
  induction vs with
  | nil => rw [repeatedAlternatives, List.map_nil]
  | cons v vs ih => rw [repeatedAlternatives, ih, List.map_cons]

theorem repeated_scalar (name : String) : (scalar name).repeated = scalar name := by
  rw [repeated]

theorem repeated_array (a : ArrayOf Shape) : (array a).repeated = array (repeatedArray a) := by
  rw [repeated, repeatedArray]

theorem repeated_object (o : ObjectOf Shape) :
    (object o).repeated = object (o.map repeated) := by
  rw [repeated, repeatedFields_eq_map, ObjectOf.map]

theorem repeated_choice (vs : List Shape) :
    (choice vs).repeated = choice (vs.map repeated) := by
  rw [repeated, repeatedAlternatives_eq_map]

theorem hasElement_repeatedArray (a : ArrayOf Shape) :
    (repeatedArray a).hasElement = a.hasElement := rfl

theorem keepsKinds_repeated : KeepsKinds repeated where
  kind s := by
    cases s with
    | scalar name => rw [repeated_scalar]
    | array a => rw [repeated_array]; rfl
    | object o => rw [repeated_object]; rfl
    | choice vs => rw [repeated_choice]; rfl
  choice := repeated_choice

theorem repeated_repeated (s : Shape) : s.repeated.repeated = s.repeated := by
  induction s using Shape.induction with
  | scalar name => rw [repeated_scalar, repeated_scalar]
  | array a ih =>
    rw [repeated_array, repeated_array, repeatedArray, hasElement_repeatedArray]
    simp only [repeatedArray]
    cases a.hasElement with
    | false => rfl
    | true => simp only [if_true, ih]; rfl
  | object o ih =>
    rw [repeated_object, repeated_object, ObjectOf.map, ObjectOf.map, List.map_map]
    have hfields : ∀ f ∈ o.fields, (Field.map repeated ∘ Field.map repeated) f =
        Field.map repeated f := by
      intro f hf
      simp only [Function.comp_apply, Field.map, ih f hf]
    rw [List.map_congr_left hfields]
  | choice vs ih =>
    rw [repeated_choice, repeated_choice, List.map_map]
    exact congrArg choice (List.map_congr_left ih)

/-! ## Merging repetitions -/

theorem array_merge_eq_repeated {a b : ArrayOf Shape}
    (h : repeatedArray a = repeatedArray b)
    (hm : a.element.repeated = b.element.repeated →
      merge a.element b.element = b.element.repeated) :
    a.merge merge b = repeatedArray b := by
  obtain ⟨hextent, helement, hcollapsed⟩ := ArrayOf.mk.inj h
  have hbounds := Extent.bounds_eq_of_ranged_eq hextent
  have hdescribes : a.hasElement = b.hasElement := by
    rw [ArrayOf.hasElement, ArrayOf.hasElement, ArrayOf.isEmpty, ArrayOf.isEmpty, Extent.isEmpty,
      Extent.isEmpty, hbounds, hcollapsed]
  rw [ArrayOf.merge, Extent.hull_of_bounds_eq hbounds, repeatedArray, hdescribes, hcollapsed]
  rw [hdescribes] at helement
  cases hb : b.hasElement with
  | false => simpa [hb] using helement
  | true =>
    have hmark := (ArrayOf.hasElement_eq_true_iff.mp hb).2
    simp only [hb, if_true] at helement
    simp [hm helement, hmark]

end Shape

/-- Objects that a map of shapes does not tell apart have the same names, so that each field meets
its own. -/
theorem ObjectOf.merge_eq_map {σ : Type} {g : σ → σ} {m : σ → σ → σ} {a b : ObjectOf σ}
    (h : a.map g = b.map g) (hb : (Field.names b.fields).Nodup)
    (hc : b.collapsed = true → b.fields = [])
    (hm : ∀ f ∈ a.fields, ∀ f' ∈ b.fields, g f.shape = g f'.shape →
      m f.shape f'.shape = g f'.shape) : a.merge m b = b.map g := by
  obtain ⟨hmap, hcollapsed⟩ := ObjectOf.mk.inj h
  have hnames : Field.names a.fields = Field.names b.fields := by
    rw [← Field.names_map (g := g), hmap, Field.names_map]
  have hshared : a.fields.map (Field.mergeInto m b.fields) = b.fields.map (Field.map g) := by
    rw [← List.forall₂_eq_eq_eq, List.forall₂_map_left_iff, List.forall₂_map_right_iff]
    refine Keyed.forall₂_of_mem hmap fun f hf f' hf' hff' => ?_
    obtain ⟨hname, hshape, hoptional⟩ := Field.mk.inj hff'
    have hfind : Field.find? b.fields f.name = some f' := by
      rw [hname]
      exact (Keyed.find?_eq_some_iff hb).mpr ⟨hf', rfl⟩
    rw [Field.mergeInto, hfind, Field.map]
    simp only [hname, hm f hf f' hf' hshape, hoptional, Bool.and_self]
  have hnew : Field.additions a.fields b.fields = [] := by
    rw [Field.additions, hnames, List.map_eq_nil_iff, List.filter_eq_nil_iff]
    intro f hf
    have hmem : f.name ∈ Field.names b.fields := List.mem_map_of_mem hf
    simp [hmem]
  have hmark : ((b.fields.map (Field.map g)).isEmpty && (b.collapsed || b.collapsed)) =
      b.collapsed := by
    cases hb' : b.collapsed with
    | false => simp
    | true => simp [hc hb']
  rw [ObjectOf.merge, hshared, hnew, List.append_nil, hcollapsed, hmark, ObjectOf.map]

namespace Shape

theorem unite_eq_repeated {v u : Shape} (hu : u.WellFormed) (hk : v.kind = u.kind)
    (hc : v.kind ≠ .choice) (hvu : v.repeated = u.repeated)
    (hm : ∀ t t', Inside v t → Inside u t' → t.repeated = t'.repeated →
      merge t t' = t'.repeated) : unite merge v u = u.repeated := by
  match v, u, hk with
  | .scalar _, .scalar _, _ => exact hvu
  | .array x, .array y, _ =>
    rw [repeated_array, repeated_array] at hvu
    rw [unite, repeated_array, array_merge_eq_repeated (array.inj hvu)
      (hm _ _ (.element List.mem_cons_self) (.element List.mem_cons_self))]
  | .object x, .object y, _ =>
    rw [repeated_object, repeated_object] at hvu
    rw [unite, repeated_object, ObjectOf.merge_eq_map (object.inj hvu) hu.self.1 hu.self.2
      fun f hf f' hf' => hm _ _ (.field List.mem_cons_self hf) (.field List.mem_cons_self hf')]
  | .choice _, .choice _, _ => exact absurd rfl hc

/-- Shapes that a map does not tell apart have the same kinds, so that each alternative meets its
own. -/
theorem KeepsKinds.united_eq_map {g : Shape → Shape} (hg : KeepsKinds g) {a b : Shape}
    (ha : Flat a.alternatives) (hb : Flat b.alternatives) (hab : g a = g b)
    (hunite : ∀ v ∈ a.alternatives, ∀ u ∈ b.alternatives, v.kind = u.kind → g v = g u →
      unite merge v u = g u) : united a b = b.alternatives.map g := by
  have hmap : a.alternatives.map g = b.alternatives.map g := by
    rw [← hg.alternatives, hab, hg.alternatives]
  have hkinds : kinds (united a b) = kinds (b.alternatives.map g) := by
    rw [kinds_united ha hb, ← hg.kinds_map a.alternatives, hmap, hg.kinds_map,
      Keyed.union_eq_left (List.Subset.refl _)]
  rw [← List.forall₂_eq_eq_eq]
  refine Keyed.forall₂_of_find? hkinds (flat_united ha hb).1 fun k x y hx hy => ?_
  replace hx : findKind? (united a b) k = some x := hx
  replace hy : findKind? (b.alternatives.map g) k = some y := hy
  obtain ⟨v, hv, hvy⟩ : ∃ v, findKind? a.alternatives k = some v ∧ g v = y := by
    rwa [← hmap, hg.findKind?_map, Option.map_eq_some_iff] at hy
  obtain ⟨u, hu, rfl⟩ : ∃ u, findKind? b.alternatives k = some u ∧ g u = y := by
    rwa [hg.findKind?_map, Option.map_eq_some_iff] at hy
  rw [findKind?_united ha hb, hv, hu, Option.merge_some_some, Option.some_inj] at hx
  rw [← hx]
  exact hunite v (mem_of_findKind? hv) u (mem_of_findKind? hu)
    ((kind_of_findKind? hv).trans (kind_of_findKind? hu).symm) hvy

/-- The first shape may itself be a merge of repetitions of the second. -/
theorem merge_eq_repeated {t s : Shape} (ht : t.WellFormed) (hs : s.WellFormed)
    (hplural : Everywhere Plural s) (hts : t.repeated = s.repeated) :
    merge t s = s.repeated := by
  induction s using inside_induction generalizing t with
  | step s ih =>
    have hunited : united t s = s.alternatives.map repeated := by
      refine keepsKinds_repeated.united_eq_map ht.flat hs.flat hts fun v hv u hu hk hvu => ?_
      refine unite_eq_repeated (hs.alternative hu) hk (ht.flat.kind_ne_choice hv) hvu
        fun t' s' ht' hs' hts' => ?_
      have hin := hs.flat.inside hu hs'
      exact ih s' hin (ht.inside (ht.flat.inside hv ht')) (hs.inside hin) (hplural.inside hin) hts'
    rw [merge_eq_ofAlternatives, hunited, ← keepsKinds_repeated.ofAlternatives,
      ofAlternatives_alternatives fun _ => hplural.self.two_le_length]

theorem go_replicate {r s : Shape} (h : merge r s = r) (n : Nat) :
    runningMerge.go r (List.replicate n s) = List.replicate (n + 1) r := by
  induction n with
  | zero => rfl
  | succ n ih => rw [List.replicate_succ, runningMerge.go, h, ih, ← List.replicate_succ]

theorem foldl_merge_replicate {r s : Shape} (h : merge r s = r) (n : Nat) :
    (List.replicate n s).foldl merge r = r := by
  induction n with
  | zero => rfl
  | succ n ih => rw [List.replicate_succ, List.foldl_cons, h, ih]

/-! ## The text of repetitions -/

theorem onOneLine_repeated (s : Shape) : s.repeated.onOneLine = s.onOneLine := by
  induction s using Shape.induction with
  | scalar name => rw [repeated_scalar]
  | array a ih =>
    have helement : (repeatedArray a).element.onOneLine = a.element.onOneLine := by
      rw [repeatedArray]
      split
      · exact ih
      · rfl
    rw [repeated_array, onOneLine, onOneLine, helement]
    rfl
  | object o ih =>
    have hfields : fieldsOnOneLine (o.fields.map (Field.map repeated)) =
        fieldsOnOneLine (o.fields.map (Field.map id)) := fieldsOnOneLine_map_congr ih
    conv_rhs => rw [← o.map_id]
    simp only [repeated_object, onOneLine, ObjectOf.map, List.length_map, hfields]
  | choice vs ih =>
    rw [repeated_choice, onOneLine, onOneLine, Bool.eq_iff_iff,
      alternativesOnOneLine_eq_true_iff, alternativesOnOneLine_eq_true_iff, List.forall_mem_map]
    exact forall₂_congr fun v hv => by rw [ih v hv]

theorem renderAt_repeated (limit depth indent : Nat) (s : Shape) :
    renderAt limit depth indent s.repeated = renderAt limit depth indent s := by
  induction s using Shape.induction generalizing depth indent with
  | scalar name => rw [repeated_scalar]
  | array a ih =>
    rw [repeated_array]
    refine renderAt_array_congr rfl rfl fun ha _ => ?_
    have hdescribes : a.hasElement = true := ha
    simp only [repeatedArray, hdescribes, if_true]
    exact ih (depth + 1) indent
  | object o ih =>
    conv_rhs => rw [← o.map_id]
    rw [repeated_object]
    exact renderAt_object_map_congr (fun f _ => onOneLine_repeated f.shape)
      fun f hf indent => ih f hf (depth + 1) indent
  | choice vs ih =>
    simp only [repeated_choice, renderAt, renderAlternatives_eq_map, List.map_map]
    exact congrArg _ (List.map_congr_left fun v hv => ih v hv depth indent)

end Shape

/-- **Repetition is invisible.**  Merging two or more copies of a shape leaves it as it is, with the
lengths that merging reaches written as ranges. The first merge does this, and no further one
changes anything. The result has the text of the shape and its layout, on each host and for each
depth limit. -/
theorem mergeAll_replicate {s : Shape} (hs : s.WellFormed) (hplural : Everywhere Plural s) {n : Nat}
    (hn : 2 ≤ n) :
    mergeAll (List.replicate n s) = .ok s.repeated ∧
      runningMerge (List.replicate n s) = s :: List.replicate (n - 1) s.repeated ∧
      merge s.repeated s.repeated = s.repeated ∧ s.repeated.onOneLine = s.onOneLine ∧
      ∀ limit maxDepth : Int,
        s.repeated.renderWithin limit maxDepth = s.renderWithin limit maxDepth := by
  obtain ⟨n, rfl⟩ := Nat.exists_eq_add_of_le' hn
  have htwice : merge s s = s.repeated := merge_eq_repeated hs hs hplural rfl
  have hwell : s.repeated.WellFormed := htwice ▸ wellFormed_merge hs hs
  have hagain : merge s.repeated s = s.repeated :=
    merge_eq_repeated hwell hs hplural s.repeated_repeated
  have hself : merge s.repeated s.repeated = s.repeated.repeated :=
    merge_eq_repeated hwell hwell (htwice ▸ keptByMerging_plural.everywhere_merge hplural hplural)
      rfl
  refine ⟨?_, ?_, hself.trans s.repeated_repeated, onOneLine_repeated s, fun limit maxDepth => ?_⟩
  · rw [List.replicate_succ, List.replicate_succ, mergeAll, List.foldl_cons, htwice,
      foldl_merge_replicate hagain]
  · rw [List.replicate_succ, List.replicate_succ, runningMerge, runningMerge.go, htwice,
      go_replicate hagain]
    rfl
  · simp only [renderWithin, render, renderAt_repeated]

/-- The elements of an empty array are out of reach, whatever holds their place. -/
theorem mergeAll_replicate_thrice :
    let unseen : Shape := .array ⟨.exact 1, .null, false⟩
    let s : Shape := .array ⟨.exact 2, .choice [.null, .object ⟨[
      ⟨"a", .array ⟨.exact 3, .number, false⟩, true⟩,
      ⟨"b", .array ⟨.exact 0, unseen, false⟩, false⟩,
      ⟨"c", .array ⟨.exact 4, .null, true⟩, false⟩], false⟩], false⟩
    let r : Shape := .array ⟨.range 2 2, .choice [.null, .object ⟨[
      ⟨"a", .array ⟨.range 3 3, .number, false⟩, true⟩,
      ⟨"b", .array ⟨.range 0 0, unseen, false⟩, false⟩,
      ⟨"c", .array ⟨.range 4 4, .null, true⟩, false⟩], false⟩], false⟩
    mergeAll [s, s, s] = .ok r ∧ runningMerge [s, s, s] = [s, r, r] ∧
      r.onOneLine = s.onOneLine ∧ r.renderWithin 1000 8 = s.renderWithin 1000 8 := by
  intro unseen s r
  obtain ⟨hmerge, hrunning, -, hline, htext⟩ := mergeAll_replicate (show s.WellFormed by decide)
    (show Everywhere Plural s by decide) (show 2 ≤ 3 by decide)
  have hr : s.repeated = r := rfl
  rw [hr] at hmerge hrunning hline htext
  exact ⟨hmerge, hrunning, hline, htext 1000 8⟩

end JsonShape
