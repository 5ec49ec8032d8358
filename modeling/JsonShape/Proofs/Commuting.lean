import JsonShape.Proofs.WellFormed

/-!
# Maps that commute with merging

* `KeepsKinds.map_merge`: a map of shapes that leaves each alternative its kind commutes with
  merging if it commutes with uniting two alternatives of one kind;
* `map_merge_of_inside`: for this in turn the maps have to commute with merging the shapes inside;
* `ObjectOf.map_merge`: for objects it suffices that it commutes with merging the shapes under one
  name.
-/

namespace JsonShape

/-! ## Objects -/

section Object

variable {σ τ : Type}

/-- The field with another shape. -/
def Field.map (g : σ → τ) (f : Field σ) : Field τ := ⟨f.name, g f.shape, f.isOptional⟩

/-- The object with other shapes under its names. -/
def ObjectOf.map (g : σ → τ) (o : ObjectOf σ) : ObjectOf τ :=
  ⟨o.fields.map (Field.map g), o.collapsed⟩

theorem ObjectOf.map_id (o : ObjectOf σ) : o.map id = o := by
  have hfield : Field.map (id : σ → σ) = id := rfl
  rw [map, hfield, List.map_id]

namespace Field

variable {g : σ → τ}

theorem find?_map (fs : List (Field σ)) (name : String) :
    find? (fs.map (Field.map g)) name = (find? fs name).map (Field.map g) := by
  simp [find?, List.find?_map, Function.comp_def, Field.map]

theorem names_map (fs : List (Field σ)) : names (fs.map (Field.map g)) = names fs := by
  simp [names, Field.map]

theorem shape?_map (fs : List (Field σ)) (name : String) :
    shape? (fs.map (Field.map g)) name = (shape? fs name).map g := by
  rw [shape?, find?_map, shape?, Option.map_map, Option.map_map]
  rfl

theorem additions_map (fs gs : List (Field σ)) :
    (additions fs gs).map (Field.map g) =
      additions (fs.map (Field.map g)) (gs.map (Field.map g)) := by
  simp only [additions, names_map, List.map_map, List.filter_map]
  rfl

theorem mergeInto_map {m : σ → σ → σ} {m' : τ → τ → τ} {f : Field σ} {gs : List (Field σ)}
    (hm : ∀ f' ∈ gs, g (m f.shape f'.shape) = m' (g f.shape) (g f'.shape)) :
    (f.mergeInto m gs).map g = (f.map g).mergeInto m' (gs.map (Field.map g)) := by
  have hfind : find? (gs.map (Field.map g)) (f.map g).name = (find? gs f.name).map (Field.map g) :=
    find?_map gs f.name
  rw [mergeInto, mergeInto, hfind]
  cases h : find? gs f.name with
  | none => rfl
  | some f' => simp only [Option.map_some, Field.map, hm f' (mem_of_find? h)]

end Field

theorem ObjectOf.map_merge {g : σ → τ} {m : σ → σ → σ} {m' : τ → τ → τ} {a b : ObjectOf σ}
    (hm : ∀ f ∈ a.fields, ∀ f' ∈ b.fields, g (m f.shape f'.shape) = m' (g f.shape) (g f'.shape)) :
    (a.merge m b).map g = (a.map g).merge m' (b.map g) := by
  have hkeys : (a.fields.map (Field.mergeInto m b.fields)).map (Field.map g) =
      (a.fields.map (Field.map g)).map (Field.mergeInto m' (b.fields.map (Field.map g))) := by
    rw [List.map_map, List.map_map]
    exact List.map_congr_left fun f hf => Field.mergeInto_map (hm f hf)
  have hfields : (a.merge m b).fields.map (Field.map g) =
      ((a.map g).merge m' (b.map g)).fields := by
    simp only [merge, map, List.map_append, hkeys, Field.additions_map]
  have hcollapsed : (a.merge m b).collapsed = ((a.map g).merge m' (b.map g)).collapsed := by
    simp only [collapsed_merge, map, List.isEmpty_map]
  rw [map, hfields, hcollapsed]

end Object

/-! ## Shapes -/

namespace Shape

theorem alternatives_eq_singleton {s : Shape} (h : s.kind ≠ .choice) : s.alternatives = [s] := by
  cases s with
  | choice vs => exact absurd rfl h
  | _ => rfl

theorem merge_scalar_self (name : String) : merge (.scalar name) (.scalar name) = .scalar name := by
  rw [merge_eq]
  simp [mergeWith, alternatives, addAlternative, unite?, ofAlternatives]

/-- The map leaves each shape its kind, and maps a choice alternative by alternative. -/
structure KeepsKinds (g : Shape → Shape) : Prop where
  kind : ∀ s, (g s).kind = s.kind
  choice : ∀ vs, g (.choice vs) = .choice (vs.map g)

namespace KeepsKinds

variable {g : Shape → Shape} (hg : KeepsKinds g)
include hg

theorem alternatives (s : Shape) : (g s).alternatives = s.alternatives.map g := by
  by_cases hs : s.kind = .choice
  · cases s with
    | choice vs => rw [hg.choice]; rfl
    | _ => cases hs
  · have hgs : (g s).kind ≠ .choice := hg.kind s ▸ hs
    rw [alternatives_eq_singleton hs, alternatives_eq_singleton hgs, List.map_singleton]

theorem ofAlternatives (vs : List Shape) :
    g (ofAlternatives vs) = Shape.ofAlternatives (vs.map g) := by
  match vs with
  | [] => exact hg.choice []
  | [v] => rfl
  | v :: w :: vs => exact hg.choice (v :: w :: vs)

theorem kinds_map (vs : List Shape) : kinds (vs.map g) = kinds vs := by
  simp [kinds, hg.kind]

theorem findKind?_map (vs : List Shape) (k : Kind) :
    findKind? (vs.map g) k = (findKind? vs k).map g := by
  have hkind : ((Shape.kind · == k) ∘ g) = (Shape.kind · == k) :=
    funext fun s => congrArg (· == k) (hg.kind s)
  rw [findKind?, List.find?_map, hkind]
  rfl

theorem flat {s : Shape} (hs : Flat s.alternatives) : Flat (g s).alternatives := by
  rw [Flat, hg.alternatives, hg.kinds_map]
  exact hs

theorem map_merge {a b : Shape} (ha : Flat a.alternatives) (hb : Flat b.alternatives)
    (hunite : ∀ v ∈ a.alternatives, ∀ s ∈ b.alternatives, v.kind = s.kind →
      g (unite merge v s) = unite merge (g v) (g s)) : g (merge a b) = merge (g a) (g b) := by
  have hkinds : kinds (united a b) = kinds (united (g a) (g b)) := by
    simp only [kinds_united ha hb, kinds_united (hg.flat ha) (hg.flat hb), hg.alternatives,
      hg.kinds_map]
  have hunited : (united a b).map g = united (g a) (g b) := by
    rw [← List.forall₂_eq_eq_eq, List.forall₂_map_left_iff]
    refine Keyed.forall₂_of_find? hkinds (flat_united ha hb).1 fun k x y hx hy => ?_
    replace hx : findKind? (united a b) k = some x := hx
    replace hy : findKind? (united (g a) (g b)) k = some y := hy
    rw [findKind?_united ha hb] at hx
    rw [findKind?_united (hg.flat ha) (hg.flat hb), hg.alternatives, hg.alternatives,
      hg.findKind?_map, hg.findKind?_map] at hy
    refine Keyed.rel_merge_map (R := fun x y => g x = y) hx hy (fun _ => rfl) fun v s hv hs => ?_
    have hk : v.kind = s.kind := (kind_of_findKind? hv).trans (kind_of_findKind? hs).symm
    exact hunite v (mem_of_findKind? hv) s (mem_of_findKind? hs) hk
  rw [merge_eq_ofAlternatives, merge_eq_ofAlternatives, hg.ofAlternatives, hunited]

end KeepsKinds

/-- Maps that commute with uniting two alternatives, if maps among them commute with merging the
shapes inside, commute with merging. The property `P` of all nodes is passed on to these shapes. -/
theorem map_merge_of_inside {ι : Type} {g : ι → Shape → Shape} (hg : ∀ i, KeepsKinds (g i))
    {P : Shape → Prop}
    (hunite : ∀ i v s, v.WellFormed → s.WellFormed → Everywhere P v → Everywhere P s →
      v.kind = s.kind → v.kind ≠ .choice →
      (∀ t t', Inside v t → Inside s t' → ∀ j, g j (merge t t') = merge (g j t) (g j t')) →
      g i (unite merge v s) = unite merge (g i v) (g i s))
    (i : ι) {a b : Shape} (ha : a.WellFormed) (hb : b.WellFormed) (hPa : Everywhere P a)
    (hPb : Everywhere P b) : g i (merge a b) = merge (g i a) (g i b) := by
  induction a using inside_induction generalizing b i with
  | step a ih =>
    refine (hg i).map_merge ha.flat hb.flat fun v hv s hs hk => ?_
    refine hunite i v s (ha.alternative hv) (hb.alternative hs) (hPa.alternative hv)
      (hPb.alternative hs) hk (ha.flat.kind_ne_choice hv) fun t t' ht ht' j => ?_
    have hta := ha.flat.inside hv ht
    have htb := hb.flat.inside hs ht'
    exact ih t hta j (ha.inside hta) (hb.inside htb) (hPa.inside hta) (hPb.inside htb)

end Shape

end JsonShape
