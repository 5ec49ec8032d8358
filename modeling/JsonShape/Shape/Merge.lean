import JsonShape.Shape.Basic

/-!
# Merging shapes

`Shape.merge a b` describes what `a` describes and what `b` describes: the alternatives of `a`, then
those of `b`, are added one by one to a list in which scalars of one type, objects, and arrays each
take one place. Objects merge key by key and arrays merge their elements.

`merge` recurs on the level of the shapes. `Shape.merge_eq`, in `MergeLevel`, states the rule
without it.
-/

namespace JsonShape

namespace Field

variable {σ : Type}

/-- The field of a merged object for a field of the first object: optional unless the other object
has the key too and one of the two requires it. -/
def mergeInto (m : σ → σ → σ) (others : List (Field σ)) (f : Field σ) : Field σ :=
  match find? others f.name with
  | none => { f with isOptional := true }
  | some g => ⟨f.name, m f.shape g.shape, f.isOptional && g.isOptional⟩

/-- The fields that the given ones lack, as optional fields. -/
def additions (fields others : List (Field σ)) : List (Field σ) :=
  (others.filter fun g => g.name ∉ names fields).map fun g => { g with isOptional := true }

@[simp] theorem name_mergeInto (m : σ → σ → σ) (others : List (Field σ)) (f : Field σ) :
    (f.mergeInto m others).name = f.name := by
  unfold mergeInto
  split <;> rfl

theorem names_additions (fields others : List (Field σ)) :
    names (additions fields others) = (names others).filter fun k => k ∉ names fields := by
  simp [names, additions, List.filter_map, Function.comp_def]

theorem mem_additions {fields others : List (Field σ)} {f : Field σ} :
    f ∈ additions fields others ↔
      ∃ g ∈ others, g.name ∉ names fields ∧ { g with isOptional := true } = f := by
  simp [additions, and_assoc]

theorem find?_map_mergeInto (m : σ → σ → σ) (others fields : List (Field σ)) (name : String) :
    find? (fields.map (mergeInto m others)) name =
      (find? fields name).map (mergeInto m others) := by
  have hname : ((·.name == name) ∘ mergeInto m others) = (·.name == name) :=
    funext fun f => congrArg (· == name) (name_mergeInto m others f)
  rw [find?, List.find?_map, hname]
  rfl

theorem find?_additions {fields others : List (Field σ)} {name : String}
    (h : name ∉ names fields) :
    find? (additions fields others) name =
      (find? others name).map fun g => { g with isOptional := true } := by
  induction others with
  | nil => rfl
  | cons g others ih =>
    by_cases hg : g.name = name
    · subst hg
      simp [additions, h, find?_cons]
    · rw [find?_cons, if_neg hg, ← ih]
      simp only [additions, List.filter_cons]
      split <;> simp [find?_cons, hg]

end Field

namespace ObjectOf

variable {σ : Type}

/-- The keys of the first object, then those that only the second has. -/
def merge (m : σ → σ → σ) (a b : ObjectOf σ) : ObjectOf σ :=
  let fields := a.fields.map (Field.mergeInto m b.fields) ++ Field.additions a.fields b.fields
  ⟨fields, fields.isEmpty && (a.collapsed || b.collapsed)⟩

theorem names_merge (m : σ → σ → σ) (a b : ObjectOf σ) :
    Field.names (a.merge m b).fields = Field.names a.fields ++
      (Field.names b.fields).filter fun k => k ∉ Field.names a.fields := by
  rw [← Field.names_additions, merge, Field.names, List.map_append, List.map_map]
  exact congrArg (· ++ _) (List.map_congr_left fun f _ => Field.name_mergeInto m b.fields f)

theorem find?_merge (m : σ → σ → σ) (a b : ObjectOf σ) (name : String) :
    Field.find? (a.merge m b).fields name =
      match Field.find? a.fields name with
      | some f => some (f.mergeInto m b.fields)
      | none => (Field.find? b.fields name).map fun g => { g with isOptional := true } := by
  have append : Field.find? (a.merge m b).fields name =
      (Field.find? (a.fields.map (Field.mergeInto m b.fields)) name).or
        (Field.find? (Field.additions a.fields b.fields) name) := by
    simp [merge, Field.find?, List.find?_append]
  rw [append, Field.find?_map_mergeInto]
  split
  · rename_i f h
    simp [h]
  · rename_i h
    simp [h, Field.find?_additions (Field.find?_eq_none_iff.1 h)]

theorem shape_of_mem_merge {m : σ → σ → σ} {a b : ObjectOf σ} {f : Field σ}
    (h : f ∈ (a.merge m b).fields) :
    (∃ g ∈ a.fields, f.shape = g.shape) ∨ (∃ g ∈ b.fields, f.shape = g.shape) ∨
      ∃ g ∈ a.fields, ∃ g' ∈ b.fields, f.shape = m g.shape g'.shape := by
  simp only [merge, List.mem_append, List.mem_map, Field.mem_additions] at h
  rcases h with ⟨g, hg, rfl⟩ | ⟨g, hg, -, rfl⟩
  · unfold Field.mergeInto
    split
    · exact .inl ⟨g, hg, rfl⟩
    · rename_i g' hg'
      exact .inr (.inr ⟨g, hg, g', Field.mem_of_find? hg', rfl⟩)
  · exact .inr (.inl ⟨g, hg, rfl⟩)

end ObjectOf

namespace ArrayOf

variable {σ : Type}

/-- Arrays without an element to describe add to the extent only. The result is collapsed when
neither array has an element and one is collapsed. -/
def merge (m : σ → σ → σ) (a b : ArrayOf σ) : ArrayOf σ where
  extent := a.extent.hull b.extent
  element :=
    if b.hasElement then if a.hasElement then m a.element b.element else b.element
    else a.element
  collapsed := !a.hasElement && !b.hasElement && (a.collapsed || b.collapsed)

end ArrayOf

namespace Shape

/-- The merge of two shapes that take one place among alternatives. Alternatives that are choices
themselves never do. -/
def unite? (m : Shape → Shape → Shape) : Shape → Shape → Option Shape
  | .scalar a, .scalar b => if a = b then some (.scalar a) else none
  | .array a, .array b => some (.array (a.merge m b))
  | .object a, .object b => some (.object (a.merge m b))
  | _, _ => none

/-- Add an alternative: in the first place that takes it, else at the end. -/
def addAlternative (m : Shape → Shape → Shape) : List Shape → Shape → List Shape
  | [], s => [s]
  | v :: vs, s =>
    match unite? m v s with
    | some u => u :: vs
    | none => v :: addAlternative m vs s

/-- What alternatives have and uniting keeps, all alternatives have after adding some. -/
theorem forall_mem_addAlternative {m : Shape → Shape → Shape} {Q : Shape → Prop}
    (hQ : ∀ v s u, Q v → Q s → unite? m v s = some u → Q u) {vs : List Shape} {s : Shape}
    (hvs : ∀ v ∈ vs, Q v) (hs : Q s) : ∀ v ∈ addAlternative m vs s, Q v := by
  induction vs with
  | nil => simpa [addAlternative] using hs
  | cons v vs ih =>
    obtain ⟨hv, hvs⟩ := List.forall_mem_cons.1 hvs
    unfold addAlternative
    split
    · rename_i u hu
      exact List.forall_mem_cons.2 ⟨hQ v s u hv hs hu, hvs⟩
    · exact List.forall_mem_cons.2 ⟨hv, ih hvs⟩

theorem forall_mem_foldl_addAlternative {m : Shape → Shape → Shape} {Q : Shape → Prop}
    (hQ : ∀ v s u, Q v → Q s → unite? m v s = some u → Q u) {ss vs : List Shape}
    (hvs : ∀ v ∈ vs, Q v) (hss : ∀ s ∈ ss, Q s) : ∀ v ∈ ss.foldl (addAlternative m) vs, Q v := by
  induction ss generalizing vs with
  | nil => exact hvs
  | cons s ss ih =>
    obtain ⟨hs, hss⟩ := List.forall_mem_cons.1 hss
    exact ih (forall_mem_addAlternative hQ hvs hs) hss

/-- One step of merging, with `m` for the shapes inside containers. -/
def mergeWith (m : Shape → Shape → Shape) (a b : Shape) : Shape :=
  ofAlternatives ((a.alternatives ++ b.alternatives).foldl (addAlternative m) [])

/-- Merging down to a level that the shapes do not exceed. -/
def mergeWithin : Nat → Shape → Shape → Shape
  | 0 => mergeWith fun a _ => a
  | n + 1 => mergeWith (mergeWithin n)

def merge (a b : Shape) : Shape := mergeWithin (max a.level b.level) a b

/-- The merge of several shapes, from the left. -/
def mergeAll : List Shape → Except Error Shape
  | [] => .error .nothingToMerge
  | s :: ss => .ok (ss.foldl merge s)

/-- The shapes that arise in merging several shapes, from the first one on. -/
def runningMerge : List Shape → List Shape
  | [] => []
  | s :: ss => go s ss
where
  go (s : Shape) : List Shape → List Shape
    | [] => [s]
    | t :: ts => s :: go (merge s t) ts

end Shape

end JsonShape
