import JsonShape.Shape.Merge

/-!
# Merging with checked extents

Fields that leave the extent of an array open are refused. `mergeChecked` merges shapes with this
check wherever a merged array is made from its fields, and fails where the check does.

* `mergeChecked_eq_ok`: the check never fails, so that this is merging.
-/

namespace JsonShape

/-! ## Checked merging -/

section Checked

variable {σ : Type} (m : σ → σ → Except Error σ)

def ArrayOf.mergeChecked (a b : ArrayOf σ) : Except Error (ArrayOf σ) := do
  let element ←
    if b.hasElement then if a.hasElement then m a.element b.element else pure b.element
    else pure a.element
  let extent ← Extent.ofFields none (some (min a.extent.bounds.1 b.extent.bounds.1))
    (some (max a.extent.bounds.2 b.extent.bounds.2))
  pure ⟨extent, element, !a.hasElement && !b.hasElement && (a.collapsed || b.collapsed)⟩

def Field.mergeIntoChecked (others : List (Field σ)) (f : Field σ) : Except Error (Field σ) :=
  match find? others f.name with
  | none => pure { f with isOptional := true }
  | some g => do pure ⟨f.name, ← m f.shape g.shape, f.isOptional && g.isOptional⟩

def ObjectOf.mergeChecked (a b : ObjectOf σ) : Except Error (ObjectOf σ) := do
  let merged ← a.fields.mapM (Field.mergeIntoChecked m b.fields)
  let fields := merged ++ Field.additions a.fields b.fields
  pure ⟨fields, fields.isEmpty && (a.collapsed || b.collapsed)⟩

end Checked

namespace Shape

section Checked

variable (m : Shape → Shape → Except Error Shape)

def uniteChecked? : Shape → Shape → Except Error (Option Shape)
  | .scalar a, .scalar b => pure (if a = b then some (.scalar a) else none)
  | .array a, .array b => do pure (some (.array (← a.mergeChecked m b)))
  | .object a, .object b => do pure (some (.object (← a.mergeChecked m b)))
  | _, _ => pure none

def addAlternativeChecked : List Shape → Shape → Except Error (List Shape)
  | [], s => pure [s]
  | v :: vs, s => do
    match ← uniteChecked? m v s with
    | some u => pure (u :: vs)
    | none => pure (v :: (← addAlternativeChecked vs s))

def mergeWithChecked (a b : Shape) : Except Error Shape := do
  pure (ofAlternatives (← (a.alternatives ++ b.alternatives).foldlM (addAlternativeChecked m) []))

end Checked

def mergeWithinChecked : Nat → Shape → Shape → Except Error Shape
  | 0 => mergeWithChecked fun a _ => pure a
  | n + 1 => mergeWithChecked (mergeWithinChecked n)

/-- The merge of two shapes, in which the extents of merged arrays are checked. -/
def mergeChecked (a b : Shape) : Except Error Shape := mergeWithinChecked (max a.level b.level) a b

end Shape

/-! ## The check never fails -/

section Pure

variable {σ : Type} (m : σ → σ → σ)

theorem ArrayOf.mergeChecked_pure (a b : ArrayOf σ) :
    a.mergeChecked (fun x y => pure (m x y)) b = pure (a.merge m b) := by
  unfold mergeChecked merge
  cases b.hasElement <;> cases a.hasElement <;> rfl

theorem Field.mergeIntoChecked_pure (others : List (Field σ)) (f : Field σ) :
    f.mergeIntoChecked (fun x y => pure (m x y)) others = pure (f.mergeInto m others) := by
  unfold mergeIntoChecked mergeInto
  cases find? others f.name <;> rfl

theorem ObjectOf.mergeChecked_pure (a b : ObjectOf σ) :
    a.mergeChecked (fun x y => pure (m x y)) b = pure (a.merge m b) := by
  have hfields : a.fields.mapM (Field.mergeIntoChecked (fun x y => pure (m x y)) b.fields) =
      pure (a.fields.map (Field.mergeInto m b.fields)) := by
    rw [funext (Field.mergeIntoChecked_pure m b.fields), List.mapM_pure]
  rw [mergeChecked, hfields]
  rfl

end Pure

namespace Shape

section Pure

variable (m : Shape → Shape → Shape)

theorem uniteChecked?_pure (v s : Shape) :
    uniteChecked? (fun x y => pure (m x y)) v s = pure (unite? m v s) := by
  cases v <;> cases s <;> try rfl
  case array.array a b => rw [uniteChecked?, ArrayOf.mergeChecked_pure]; rfl
  case object.object a b => rw [uniteChecked?, ObjectOf.mergeChecked_pure]; rfl

theorem addAlternativeChecked_pure (vs : List Shape) (s : Shape) :
    addAlternativeChecked (fun x y => pure (m x y)) vs s = pure (addAlternative m vs s) := by
  induction vs with
  | nil => rfl
  | cons v vs ih =>
    rw [addAlternativeChecked, addAlternative, uniteChecked?_pure, ih]
    cases unite? m v s <;> rfl

theorem mergeWithChecked_pure (a b : Shape) :
    mergeWithChecked (fun x y => pure (m x y)) a b = pure (mergeWith m a b) := by
  have hadd : addAlternativeChecked (fun x y => pure (m x y)) =
      fun vs s => pure (addAlternative m vs s) := by
    funext vs s
    exact addAlternativeChecked_pure m vs s
  rw [mergeWithChecked, hadd, List.foldlM_pure]
  rfl

end Pure

theorem mergeWithinChecked_eq_pure (n : Nat) :
    mergeWithinChecked n = fun a b => pure (mergeWithin n a b) := by
  induction n with
  | zero =>
    funext a b
    exact mergeWithChecked_pure (fun a _ => a) a b
  | succ n ih =>
    funext a b
    rw [mergeWithinChecked, ih]
    exact mergeWithChecked_pure (mergeWithin n) a b

theorem mergeChecked_eq_ok : mergeChecked = fun a b => .ok (merge a b) := by
  funext a b
  rw [mergeChecked, mergeWithinChecked_eq_pure]
  rfl

end Shape

end JsonShape
