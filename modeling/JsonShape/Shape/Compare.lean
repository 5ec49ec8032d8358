import JsonShape.Shape.Basic

/-!
# Comparing shapes

`similar` compares structure: kinds, scalar types and sets of keys. It ignores extents, marks and
optional keys, and alternatives count as a collection. `same` compares everything except the order
of keys.
-/

namespace JsonShape

/-- Both lists have the same names. -/
def Field.sameNames {σ : Type} (fs gs : List (Field σ)) : Bool :=
  (Field.names fs).all (· ∈ Field.names gs) && (Field.names gs).all (· ∈ Field.names fs)

namespace Shape

mutual

def similar : Shape → Shape → Bool
  | .scalar a, .scalar b => a == b
  | .array a, .array b => similar a.element b.element
  | .object a, .object b => Field.sameNames a.fields b.fields && similarFields a.fields b.fields
  | .choice vs, .choice ws => vs.length == ws.length && similarAlternatives vs ws
  | _, _ => false

/-- Each field has a similar one of its name. -/
def similarFields : List (Field Shape) → List (Field Shape) → Bool
  | [], _ => true
  | f :: fs, gs =>
    (match Field.find? gs f.name with
      | some g => similar f.shape g.shape
      | none => false) && similarFields fs gs

/-- Each alternative has a similar one. -/
def similarAlternatives : List Shape → List Shape → Bool
  | [], _ => true
  | v :: vs, ws => ws.any (similar v) && similarAlternatives vs ws

end

mutual

def same : Shape → Shape → Bool
  | .scalar a, .scalar b => a == b
  | .array a, .array b =>
    decide (a.extent = b.extent) && a.collapsed == b.collapsed && same a.element b.element
  | .object a, .object b =>
    a.collapsed == b.collapsed && Field.sameNames a.fields b.fields &&
      sameFields a.fields b.fields
  | .choice vs, .choice ws => sameAlternatives vs ws
  | _, _ => false

/-- Each field has the same one among the others. -/
def sameFields : List (Field Shape) → List (Field Shape) → Bool
  | [], _ => true
  | f :: fs, gs =>
    (match Field.find? gs f.name with
      | some g => f.isOptional == g.isOptional && same f.shape g.shape
      | none => false) && sameFields fs gs

def sameAlternatives : List Shape → List Shape → Bool
  | [], [] => true
  | v :: vs, w :: ws => same v w && sameAlternatives vs ws
  | _, _ => false

end

theorem similarFields_eq_true_iff {fs gs : List (Field Shape)} :
    similarFields fs gs = true ↔
      ∀ f ∈ fs, ∃ g, Field.find? gs f.name = some g ∧ similar f.shape g.shape = true := by
  induction fs with
  | nil => simp [similarFields]
  | cons f fs ih =>
    cases h : Field.find? gs f.name <;> simp [similarFields, h, ih]

theorem similarAlternatives_eq_true_iff {vs ws : List Shape} :
    similarAlternatives vs ws = true ↔ ∀ v ∈ vs, ∃ w ∈ ws, similar v w = true := by
  induction vs with
  | nil => simp [similarAlternatives]
  | cons v vs ih => simp [similarAlternatives, ih]

end Shape

end JsonShape
