import JsonShape.Extent

/-!
# Shapes

A shape describes the structure of one position in the data: a scalar type, an array, an object or
a choice between several shapes. `level` counts the containers on the deepest path through a shape.
-/

namespace JsonShape

/-- A key of an object. It is optional when some of the objects seen lacked it. -/
structure Field (σ : Type) where
  name : String
  shape : σ
  isOptional : Bool
  deriving DecidableEq, Repr

/-- The keys of objects, in order. They are withheld where a mapping contains itself: such an
object is collapsed and has no fields. -/
structure ObjectOf (σ : Type) where
  fields : List (Field σ)
  collapsed : Bool
  deriving DecidableEq, Repr

/-- The elements of arrays, all described by one shape. When no element was inspected, or when the
elements are withheld because a sequence contains itself, `element` only holds the place. -/
structure ArrayOf (σ : Type) where
  extent : Extent
  element : σ
  collapsed : Bool
  deriving DecidableEq, Repr

inductive Shape where
  | scalar (name : String)
  | array (a : ArrayOf Shape)
  | object (o : ObjectOf Shape)
  | choice (alternatives : List Shape)
  deriving Repr

namespace Field

variable {σ : Type}

/-- The first field of the given name. -/
def find? (fields : List (Field σ)) (name : String) : Option (Field σ) :=
  fields.find? fun f => f.name == name

def names (fields : List (Field σ)) : List String :=
  fields.map (·.name)

@[simp] theorem find?_nil (name : String) : find? ([] : List (Field σ)) name = none := rfl

theorem find?_cons (f : Field σ) (fields : List (Field σ)) (name : String) :
    find? (f :: fields) name = if f.name = name then some f else find? fields name := by
  by_cases h : f.name = name <;> simp [find?, h]

theorem mem_of_find? {fields : List (Field σ)} {name : String} {f : Field σ}
    (h : find? fields name = some f) : f ∈ fields :=
  List.mem_of_find?_eq_some h

theorem name_of_find? {fields : List (Field σ)} {name : String} {f : Field σ}
    (h : find? fields name = some f) : f.name = name := by
  simpa using List.find?_some h

theorem find?_eq_none_iff {fields : List (Field σ)} {name : String} :
    find? fields name = none ↔ name ∉ names fields := by
  simp [find?, names]

end Field

namespace ArrayOf

variable {σ : Type}

def isEmpty (a : ArrayOf σ) : Bool := a.extent.isEmpty

/-- Whether `element` describes an element. -/
def hasElement (a : ArrayOf σ) : Bool := !(a.isEmpty || a.collapsed)

end ArrayOf

namespace Shape

instance : Inhabited Shape := ⟨.choice []⟩

def null : Shape := .scalar "null"
def boolean : Shape := .scalar "boolean"
def number : Shape := .scalar "number"
def string : Shape := .scalar "string"

/-- The alternatives among which a shape is a choice: a shape that is none is its own. -/
def alternatives : Shape → List Shape
  | .choice vs => vs
  | s => [s]

/-- The choice among the given shapes; a single one needs no choice. -/
def ofAlternatives : List Shape → Shape
  | [s] => s
  | vs => .choice vs

mutual

def level : Shape → Nat
  | .scalar _ => 0
  | .array a => a.element.level + 1
  | .object o => levelOfFields o.fields + 1
  | .choice vs => levelOfAlternatives vs

def levelOfFields : List (Field Shape) → Nat
  | [] => 0
  | f :: fs => max f.shape.level (levelOfFields fs)

def levelOfAlternatives : List Shape → Nat
  | [] => 0
  | v :: vs => max v.level (levelOfAlternatives vs)

end

/-- A property of all shapes follows if it passes from the shapes inside a shape to the shape. -/
@[elab_as_elim]
theorem induction {P : Shape → Prop} (scalar : ∀ name, P (.scalar name))
    (array : ∀ a : ArrayOf Shape, P a.element → P (.array a))
    (object : ∀ o : ObjectOf Shape, (∀ f ∈ o.fields, P f.shape) → P (.object o))
    (choice : ∀ vs : List Shape, (∀ v ∈ vs, P v) → P (.choice vs)) (s : Shape) : P s :=
  @Shape.rec P (fun a => P a.element) (fun o => ∀ f ∈ o.fields, P f.shape)
    (fun vs => ∀ v ∈ vs, P v) (fun fs => ∀ f ∈ fs, P f.shape) (fun f => P f.shape)
    scalar array object choice (fun _ _ _ h => h) (fun _ _ h => h)
    (by simp) (fun _ _ hv hvs => List.forall_mem_cons.2 ⟨hv, hvs⟩)
    (by simp) (fun _ _ hf hfs => List.forall_mem_cons.2 ⟨hf, hfs⟩) (fun _ _ _ h => h) s

theorem levelOfFields_le {fs : List (Field Shape)} {n : Nat} :
    levelOfFields fs ≤ n ↔ ∀ f ∈ fs, f.shape.level ≤ n := by
  induction fs with
  | nil => simp [levelOfFields]
  | cons f fs ih => rw [levelOfFields, Nat.max_le, ih, List.forall_mem_cons]

theorem levelOfAlternatives_le {vs : List Shape} {n : Nat} :
    levelOfAlternatives vs ≤ n ↔ ∀ v ∈ vs, v.level ≤ n := by
  induction vs with
  | nil => simp [levelOfAlternatives]
  | cons v vs ih => rw [levelOfAlternatives, Nat.max_le, ih, List.forall_mem_cons]

theorem level_le_iff_alternatives {s : Shape} {n : Nat} :
    s.level ≤ n ↔ ∀ v ∈ s.alternatives, v.level ≤ n := by
  cases s <;> simp [alternatives, level, levelOfAlternatives_le]

theorem level_ofAlternatives_le {vs : List Shape} {n : Nat} :
    (ofAlternatives vs).level ≤ n ↔ ∀ v ∈ vs, v.level ≤ n := by
  unfold ofAlternatives
  split
  · simp
  · exact levelOfAlternatives_le

end Shape

end JsonShape
