import JsonShape.Shape.Basic

/-!
# Rendering shapes

An object with at most three keys stands in braces on the line of its position, if each of them is
on one line too. Any other object takes a line for each key, indented by two spaces. At the depth
limit the elements of arrays are left out, and so are objects without keys: whether they have any
was not inspected.
-/

namespace JsonShape.Shape

mutual

/-- Whether the shape is written on one line. -/
def onOneLine : Shape → Bool
  | .scalar _ => true
  | .array a => a.isEmpty || onOneLine a.element
  | .object o => decide (o.fields.length ≤ 3) && fieldsOnOneLine o.fields
  | .choice vs => alternativesOnOneLine vs

def fieldsOnOneLine : List (Field Shape) → Bool
  | [] => true
  | f :: fs => onOneLine f.shape && fieldsOnOneLine fs

def alternativesOnOneLine : List Shape → Bool
  | [] => true
  | v :: vs => onOneLine v && alternativesOnOneLine vs

end

theorem fieldsOnOneLine_eq_true_iff {fs : List (Field Shape)} :
    fieldsOnOneLine fs = true ↔ ∀ f ∈ fs, f.shape.onOneLine = true := by
  induction fs with
  | nil => simp [fieldsOnOneLine]
  | cons f fs ih => simp [fieldsOnOneLine, ih]

theorem alternativesOnOneLine_eq_true_iff {vs : List Shape} :
    alternativesOnOneLine vs = true ↔ ∀ v ∈ vs, v.onOneLine = true := by
  induction vs with
  | nil => simp [alternativesOnOneLine]
  | cons v vs ih => simp [alternativesOnOneLine, ih]

def spaces (n : Nat) : String := String.ofList (List.replicate n ' ')

/-- Rendered fields, each on a line of its own. -/
def block (indent : Nat) (fields : List String) : String :=
  "\x7b\n" ++ ",\n".intercalate (fields.map (spaces (indent + 2) ++ ·)) ++ "\n" ++ spaces indent ++
    "\x7d"

mutual

/-- The text of a shape `depth` containers below the root, on a line indented by `indent`. -/
def renderAt (limit depth indent : Nat) : Shape → String
  | .scalar name => name
  | .array a =>
    if a.isEmpty then "Array(0)"
    else if a.collapsed ∨ limit ≤ depth then "Array(" ++ a.extent.text ++ ") of ..."
    else "Array(" ++ a.extent.text ++ ") of " ++ renderAt limit (depth + 1) indent a.element
  | .object o =>
    if o.fields.isEmpty then
      if o.collapsed ∨ limit ≤ depth then "\x7b...\x7d" else "\x7b\x7d"
    else if o.fields.length ≤ 3 ∧ fieldsOnOneLine o.fields then
      "\x7b" ++ ", ".intercalate (renderFields limit (depth + 1) indent o.fields) ++ "\x7d"
    else block indent (renderFields limit (depth + 1) (indent + 2) o.fields)
  | .choice vs => " | ".intercalate (renderAlternatives limit depth indent vs)

def renderFields (limit depth indent : Nat) : List (Field Shape) → List String
  | [] => []
  | f :: fs =>
    (f.name ++ (if f.isOptional then "?" else "") ++ ": " ++ renderAt limit depth indent f.shape) ::
      renderFields limit depth indent fs

def renderAlternatives (limit depth indent : Nat) : List Shape → List String
  | [] => []
  | v :: vs => renderAt limit depth indent v :: renderAlternatives limit depth indent vs

end

theorem renderFields_eq_map (limit depth indent : Nat) (fs : List (Field Shape)) :
    renderFields limit depth indent fs = fs.map fun f =>
      f.name ++ (if f.isOptional then "?" else "") ++ ": " ++
        renderAt limit depth indent f.shape := by
  induction fs with
  | nil => rfl
  | cons f fs ih => rw [renderFields, ih, List.map_cons]

theorem renderAlternatives_eq_map (limit depth indent : Nat) (vs : List Shape) :
    renderAlternatives limit depth indent vs = vs.map (renderAt limit depth indent) := by
  induction vs with
  | nil => rfl
  | cons v vs ih => rw [renderAlternatives, ih, List.map_cons]

/-- The text of a shape down to a depth limit. -/
def render (limit : Nat) (s : Shape) : String := renderAt limit 0 0 s

end JsonShape.Shape
