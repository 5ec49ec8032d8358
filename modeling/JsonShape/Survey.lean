import JsonShape.Options
import JsonShape.Sample
import JsonShape.Shape.Merge
import JsonShape.Shape.Render

/-!
# Surveys

A survey walks through a value and builds its shape. Sampled elements of a sequence are merged into
one shape, of several keys with one name the first counts, and containers below the depth limit are
not inspected. The walk keeps the containers that it is in: one that is met again while the walk is
in it is collapsed.
-/

namespace JsonShape

/-- What the values refer to, how many nested calls the host allows, the shape that holds the place
of elements that are not inspected, and how many digits of an integer the host writes out, if it has
a limit for that. -/
structure Survey where
  heap : Heap
  recursionLimit : Int := 1000
  uninspected : Shape := .null
  digitLimit : Option Nat := none

/-- A part of a survey. The state holds the containers that the walk is in. -/
abbrev Walk := StateT (List NodeId) Logged

def Walk.isIn (id : NodeId) : Walk Bool := do return id ∈ (← get)

/-- A part of the walk in one more container, which the walk then leaves. -/
def Walk.within {α : Type} (id : NodeId) (w : Walk α) : Walk α := do
  modify (id :: ·)
  let a ← w
  modify (·.erase id)
  pure a

theorem Walk.isIn_run (id : NodeId) (entered : List NodeId) :
    (Walk.isIn id).run entered = pure (decide (id ∈ entered), entered) := rfl

theorem Walk.within_run {α : Type} (id : NodeId) (w : Walk α) (entered : List NodeId) :
    (within id w).run entered = (do
      let r ← w.run (id :: entered)
      pure (r.1, r.2.erase id)) := rfl

theorem Walk.liftM_ok {α : Type} (a : α) :
    (liftM (Except.ok a : Except Error α) : Walk α) = pure a := rfl

def Scalar.shape : Scalar → Shape
  | null => .null
  | bool _ => .boolean
  | int _ | float _ | decimal _ => .number
  | text _ => .string

/-- The shape of a sequence of the given length. -/
def Shape.ofSequence (length : Nat) (element : Shape) (collapsed : Bool) : Except Error Shape := do
  pure (.array ⟨← Extent.ofFields (some length) none none, element, collapsed⟩)

/-- The element at an index that has to be in range. -/
def elementAt (items : Array Value) (i : Nat) : Except Error Value :=
  match items[i]? with
  | some v => .ok v
  | none => .error (.elementMissing i)

/-- Add the field for one entry of a mapping, unless a field has its name already. The key has to
have a name. -/
def addEntry (digitLimit : Option Nat) (visit : Value → Walk Shape) (fields : Array (Field Shape))
    (entry : Scalar × Value) : Walk (Array (Field Shape)) := do
  let name ← entry.1.labelWithin digitLimit
  if fields.any (·.name == name) then
    emit (.keySkipped entry.1 name)
    pure fields
  else
    let shape ← visit entry.2
    pure (fields.push ⟨name, shape, false⟩)

/-- The text of a shape down to a depth that the host allows. -/
def Shape.renderWithin (recursionLimit maxDepth : Int) (s : Shape) : Logged String := do
  let limit ← allowedDepth recursionLimit maxDepth
  pure (s.render limit.toNat)

namespace Survey

/-- The shape of a container whose parts are inspected by `visit`, if they are. -/
def inspect (S : Survey) (size : Nat) (visit : Option (Value → Walk Shape)) :
    Container → Walk Shape
  | .sequence _ items => do
    let element ← match visit with
      | none => pure S.uninspected
      | some visit =>
        if items.isEmpty then pure S.uninspected
        else
          let shapes ← (evenlySpaced items.size size).mapM fun i => do visit (← elementAt items i)
          Shape.mergeAll shapes
    Shape.ofSequence items.size element false
  | .mapping _ entries => do
    let fields ← match visit with
      | none => pure #[]
      | some visit => entries.foldlM (addEntry S.digitLimit visit) #[]
    pure (.object ⟨fields.toList, false⟩)

/-- The shape of a container that is met inside itself. -/
def collapse (S : Survey) : Container → Walk Shape
  | .sequence _ items => Shape.ofSequence items.size S.uninspected true
  | .mapping .. => pure (.object ⟨[], true⟩)

/-- The shape of a value. -/
def visit (S : Survey) (size : Nat) (inner : Option (Value → Walk Shape)) (depth : Nat) :
    Value → Walk Shape
  | .scalar s => pure s.shape
  | .foreign _ => pure .string
  | .node id =>
    match S.heap[id]? with
    | none => pure .string
    | some c => do
      if ← Walk.isIn id then
        emit (.cycleCollapsed depth c.typeName)
        S.collapse c
      else Walk.within id (S.inspect size inner c)

/-- The shape of a value at a depth, with the number of levels to inspect below it. -/
def shapeAt (S : Survey) (size : Nat) : Nat → Nat → Value → Walk Shape
  | 0, depth => S.visit size none depth
  | levels + 1, depth => S.visit size (some (S.shapeAt size levels (depth + 1))) depth

def shape (S : Survey) (o : Options) (v : Value) : Logged Shape := do
  let limit ← allowedDepth S.recursionLimit o.maxDepth
  (S.shapeAt o.sampleSize limit.toNat 0 v).run' []

/-- The shape of a value under the requested options. -/
def infer (S : Survey) (r : Request) (v : Value) : Logged Shape := do
  S.shape (← r.options) v

/-- The text of the shape of a value under the requested options. -/
def thumbnail (S : Survey) (r : Request) (v : Value) : Logged String := do
  let o ← r.options
  let s ← S.shape o v
  s.renderWithin S.recursionLimit o.maxDepth

end Survey

end JsonShape
