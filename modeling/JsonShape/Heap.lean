import JsonShape.Scalar

/-!
# Values and the heap

Sequences and mappings are containers in a heap, and a value refers to a container by its place
there. A container may therefore be shared, and may contain itself.
-/

namespace JsonShape

abbrev NodeId := Nat

/-- A scalar, a value of a type that has no JSON equivalent, or a container in the heap. Of a value
without JSON equivalent only its type is known, and that can always be asked for. -/
inductive Value where
  | scalar (s : Scalar)
  | foreign (typeName : String)
  | node (id : NodeId)

/-- The entries of a mapping are in insertion order. Keys that are no scalars are given by the texts
that the host makes of them. -/
inductive Container where
  | sequence (typeName : String) (items : Array Value)
  | mapping (typeName : String) (entries : List (Scalar × Value))

def Container.typeName : Container → String
  | sequence t _ => t
  | mapping t _ => t

abbrev Heap := Array Container

namespace Heap

/-- Put a container into the heap; the value refers to it. -/
def alloc (h : Heap) (c : Container) : Value × Heap := (.node h.size, h.push c)

/-- A reference to nothing has a type of its own. -/
def typeName (h : Heap) : Value → String
  | .scalar s => s.typeName
  | .foreign t => t
  | .node id => match h[id]? with
    | some c => c.typeName
    | none => "dangling"

@[simp] theorem getElem?_alloc (h : Heap) (c : Container) : (h.alloc c).2[h.size]? = some c := by
  simp [alloc]

theorem getElem?_alloc_of_lt (h : Heap) (c : Container) {id : NodeId} (lt : id < h.size) :
    (h.alloc c).2[id]? = h[id]? := by
  simp [alloc, Array.getElem?_push, Nat.ne_of_lt lt]

end Heap

end JsonShape
