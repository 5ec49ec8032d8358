import JsonShape.Error

/-!
# Extents

How many elements an array has: one length, or the least and the greatest length of several arrays.
Where a full range is known it is what counts, and a single length beside it is only kept.
-/

namespace JsonShape

structure Extent where
  length : Option Int
  least : Option Int
  greatest : Option Int
  known : length.isSome ∨ least.isSome ∧ greatest.isSome := by simp
  deriving DecidableEq, Repr

namespace Extent

def exact (n : Int) : Extent := { length := some n, least := none, greatest := none }

def range (least greatest : Int) : Extent :=
  { length := none, least := some least, greatest := some greatest }

/-- The extent with the given fields, unless they leave it open. -/
def ofFields (length least greatest : Option Int) : Except Error Extent :=
  if known : length.isSome ∨ least.isSome ∧ greatest.isSome then
    .ok { length, least, greatest, known }
  else .error .lengthMissing

/-- The least and the greatest length. The default is never taken, by `known`. -/
def bounds (e : Extent) : Int × Int :=
  match e.least, e.greatest with
  | some least, some greatest => (least, greatest)
  | _, _ => (e.length.getD 0, e.length.getD 0)

/-- No array of this extent has an element. -/
def isEmpty (e : Extent) : Bool :=
  e.bounds.2 == 0

/-- The smallest range that covers both extents. -/
def hull (a b : Extent) : Extent :=
  range (min a.bounds.1 b.bounds.1) (max a.bounds.2 b.bounds.2)

def text (e : Extent) : String :=
  if e.bounds.1 = e.bounds.2 then toString e.bounds.1
  else toString e.bounds.1 ++ "-" ++ toString e.bounds.2

@[simp] theorem bounds_exact (n : Int) : (exact n).bounds = (n, n) := rfl

@[simp] theorem bounds_range (least greatest : Int) :
    (range least greatest).bounds = (least, greatest) := rfl

@[simp] theorem bounds_hull (a b : Extent) :
    (a.hull b).bounds = (min a.bounds.1 b.bounds.1, max a.bounds.2 b.bounds.2) := rfl

theorem ofFields_fields (e : Extent) : ofFields e.length e.least e.greatest = .ok e := by
  simp [ofFields, e.known]

theorem ofFields_eq_error_iff {length least greatest : Option Int} {err : Error} :
    ofFields length least greatest = .error err ↔
      err = .lengthMissing ∧ length = none ∧ (least = none ∨ greatest = none) := by
  unfold ofFields
  split
  · rename_i h
    simp only [reduceCtorEq, false_iff, not_and, not_or]
    rintro - rfl
    simpa [Option.isSome_iff_ne_none] using h
  · rename_i h
    simp only [not_or, not_and, Option.not_isSome_iff_eq_none] at h
    cases least <;> cases greatest <;> simp_all [eq_comm]

end Extent

end JsonShape
