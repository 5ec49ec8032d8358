import JsonShape.Decimal
import JsonShape.Error
import JsonShape.Quoted

/-!
# Scalar values

The values without parts. A scalar may be the key of a mapping: `label` is the name under which it
appears there, so different scalars can have one name, as the number 1 and the text "1" have. A host
may refuse to write out integers with many digits, and then these have no name (`labelWithin`).

Keys of other types are not told apart from their names: such a key is the text that the host makes
of it.
-/

namespace JsonShape

inductive Scalar where
  | null
  | bool (b : Bool)
  | int (n : Int)
  | float (x : Float)
  | decimal (digits : String)
  | text (s : String)

namespace Scalar

def typeName : Scalar → String
  | null => "NoneType"
  | bool _ => "bool"
  | int _ => "int"
  | float _ => "float"
  | decimal _ => "Decimal"
  | text _ => "str"

/-- The name of the scalar as a key, if the host writes it out. -/
def label : Scalar → String
  | null => "None"
  | bool b => if b then "True" else "False"
  | int n => toString n
  | float x => floatText x
  | decimal digits => digits
  | text s => s

/-- The least number with more decimal digits than so many. -/
def leastBeyond (digits : Nat) : Nat := Nat.pow 10 digits

/-- The integer has more decimal digits than so many. A sign is no digit. -/
def HasMoreDigits (digits : Nat) (n : Int) : Prop := leastBeyond digits ≤ n.natAbs

instance (digits : Nat) (n : Int) : Decidable (HasMoreDigits digits n) :=
  inferInstanceAs (Decidable (leastBeyond digits ≤ n.natAbs))

theorem hasMoreDigits_leastBeyond (digits : Nat) : HasMoreDigits digits (leastBeyond digits) :=
  Nat.le_of_eq (Int.natAbs_natCast (leastBeyond digits)).symm

/-- The name of the scalar as a key on a host that writes integers of so many digits at most, if
there is a limit. -/
def labelWithin (digitLimit : Option Nat) (s : Scalar) : Except Error String :=
  match digitLimit, s with
  | some limit, int n =>
    if HasMoreDigits limit n then .error (.digitsExceeded limit) else .ok (int n).label
  | _, s => .ok s.label

@[simp] theorem labelWithin_none (s : Scalar) : s.labelWithin none = .ok s.label := rfl

/-- Only integers are refused, and only for their digits. -/
theorem labelWithin_eq_error_iff {digitLimit : Option Nat} {s : Scalar} {e : Error} :
    s.labelWithin digitLimit = .error e ↔ ∃ limit n, digitLimit = some limit ∧ s = int n ∧
      HasMoreDigits limit n ∧ e = .digitsExceeded limit := by
  unfold labelWithin
  split
  · rename_i limit n
    split
    · rename_i hmore
      simp [hmore, eq_comm]
    · rename_i hmore
      simp [hmore]
  · rename_i hnot
    simp only [reduceCtorEq, false_iff]
    rintro ⟨limit, n, rfl, rfl, -⟩
    exact hnot limit n rfl rfl

theorem labelWithin_eq_label {digitLimit : Option Nat} {s : Scalar} {name : String}
    (h : s.labelWithin digitLimit = .ok name) : name = s.label := by
  unfold labelWithin at h
  split at h
  · split at h <;> cases h
    rfl
  · cases h
    rfl

/-- The scalar as it is written in a record: unlike names, literals tell texts, decimals and other
scalars apart. -/
def literal (printable : Char → Bool) : Scalar → String
  | decimal digits => "Decimal(" ++ Quoted.text printable digits ++ ")"
  | text s => Quoted.text printable s
  | s => s.label

end Scalar

end JsonShape
