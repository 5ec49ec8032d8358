/-!
# Errors

The causes for which a survey stops, with their wording.
-/

namespace JsonShape

inductive Error where
  /-- An option was given a value of type `typeName`, which is not an integer. -/
  | notInteger (option typeName : String)
  /-- A value of type `typeName` was given in place of options. -/
  | notOptions (typeName : String)
  /-- An array was described without a length and without a full range. -/
  | lengthMissing
  /-- A sequence has no element at `index`. -/
  | elementMissing (index : Nat)
  /-- There is no shape to merge. -/
  | nothingToMerge
  /-- The host writes integers of at most `limit` digits, and a key has more. -/
  | digitsExceeded (limit : Nat)
  deriving DecidableEq, Repr

def Error.message : Error → String
  | notInteger option typeName => option ++ " must be an integer, got " ++ typeName
  | notOptions typeName => "options must be a ThumbOptions instance, got " ++ typeName
  | lengthMissing => "ArrayShape needs a length or both min_length and max_length"
  | elementMissing index => "no element at " ++ Nat.repr index
  | nothingToMerge => "nothing to merge"
  | digitsExceeded limit =>
    "Exceeds the limit (" ++ Nat.repr limit ++ " digits) for integer string conversion; " ++
      "use sys.set_int_max_str_digits() to increase the limit"

end JsonShape
