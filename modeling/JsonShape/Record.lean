import JsonShape.Error
import JsonShape.Scalar

/-!
# Records

What a survey reports beside its result: options it had to change, keys it skipped, and cycles it
stopped at. Records are kept when the survey fails.
-/

namespace JsonShape

inductive Topic where
  | options
  | inference
  deriving DecidableEq, Repr

inductive Record where
  /-- A sample size below 1 was raised to 1. -/
  | sampleSizeRaised (given : Int)
  /-- A negative depth was raised to 0. -/
  | maxDepthRaised (given : Int)
  | depthCapped (given : Int) (ceiling : Nat)
  /-- A key has the name of an earlier key. -/
  | keySkipped (key : Scalar) (name : String)
  /-- A container was met again, at `depth`, on a path that starts at itself. -/
  | cycleCollapsed (depth : Nat) (typeName : String)

namespace Record

def topic : Record → Topic
  | sampleSizeRaised _ | maxDepthRaised _ | depthCapped .. => .options
  | keySkipped .. | cycleCollapsed .. => .inference

/-- The wording of a record, on a host that can print the given characters beyond ASCII. -/
def message (printable : Char → Bool) : Record → String
  | sampleSizeRaised given => "sample_size " ++ toString given ++ " is below 1, clamping"
  | maxDepthRaised given => "max_depth " ++ toString given ++ " is below 0, clamping"
  | depthCapped given ceiling =>
    "max_depth " ++ toString given ++ " exceeds the recursion limit, capping at " ++
      toString ceiling
  | keySkipped key name =>
    "key " ++ key.literal printable ++ " renders as existing key " ++
      Quoted.text printable name ++ ", skipping"
  | cycleCollapsed depth typeName =>
    "reference cycle at depth " ++ toString depth ++ " through " ++ typeName ++ ", collapsing"

end Record

/-- A computation that adds records and may fail. -/
abbrev Logged := EStateM Error (Array Record)

def emit (r : Record) : Logged Unit := modify (·.push r)

instance : MonadLift (Except Error) Logged where
  monadLift
    | .ok a => pure a
    | .error e => throw e

@[simp] theorem liftM_ok {α : Type} (a : α) :
    (liftM (Except.ok a : Except Error α) : Logged α) = pure a := rfl

@[simp] theorem liftM_error {α : Type} (e : Error) :
    (liftM (Except.error e : Except Error α) : Logged α) = throw e := rfl

end JsonShape
