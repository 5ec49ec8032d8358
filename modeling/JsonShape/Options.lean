import JsonShape.Heap
import JsonShape.Record

/-!
# Options

How many elements of each array are inspected and how deep. Any two integers make options, since
values out of range are clamped; only values that are no integers are refused.
-/

namespace JsonShape

structure Options where
  sampleSize : Nat := 100
  maxDepth : Nat := 8
  sampleSize_pos : 0 < sampleSize := by decide
  deriving DecidableEq, Repr

/-- What may be given for an option. -/
inductive Setting where
  | integer (n : Int)
  | other (typeName : String)
  deriving DecidableEq, Repr

/-- A truth value is no integer here. -/
def Heap.setting (h : Heap) : Value → Setting
  | .scalar (.int n) => .integer n
  | v => .other (h.typeName v)

def Setting.toInt (option : String) : Setting → Except Error Int
  | integer n => .ok n
  | other typeName => .error (.notInteger option typeName)

namespace Options

/-- The options nearest to the given numbers. -/
def clamp (sampleSize maxDepth : Int) : Options :=
  { sampleSize := max 1 sampleSize.toNat, maxDepth := maxDepth.toNat, sampleSize_pos := by omega }

/-- Options with settings in place of fields. The sample size is checked first, and both are checked
before either is clamped. -/
def update (o : Options) (sampleSize maxDepth : Option Setting) : Logged Options := do
  let size ← (sampleSize.getD (.integer o.sampleSize)).toInt "sample_size"
  let depth ← (maxDepth.getD (.integer o.maxDepth)).toInt "max_depth"
  if size < 1 then emit (.sampleSizeRaised size)
  if depth < 0 then emit (.maxDepthRaised depth)
  pure (clamp size depth)

theorem clamp_fields (o : Options) : clamp o.sampleSize o.maxDepth = o := by
  have := o.sampleSize_pos
  cases o
  simp only [clamp, Int.toNat_natCast, mk.injEq, and_true]
  omega

/-- Options are never clamped twice. -/
theorem update_none (o : Options) : o.update none none = pure o := by
  have size : ¬ (o.sampleSize : Int) < 1 := by have := o.sampleSize_pos; omega
  have depth : ¬ (o.maxDepth : Int) < 0 := by omega
  simp [update, Setting.toInt, size, depth, clamp_fields]

/-- Integers are never refused. -/
theorem update_integers_run (o : Options) (sampleSize maxDepth : Option Int)
    (log : Array Record) : ∃ log', (o.update (sampleSize.map .integer)
      (maxDepth.map .integer)).run log =
        .ok (clamp (sampleSize.getD o.sampleSize) (maxDepth.getD o.maxDepth)) log' := by
  have size : (sampleSize.map Setting.integer).getD (.integer o.sampleSize) =
      .integer (sampleSize.getD o.sampleSize) := by
    cases sampleSize <;> rfl
  have depth : (maxDepth.map Setting.integer).getD (.integer o.maxDepth) =
      .integer (maxDepth.getD o.maxDepth) := by
    cases maxDepth <;> rfl
  simp only [update, size, depth, Setting.toInt, liftM_ok, pure_bind]
  split <;> split <;> exact ⟨_, rfl⟩

end Options

/-- What may be given in place of options. -/
inductive Base where
  | options (o : Options)
  | other (typeName : String)
  deriving DecidableEq, Repr

/-- Options to start from, and settings that take the place of theirs. -/
structure Request where
  base : Option Base := none
  sampleSize : Option Setting := none
  maxDepth : Option Setting := none
  deriving DecidableEq, Repr

/-- The effective options. -/
def Request.options (r : Request) : Logged Options := do
  let base ← match r.base with
    | none => pure {}
    | some (.options o) => pure o
    | some (.other typeName) => throw (.notOptions typeName)
  base.update r.sampleSize r.maxDepth

namespace Request

/-- A request in which every setting is an integer. -/
def ofIntegers (base : Option Options) (sampleSize maxDepth : Option Int) : Request :=
  { base := base.map .options, sampleSize := sampleSize.map .integer,
    maxDepth := maxDepth.map .integer }

theorem options_ofIntegers_run (base : Option Options) (sampleSize maxDepth : Option Int)
    (log : Array Record) : ∃ log', (ofIntegers base sampleSize maxDepth).options.run log =
      .ok (.clamp (sampleSize.getD (base.getD {}).sampleSize)
        (maxDepth.getD (base.getD {}).maxDepth)) log' := by
  cases base with
  | none => exact Options.update_integers_run {} sampleSize maxDepth log
  | some o => exact o.update_integers_run sampleSize maxDepth log

end Request

/-- The greatest depth for a host that allows `recursionLimit` nested calls: a level may take eight
calls, and two hundred are reserved. -/
def greatestDepth (recursionLimit : Int) : Nat := ((recursionLimit - 200) / 8).toNat

/-- A depth limit that the host allows. -/
def allowedDepth (recursionLimit maxDepth : Int) : Logged Int :=
  if (greatestDepth recursionLimit : Int) < maxDepth then do
    emit (.depthCapped maxDepth (greatestDepth recursionLimit))
    pure (greatestDepth recursionLimit)
  else pure maxDepth

theorem allowedDepth_int_run (limit depth : Int) (log : Array Record) : ∃ log',
    (allowedDepth limit depth).run log = .ok (min depth (greatestDepth limit)) log' := by
  unfold allowedDepth
  split
  · rename_i hlt
    refine ⟨log.push (.depthCapped depth (greatestDepth limit)), ?_⟩
    rw [Int.min_eq_right (by omega)]
    rfl
  · rename_i hle
    refine ⟨log, ?_⟩
    rw [Int.min_eq_left (by omega)]
    rfl

theorem allowedDepth_run (limit : Int) (depth : Nat) (log : Array Record) :
    ∃ log', (allowedDepth limit depth).run log =
      .ok ((min depth (greatestDepth limit) : Nat) : Int) log' := by
  have hmin : ((min depth (greatestDepth limit) : Nat) : Int) =
      min (depth : Int) (greatestDepth limit) := by omega
  rw [hmin]
  exact allowedDepth_int_run limit depth log

end JsonShape
