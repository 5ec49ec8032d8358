import JsonShape.Proofs.Checked
import JsonShape.Proofs.Report

/-!
# When surveys fail

`Request.fault?` is what a request is refused for, if it is: what is given as options comes first,
then the sample size, then the depth.

* `options_run_of_fault?`, `fault?_eq_none_iff`: a request with a fault is refused, and the others
  are those whose settings are integers;
* `mergeAllChecked_eq_mergeAll`: to check the extent of each array that merging makes changes
  nothing;
* `surveys_fail_exactly`: so inference and thumbnails fail for the fault of the request, whatever
  the value, and else only for a key that the host does not write out. A value with such a key, as
  in `thumbnail_refuses_long_key`, does make them fail.
-/

namespace JsonShape

open Shape

/-! ## Refused requests -/

def Setting.fault? (option : String) : Setting → Option Error
  | integer _ => none
  | other typeName => some (.notInteger option typeName)

def Base.fault? : Base → Option Error
  | options _ => none
  | other typeName => some (.notOptions typeName)

/-- The first fault of the settings that take the place of options. -/
def overrideFault? (sampleSize maxDepth : Option Setting) : Option Error :=
  (sampleSize.bind (Setting.fault? "sample_size")).or
    (maxDepth.bind (Setting.fault? "max_depth"))

/-- The first fault of a request. -/
def Request.fault? (r : Request) : Option Error :=
  (r.base.bind Base.fault?).or (overrideFault? r.sampleSize r.maxDepth)

/-- Only an integer is taken for one. -/
theorem Heap.setting_eq_integer_iff {h : Heap} {v : Value} :
    (∃ n, h.setting v = .integer n) ↔ ∃ n, v = .scalar (.int n) := by
  constructor
  · rintro ⟨n, hn⟩
    unfold setting at hn
    split at hn
    · exact ⟨_, rfl⟩
    · cases hn
  · rintro ⟨n, rfl⟩
    exact ⟨n, rfl⟩

theorem Setting.fault?_eq_none_iff {option : String} {s : Option Setting} :
    s.bind (Setting.fault? option) = none ↔ ∃ n : Option Int, s = n.map .integer := by
  constructor
  · intro h
    rcases s with _ | n | t
    · exact ⟨none, rfl⟩
    · exact ⟨some n, rfl⟩
    · cases h
  · rintro ⟨n, rfl⟩
    cases n <;> rfl

theorem Base.fault?_eq_none_iff {b : Option Base} :
    b.bind Base.fault? = none ↔ ∃ o : Option Options, b = o.map .options := by
  constructor
  · intro h
    rcases b with _ | o | t
    · exact ⟨none, rfl⟩
    · exact ⟨some o, rfl⟩
    · cases h
  · rintro ⟨o, rfl⟩
    cases o <;> rfl

/-- The sample size is checked first, and no record is made before both are checked. -/
theorem Options.update_run_of_fault? {o : Options} {sampleSize maxDepth : Option Setting}
    {e : Error} (h : overrideFault? sampleSize maxDepth = some e) (log : Array Record) :
    (o.update sampleSize maxDepth).run log = .error e log := by
  rcases sampleSize with _ | n | t
  · rcases maxDepth with _ | d | u <;> cases h
    rfl
  · rcases maxDepth with _ | d | u <;> cases h
    rfl
  · cases h
    rfl

namespace Request

variable {r : Request}

theorem fault?_eq_none_iff :
    r.fault? = none ↔ ∃ base sampleSize maxDepth, r = ofIntegers base sampleSize maxDepth := by
  obtain ⟨base, sampleSize, maxDepth⟩ := r
  rw [fault?, overrideFault?, Option.or_eq_none_iff, Option.or_eq_none_iff,
    Base.fault?_eq_none_iff, Setting.fault?_eq_none_iff, Setting.fault?_eq_none_iff]
  constructor
  · rintro ⟨⟨o, rfl⟩, ⟨n, rfl⟩, ⟨d, rfl⟩⟩
    exact ⟨o, n, d, rfl⟩
  · rintro ⟨o, n, d, hr⟩
    cases hr
    exact ⟨⟨o, rfl⟩, ⟨n, rfl⟩, ⟨d, rfl⟩⟩

/-- A refused request leaves the records as they were. -/
theorem options_run_of_fault? {e : Error} (h : r.fault? = some e) (log : Array Record) :
    r.options.run log = .error e log := by
  obtain ⟨base, sampleSize, maxDepth⟩ := r
  rcases base with _ | o | t
  · exact Options.update_run_of_fault? h log
  · exact Options.update_run_of_fault? h log
  · cases h
    rfl

/-- Effective options are their own effective options, and nothing is recorded. -/
theorem options_of_options (o : Options) :
    ({ base := some (.options o) } : Request).options = pure o :=
  o.update_none

end Request

/-! ## Checked merging -/

/-- The merge of several shapes, from the left, with the extents of merged arrays checked. -/
def Shape.mergeAllChecked : List Shape → Except Error Shape
  | [] => .error .nothingToMerge
  | s :: ss => ss.foldlM mergeChecked s

theorem Shape.mergeAllChecked_eq_mergeAll (ss : List Shape) : mergeAllChecked ss = mergeAll ss := by
  cases ss with
  | nil => rfl
  | cons s ss =>
    rw [mergeAllChecked, mergeChecked_eq_ok]
    exact List.foldlM_pure

/-! ## Surveys -/

/-- Only a scalar without a name and a choice among nothing have no text. -/
theorem Shape.renderAt_ne_empty {limit depth indent : Nat} {s : Shape} (hs : s.kind ≠ .choice)
    (hname : s ≠ .scalar "") : renderAt limit depth indent s ≠ "" := by
  have hbegin : ∀ (c : Char) (t : String) (text : String), c ∈ t.toList → t ++ text ≠ "" := by
    intro c t text hc htext
    have hempty := congrArg String.toList htext
    rw [String.toList_append] at hempty
    rw [(List.append_eq_nil_iff.mp hempty).1] at hc
    cases hc
  cases s with
  | scalar name =>
    rw [renderAt]
    exact fun h => hname (congrArg Shape.scalar h)
  | array a =>
    rw [renderAt]
    split
    · decide
    · split
      · simp only [String.append_assoc]
        exact hbegin 'A' _ _ (by decide)
      · simp only [String.append_assoc]
        exact hbegin 'A' _ _ (by decide)
  | object o =>
    rw [renderAt]
    split
    · split <;> decide
    · split
      · rw [String.append_assoc]
        exact hbegin '\x7b' _ _ (by decide)
      · simp only [block, String.append_assoc]
        exact hbegin '\x7b' _ _ (by decide)
  | choice vs => exact absurd rfl hs

namespace Survey

/-- Whatever was recorded before, inference gives the shape and thumbnails give the text. -/
def Answers (S : Survey) (r : Request) (v : Value) (s : Shape) (text : String) : Prop :=
  ∀ log, (∃ log', (S.infer r v).run log = .ok s log') ∧
    ∃ log', (S.thumbnail r v).run log = .ok text log'

variable {S : Survey} {r : Request} {e : Error}

theorem infer_run_of_fault? (h : r.fault? = some e) (v : Value) (log : Array Record) :
    (S.infer r v).run log = .error e log := by
  rw [infer, EStateM.run_bind, Request.options_run_of_fault? h]

theorem thumbnail_run_of_fault? (h : r.fault? = some e) (v : Value) (log : Array Record) :
    (S.thumbnail r v).run log = .error e log := by
  rw [thumbnail, EStateM.run_bind, Request.options_run_of_fault? h]

/-- A thumbnail renders what is inferred under the effective options of the request. -/
theorem thumbnail_eq (S : Survey) (r : Request) (v : Value) : S.thumbnail r v = (do
    let o ← r.options
    let s ← S.infer { base := some (.options o) } v
    s.renderWithin S.recursionLimit o.maxDepth) := by
  simp only [thumbnail, infer, Request.options_of_options, pure_bind]

theorem report_shape_ne_nameless (size levels depth : Nat) (ancestors : List NodeId) (v : Value) :
    (S.report size levels depth ancestors v).shape ≠ .scalar "" := by
  have step : ∀ inner : Option (List NodeId → Value → Report),
      (S.reportWith size inner depth ancestors v).shape ≠ .scalar "" := by
    intro inner
    refine shape_reportWith_cases (Q := (· ≠ .scalar "")) (fun name hname h => ?_)
      (fun _ c _ _ _ => ?_) (fun _ c _ _ _ => ?_)
    · cases h
      exact absurd (Heap.mem_scalarTypes_of_view hname) (by decide)
    · cases c <;> exact nofun
    · cases c <;> cases inner <;> exact nofun
  cases levels with
  | zero => exact step none
  | succ levels => exact step _

/-- The answers of a request are a matter of its effective options. -/
theorem answers_of_options {o : Options} (hr : ∀ log, ∃ log', r.options.run log = .ok o log')
    {v : Value} {levels : Nat} (hlevels : S.deepest o = levels)
    (hnamed : S.NamesKeys o.sampleSize levels [] v) :
    S.Answers r v (S.report o.sampleSize levels 0 [] v).shape
      ((S.report o.sampleSize levels 0 [] v).shape.render levels) := by
  subst hlevels
  intro log
  obtain ⟨log', ho⟩ := hr log
  obtain ⟨log₁, hs⟩ := infer_run ho hnamed
  exact ⟨⟨log₁, hs⟩, thumbnail_run ho hs⟩

/-- Requests with the same effective options have the same answers, which a limit on digits does not
change. -/
theorem exists_answers {o : Options} {v : Value}
    (hnamed : S.NamesKeys o.sampleSize (S.deepest o) [] v) : ∃ s text, text ≠ "" ∧
      ∀ r : Request, (∀ log, ∃ log', r.options.run log = .ok o log') →
        S.Answers r v s text ∧ { S with digitLimit := none }.Answers r v s text := by
  let s := (S.report o.sampleSize (S.deepest o) 0 [] v).shape
  have htext : s.render (S.deepest o) ≠ "" :=
    Shape.renderAt_ne_empty (kind_report_ne_choice _ 0 [] v)
      (report_shape_ne_nameless o.sampleSize _ 0 [] v)
  refine ⟨s, s.render (S.deepest o), htext, fun r hr => ⟨answers_of_options hr rfl hnamed, ?_⟩⟩
  let unlimited : Survey := { S with digitLimit := none }
  have hreport : S.report o.sampleSize (S.deepest o) 0 [] v =
      unlimited.report o.sampleSize (S.deepest o) 0 [] v :=
    S.report_eq_of_heap unlimited rfl rfl _ _ _ _ _
  simp only [s, hreport]
  exact answers_of_options hr rfl (namesKeys_of_unlimited rfl)

/-- Whatever was recorded before, inference and thumbnails fail with the error, and after the same
records. -/
def Refuses (S : Survey) (r : Request) (v : Value) (e : Error) : Prop :=
  ∀ log, ∃ log', (S.infer r v).run log = .error e log' ∧
    (S.thumbnail r v).run log = .error e log'

theorem refuses_of_not_named {o : Options} (hr : ∀ log, ∃ log', r.options.run log = .ok o log')
    {v : Value} (hnot : ¬ S.NamesKeys o.sampleSize (S.deepest o) [] v) :
    S.Refuses r v S.refusal := by
  intro log
  obtain ⟨log', ho⟩ := hr log
  obtain ⟨log₁, hlimit⟩ := allowedDepth_run S.recursionLimit o.maxDepth log'
  obtain ⟨log₂, hshape⟩ := shape_run_of_not_named hlimit (v := v) hnot
  refine ⟨log₂, ?_, ?_⟩
  · rw [infer, EStateM.run_bind, ho]
    exact hshape
  · rw [thumbnail, EStateM.run_bind, ho]
    simp only [EStateM.run_bind, hshape]

theorem refuses_of_reads {o : Options} (hr : ∀ log, ∃ log', r.options.run log = .ok o log')
    {v : Value} {limit : Nat} (hlimit : S.digitLimit = some limit) {n : Int}
    (hn : Scalar.HasMoreDigits limit n)
    (hread : S.heap.Reads o.sampleSize (.int n) (S.deepest o) [] v) :
    S.Refuses r v (.digitsExceeded limit) := by
  have hnot := not_namesKeys_iff.mpr ⟨limit, n, hlimit, hn, hread⟩
  have hrefusal : S.refusal = .digitsExceeded limit := by
    rw [refusal, hlimit]
    rfl
  exact hrefusal ▸ refuses_of_not_named hr hnot

end Survey

/-- **Surveys fail for their options, for long integers as keys, and for nothing else.**  A request
with a fault is refused for it, whatever the value, and nothing is recorded. Any other request has
integers for settings, and what inference and thumbnails do is what they do under the options
nearest to these integers. They fail where the host writes integers of so many digits at most and
the survey reads a key with more. Everywhere else they succeed, as on a host without the limit.
Effective options stay as they are. No element that is looked up is missing, there is always a
shape to merge, and no merged array is refused for its extent. -/
theorem surveys_fail_exactly (h : Heap) (limit : Int) (digitLimit : Option Nat) :
    let S : Survey := { heap := h, recursionLimit := limit, digitLimit := digitLimit }
    let unlimited : Survey := { heap := h, recursionLimit := limit }
    (∀ v, (∃ n, h.setting v = .integer n) ↔ ∃ n, v = .scalar (.int n)) ∧
    (∀ (r : Request) (v : Value),
      match r.fault? with
      | some e => ∀ log, (S.infer r v).run log = .error e log ∧
          (S.thumbnail r v).run log = .error e log
      | none => ∃ base sampleSize maxDepth, r = .ofIntegers base sampleSize maxDepth ∧
          ∃ o : Options,
            (o.sampleSize : Int) =
              max 1 (sampleSize.getD ((base.map fun b => (b.sampleSize : Int)).getD 100)) ∧
            (o.maxDepth : Int) =
              max 0 (maxDepth.getD ((base.map fun b => (b.maxDepth : Int)).getD 8)) ∧
            (∀ digits n, digitLimit = some digits → Scalar.HasMoreDigits digits n →
              h.Reads o.sampleSize (.int n) (S.deepest o) [] v →
              S.Refuses r v (.digitsExceeded digits) ∧
                S.Refuses { base := some (.options o) } v (.digitsExceeded digits)) ∧
            ((∀ digits n, digitLimit = some digits → Scalar.HasMoreDigits digits n →
                ¬ h.Reads o.sampleSize (.int n) (S.deepest o) [] v) →
              ∃ s text, text ≠ "" ∧ S.Answers r v s text ∧
                S.Answers { base := some (.options o) } v s text ∧
                unlimited.Answers r v s text)) ∧
    (∀ r v, S.thumbnail r v = (do
      let o ← r.options
      let s ← S.infer { base := some (.options o) } v
      s.renderWithin limit o.maxDepth)) ∧
    (∀ o : Options, ({ base := some (.options o) } : Request).options = pure o) ∧
    ∀ ss, mergeAllChecked ss = mergeAll ss := by
  intro S unlimited
  refine ⟨fun v => Heap.setting_eq_integer_iff, fun r v => ?_, S.thumbnail_eq,
    Request.options_of_options, mergeAllChecked_eq_mergeAll⟩
  split
  · rename_i e he
    exact fun log => ⟨Survey.infer_run_of_fault? he v log, Survey.thumbnail_run_of_fault? he v log⟩
  · rename_i hr
    obtain ⟨base, sampleSize, maxDepth, rfl⟩ := Request.fault?_eq_none_iff.mp hr
    let o : Options := .clamp (sampleSize.getD (base.getD {}).sampleSize)
      (maxDepth.getD (base.getD {}).maxDepth)
    have ho := Request.options_ofIntegers_run base sampleSize maxDepth
    have ho' : ∀ log, ∃ log', ({ base := some (.options o) } : Request).options.run log =
        .ok o log' := fun log => ⟨log, by rw [Request.options_of_options]; rfl⟩
    refine ⟨base, sampleSize, maxDepth, rfl, o, ?_, ?_, fun digits n hlimit hn hread => ?_,
      fun hall => ?_⟩
    · cases base <;> simp [o, Options.clamp] <;> omega
    · cases base <;> simp [o, Options.clamp] <;> omega
    · exact ⟨Survey.refuses_of_reads ho hlimit hn hread,
        Survey.refuses_of_reads ho' hlimit hn hread⟩
    · have hnamed : S.NamesKeys o.sampleSize (S.deepest o) [] v := by
        by_contra hnot
        obtain ⟨digits, n, hlimit, hn, hread⟩ := Survey.not_namesKeys_iff.mp hnot
        exact hall digits n hlimit hn hread
      obtain ⟨s, text, htext, hanswers⟩ := Survey.exists_answers hnamed
      exact ⟨s, text, htext, (hanswers _ ho).1, (hanswers _ ho').1, (hanswers _ ho).2⟩

/-- The mapping with the long key is an element of the list, and the survey reads its keys at depth
2 but not at depth 1. -/
theorem surveys_fail_exactly_element :
    let h : Heap := #[.mapping "dict" [(.int (Scalar.leastBeyond 4300), .scalar .null)],
      .sequence "list" #[.node 0]]
    let S : Survey := { heap := h, digitLimit := some 4300 }
    h.Reads 100 (.int (Scalar.leastBeyond 4300)) 2 [] (.node 1) ∧
      S.Refuses (.ofIntegers none none (some 2)) (.node 1) (.digitsExceeded 4300) ∧
      (∀ n, ¬ h.Reads 100 (.int n) 1 [] (.node 1)) ∧
      S.Answers (.ofIntegers none none (some 1)) (.node 1)
        (.array ⟨.exact 1, .object ⟨[], false⟩, false⟩) "Array(1) of \x7b...\x7d" := by
  intro h S
  have hlist : (0 : NodeId) ∉ [1] := by decide
  have hread : h.Reads 100 (.int (Scalar.leastBeyond 4300)) 2 [] (.node 1) :=
    .inside rfl List.not_mem_nil (List.mem_singleton_self _)
      (.here rfl hlist (List.mem_singleton_self _))
  have hnone : ∀ n, ¬ h.Reads 100 (.int n) 1 [] (.node 1) := by
    intro n hread
    cases hread with
    | here hc _ hkey =>
      cases hc
      cases hkey
    | inside _ _ _ hread => cases hread
  -- the effective options are the default sample size and the given depth
  have hsurvey : ∀ d : Nat, d ≤ greatestDepth 1000 →
      (h.Reads 100 (.int (Scalar.leastBeyond 4300)) d [] (.node 1) →
        S.Refuses (.ofIntegers none none (some d)) (.node 1) (.digitsExceeded 4300)) ∧
      ((∀ n, ¬ h.Reads 100 (.int n) d [] (.node 1)) →
        ∃ s text, S.Answers (.ofIntegers none none (some d)) (.node 1) s text) := by
    intro d hd
    obtain ⟨base, sampleSize, maxDepth, hr, o, hsize, hdepth, hrefuses, hanswers⟩ :=
      (surveys_fail_exactly h 1000 (some 4300)).2.1 (.ofIntegers none none (some d)) (.node 1)
    obtain ⟨rfl, rfl, rfl⟩ : base = none ∧ sampleSize = none ∧ maxDepth = some (d : Int) := by
      cases base <;> cases sampleSize <;> cases maxDepth <;> cases hr
      exact ⟨rfl, rfl, rfl⟩
    simp only [Option.map_none, Option.getD_none, Option.getD_some] at hsize hdepth
    have hsize' : o.sampleSize = 100 := by omega
    have hdeepest : S.deepest o = d := by
      show min o.maxDepth (greatestDepth 1000) = d
      omega
    rw [hsize', hdeepest] at hrefuses hanswers
    have hmore := Scalar.hasMoreDigits_leastBeyond 4300
    refine ⟨fun hread => (hrefuses 4300 _ rfl hmore hread).1, fun hnone => ?_⟩
    obtain ⟨s, text, -, hS, -⟩ := hanswers fun _ n _ _ => hnone n
    exact ⟨s, text, hS⟩
  refine ⟨hread, (hsurvey 2 (by decide)).1 hread, hnone, ?_⟩
  obtain ⟨s, text, hS⟩ := (hsurvey 1 (by decide)).2 hnone
  have hs : (S.infer (.ofIntegers none none (some 1)) (.node 1)).run #[] =
      .ok (.array ⟨.exact 1, .object ⟨[], false⟩, false⟩) #[] := rfl
  obtain ⟨log, htext⟩ := Survey.thumbnail_run rfl hs
  obtain ⟨⟨log₁, hs'⟩, log₂, htext'⟩ := hS #[]
  cases hs.symm.trans hs'
  cases htext.symm.trans htext'
  exact hS

/-- The key has one digit more than the host writes out. No option is at fault. -/
theorem thumbnail_refuses_long_key :
    let h : Heap := #[.mapping "dict" [(.int (Scalar.leastBeyond 4300), .scalar (.int 1))]]
    let S : Survey := { heap := h, digitLimit := some 4300 }
    ({} : Request).fault? = none ∧ S.Refuses {} (.node 0) (.digitsExceeded 4300) := by
  intro h S
  have hread : h.Reads 100 (.int (Scalar.leastBeyond 4300)) 8 [] (.node 0) :=
    .here rfl List.not_mem_nil (List.mem_singleton_self _)
  exact ⟨rfl, Survey.refuses_of_reads (o := {}) (fun log => ⟨log, rfl⟩) rfl
    (Scalar.hasMoreDigits_leastBeyond 4300) hread⟩

end JsonShape
