import JsonShape.Proofs.Commuting
import JsonShape.Proofs.Values

/-!
# What a walk reports

The walk of a survey keeps the containers that it is in as state, which all parts of the walk share.
`Survey.report` has no state: it is told the containers on the way to a value, and collapses a
container that is one of them.

* `everywhere_report`, `level_report_le`: what the nodes of reported shapes have in common, and how
  deep these shapes are;
* `yieldsIf_shapeAt`: the walk gives the shape and the records of the report, in this order, and
  leaves its state as it was, unless it comes to a key that the host does not write out. Then it
  stops.
-/

namespace JsonShape

open Shape

/-! ## Reports -/

/-- The shape of a value, and the records that were made on the way. -/
structure Report where
  shape : Shape
  records : List Record

namespace Report

section Container

variable {α : Type}

/-- The report on a sequence. Sampled elements are inspected if `inner` reports on them. -/
def ofSequence (uninspected : Shape) (size : Nat) (inner : Option (α → Report)) (items : Array α) :
    Report :=
  let reports := match inner with
    | none => []
    | some f => ((evenlySpaced items.size size).filterMap (items[·]?)).map f
  ⟨.array ⟨.exact items.size, (foldFirst? merge (reports.map shape)).getD uninspected, false⟩,
    reports.flatMap records⟩

/-- The fields for the entries of a mapping, and the records on them. An entry whose name is taken
is skipped, and its value is not visited. -/
def ofEntries (f : α → Report) (taken : List String) :
    List (Scalar × α) → List (Field Shape) × List Record
  | [] => ([], [])
  | (key, v) :: entries =>
    if key.label ∈ taken then
      let rest := ofEntries f taken entries
      (rest.1, .keySkipped key key.label :: rest.2)
    else
      let rest := ofEntries f (taken ++ [key.label]) entries
      (⟨key.label, (f v).shape, false⟩ :: rest.1, (f v).records ++ rest.2)

/-- The report on a mapping. Its values are inspected if `inner` reports on them. -/
def ofMapping (inner : Option (α → Report)) (entries : List (Scalar × α)) : Report :=
  match inner with
  | none => ⟨.object ⟨[], false⟩, []⟩
  | some f => ⟨.object ⟨(ofEntries f [] entries).1, false⟩, (ofEntries f [] entries).2⟩

end Container

theorem fields_ofEntries_map {α : Type} {f f' : α → Report} {g : Shape → Shape}
    (hg : ∀ x, (f' x).shape = g (f x).shape) (taken : List String) (es : List (Scalar × α)) :
    (ofEntries f' taken es).1 = (ofEntries f taken es).1.map (Field.map g) := by
  induction es generalizing taken with
  | nil => rfl
  | cons e es ih =>
    rw [ofEntries, ofEntries]
    split
    · exact ih taken
    · simp only [ih, hg, List.map_cons, Field.map]

theorem records_ofEntries_congr {α : Type} {f f' : α → Report}
    (h : ∀ x, (f' x).records = (f x).records) (taken : List String) (es : List (Scalar × α)) :
    (ofEntries f' taken es).2 = (ofEntries f taken es).2 := by
  induction es generalizing taken with
  | nil => rfl
  | cons e es ih =>
    rw [ofEntries, ofEntries]
    split
    · simp only [ih]
    · simp only [ih, h]

/-! Reports on containers of the same form agree if the reports on their parts do. -/

section Congr

variable {α β : Type} {inner : Option (α → Report)} {inner' : Option (β → Report)}

theorem ofSequence_congr (uninspected : Shape) (size : Nat) {xs : Array α} {ys : Array β}
    (hsize : xs.size = ys.size)
    (h : Option.Rel (fun f g => xs.toList.map f = ys.toList.map g) inner inner') :
    ofSequence uninspected size inner xs = ofSequence uninspected size inner' ys := by
  cases h with
  | none => rw [ofSequence, ofSequence, hsize]
  | some h =>
    rename_i f g
    have hget : ∀ i : Nat, xs[i]?.map f = ys[i]?.map g := by
      intro i
      rw [← Array.getElem?_toList, ← Array.getElem?_toList, ← List.getElem?_map, h,
        List.getElem?_map]
    simp only [ofSequence, List.map_filterMap, hget, hsize]

theorem ofEntries_congr {f : α → Report} {g : β → Report} {es : List (Scalar × α)}
    {es' : List (Scalar × β)} (hk : es.map (·.1) = es'.map (·.1))
    (hv : (es.map (·.2)).map f = (es'.map (·.2)).map g) (taken : List String) :
    ofEntries f taken es = ofEntries g taken es' := by
  induction es generalizing es' taken with
  | nil =>
    cases es' with
    | nil => rfl
    | cons e' es' => cases hk
  | cons e es ih =>
    cases es' with
    | nil => cases hk
    | cons e' es' =>
      obtain ⟨hkey, hk⟩ := List.cons.inj hk
      obtain ⟨hvalue, hv⟩ := List.cons.inj hv
      simp only [ofEntries, hkey, hvalue, ih hk hv]

theorem ofMapping_congr {es : List (Scalar × α)} {es' : List (Scalar × β)}
    (hk : es.map (·.1) = es'.map (·.1))
    (h : Option.Rel (fun f g => (es.map (·.2)).map f = (es'.map (·.2)).map g) inner inner') :
    ofMapping inner es = ofMapping inner' es' := by
  cases h with
  | none => rfl
  | some h => simp only [ofMapping, ofEntries_congr hk h]

end Congr

end Report

namespace Survey

/-- The shape of a container that is one of its own ancestors. -/
def collapsed (S : Survey) : Container → Shape
  | .sequence _ items => .array ⟨.exact items.size, S.uninspected, true⟩
  | .mapping .. => .object ⟨[], true⟩

/-- The report on a container that is none of its own ancestors. -/
def reportContainer (S : Survey) (size : Nat) (inner : Option (Value → Report)) :
    Container → Report
  | .sequence _ items => .ofSequence S.uninspected size inner items
  | .mapping _ entries => .ofMapping inner entries

/-- The report on a value with the given ancestors. -/
def reportWith (S : Survey) (size : Nat) (inner : Option (List NodeId → Value → Report))
    (depth : Nat) (ancestors : List NodeId) : Value → Report
  | .scalar s => ⟨s.shape, []⟩
  | .foreign _ => ⟨.string, []⟩
  | .node id =>
    match S.heap[id]? with
    | none => ⟨.string, []⟩
    | some c =>
      if id ∈ ancestors then ⟨S.collapsed c, [.cycleCollapsed depth c.typeName]⟩
      else S.reportContainer size (inner.map fun f => f (id :: ancestors)) c

/-- The report on a value at a depth, with the number of levels to inspect below it. -/
def report (S : Survey) (size : Nat) : Nat → Nat → List NodeId → Value → Report
  | 0, depth => S.reportWith size none depth
  | levels + 1, depth => S.reportWith size (some (S.report size levels (depth + 1))) depth

/-- Reports depend on the heap and on the placeholder alone. -/
theorem report_eq_of_heap (S S' : Survey) (hheap : S.heap = S'.heap)
    (huninspected : S.uninspected = S'.uninspected) (size levels depth : Nat)
    (ancestors : List NodeId) (v : Value) :
    S.report size levels depth ancestors v = S'.report size levels depth ancestors v := by
  have hcollapsed : S.collapsed = S'.collapsed := by
    funext c
    cases c <;> simp only [collapsed, huninspected]
  have hcontainer : ∀ inner, S.reportContainer size inner = S'.reportContainer size inner := by
    intro inner
    funext c
    cases c <;> simp only [reportContainer, huninspected]
  induction levels generalizing depth ancestors v with
  | zero => cases v <;> simp only [report, reportWith, hheap, hcollapsed, hcontainer]
  | succ levels ih =>
    have hparts : S.report size levels (depth + 1) = S'.report size levels (depth + 1) := by
      funext ancestors v
      exact ih (depth + 1) ancestors v
    cases v <;> simp only [report, reportWith, hheap, hcollapsed, hcontainer, hparts]

theorem reportWith_of_scalar {S : Survey} {size depth : Nat} {ancestors : List NodeId} {v : Value}
    {inner : Option (List NodeId → Value → Report)} {name : String}
    (hv : S.heap.view v = .scalar name) :
    S.reportWith size inner depth ancestors v = ⟨.scalar name, []⟩ := by
  cases v with
  | scalar s =>
    cases hv
    rw [reportWith, Scalar.shape_eq]
  | foreign t =>
    cases hv
    rfl
  | node i =>
    rw [Heap.view] at hv
    rw [reportWith]
    split at hv <;> cases hv
    rename_i hc
    simp only [hc]
    rfl

/-- What holds of the shapes that a report may have holds of its shape. -/
theorem shape_reportWith_cases {S : Survey} {size depth : Nat} {ancestors : List NodeId} {v : Value}
    {inner : Option (List NodeId → Value → Report)} {Q : Shape → Prop}
    (scalar : ∀ name, S.heap.view v = .scalar name → Q (.scalar name))
    (collapsed : ∀ id c, v = .node id → S.heap[id]? = some c → id ∈ ancestors → Q (S.collapsed c))
    (container : ∀ id c, v = .node id → S.heap[id]? = some c → id ∉ ancestors →
      Q (S.reportContainer size (inner.map fun f => f (id :: ancestors)) c).shape) :
    Q (S.reportWith size inner depth ancestors v).shape := by
  by_cases hscalar : ∃ name, S.heap.view v = .scalar name
  · obtain ⟨name, hv⟩ := hscalar
    rw [reportWith_of_scalar hv]
    exact scalar name hv
  · cases v with
    | scalar s => exact absurd ⟨_, rfl⟩ hscalar
    | foreign t => exact absurd ⟨_, rfl⟩ hscalar
    | node id =>
      rw [reportWith]
      cases hc : S.heap[id]? with
      | none => exact absurd ⟨"string", by rw [Heap.view, hc]⟩ hscalar
      | some c =>
        by_cases hin : id ∈ ancestors
        · simp only [if_pos hin]
          exact collapsed id c rfl hc hin
        · simp only [if_neg hin]
          exact container id c rfl hc hin

end Survey

/-! ## The nodes of reported shapes -/

/-- A property that the nodes have which a survey makes, and that merging keeps. -/
structure GivenBySurvey (uninspected : Shape) (P : Shape → Prop) : Prop where
  kept : KeptByMerging P
  placeholder : Everywhere P uninspected
  scalar : ∀ name, P (.scalar name)
  array : ∀ (n : Nat) (s : Shape), (n = 0 → s = uninspected) → P (.array ⟨.exact n, s, false⟩)
  object : ∀ fields, (Field.names fields).Nodup → P (.object ⟨fields, false⟩)

theorem givenBySurvey_wellFormedNode {uninspected : Shape} (hu : uninspected.WellFormed) :
    GivenBySurvey uninspected WellFormedNode where
  kept := keptByMerging_wellFormedNode
  placeholder := hu
  scalar _ := trivial
  array n _ _ := ⟨Int.natCast_nonneg n, Int.natCast_nonneg n⟩
  object _ hfields := ⟨hfields, fun hc => by cases hc⟩

namespace Report

variable {α : Type} {inner : Option (α → Report)} {f : α → Report} {uninspected : Shape}
  {P : Shape → Prop}

theorem mem_shape_ofEntries {taken : List String} {es : List (Scalar × α)} {g : Field Shape}
    (hg : g ∈ (ofEntries f taken es).1) : ∃ x ∈ es.map (·.2), g.shape = (f x).shape := by
  induction es generalizing taken with
  | nil => cases hg
  | cons e es ih =>
    have hrest : ∀ taken, g ∈ (ofEntries f taken es).1 →
        ∃ x ∈ (e :: es).map (·.2), g.shape = (f x).shape := by
      intro taken hg
      obtain ⟨x, hx, hshape⟩ := ih hg
      exact ⟨x, List.mem_cons_of_mem _ hx, hshape⟩
    rw [ofEntries] at hg
    split at hg
    · exact hrest _ hg
    · rcases List.mem_cons.mp hg with rfl | hg
      · exact ⟨e.2, List.mem_cons_self, rfl⟩
      · exact hrest _ hg

theorem names_ofEntries_notMem {taken : List String} {es : List (Scalar × α)} {name : String}
    (h : name ∈ Field.names (ofEntries f taken es).1) : name ∉ taken := by
  induction es generalizing taken with
  | nil => cases h
  | cons e es ih =>
    rw [ofEntries] at h
    split at h
    · exact ih h
    · rename_i hkey
      rcases List.mem_cons.mp h with rfl | h
      · exact hkey
      · exact fun hmem => ih h (List.mem_append_left _ hmem)

theorem nodup_names_ofEntries (taken : List String) (es : List (Scalar × α)) :
    (Field.names (ofEntries f taken es).1).Nodup := by
  induction es generalizing taken with
  | nil => exact List.nodup_nil
  | cons e es ih =>
    rw [ofEntries]
    split
    · exact ih taken
    · refine List.nodup_cons.mpr ⟨fun hmem => ?_, ih _⟩
      exact names_ofEntries_notMem hmem (List.mem_append_right _ (List.mem_singleton_self _))

theorem everywhere_ofSequence (hP : GivenBySurvey uninspected P)
    (h : ∀ f, inner = some f → ∀ x, Everywhere P (f x).shape) (size : Nat) (xs : Array α) :
    Everywhere P (ofSequence uninspected size inner xs).shape := by
  refine everywhere_array.mpr ⟨hP.array _ _ fun hempty => ?_, ?_⟩
  · cases inner with
    | none => rfl
    | some f => simp [hempty, foldFirst?]
  · refine getD_foldFirst?_of_forall (fun _ _ => hP.kept.everywhere_merge) ?_ hP.placeholder
    cases inner with
    | none => exact List.forall_mem_nil _
    | some f => exact List.forall_mem_map.mpr (List.forall_mem_map.mpr fun x _ => h f rfl x)

theorem everywhere_ofMapping (hP : GivenBySurvey uninspected P)
    (h : ∀ f, inner = some f → ∀ x, Everywhere P (f x).shape) (es : List (Scalar × α)) :
    Everywhere P (ofMapping inner es).shape := by
  cases inner with
  | none => exact everywhere_object.mpr ⟨hP.object [] List.nodup_nil, List.forall_mem_nil _⟩
  | some f =>
    refine everywhere_object.mpr ⟨hP.object _ (nodup_names_ofEntries [] es), fun g hg => ?_⟩
    obtain ⟨x, -, hx⟩ := mem_shape_ofEntries hg
    exact hx ▸ h f rfl x

variable {Q : Record → Prop}

theorem forall_records_ofSequence (h : ∀ f, inner = some f → ∀ x, ∀ r ∈ (f x).records, Q r)
    (size : Nat) (xs : Array α) : ∀ r ∈ (ofSequence uninspected size inner xs).records, Q r := by
  intro r hr
  obtain ⟨report, hreport, hr⟩ := List.mem_flatMap.mp hr
  cases inner with
  | none => cases hreport
  | some f =>
    obtain ⟨x, -, rfl⟩ := List.mem_map.mp hreport
    exact h f rfl x r hr

theorem forall_records_ofEntries (hkey : ∀ key name, Q (.keySkipped key name))
    (h : ∀ x, ∀ r ∈ (f x).records, Q r) (taken : List String) (es : List (Scalar × α)) :
    ∀ r ∈ (ofEntries f taken es).2, Q r := by
  induction es generalizing taken with
  | nil => exact List.forall_mem_nil _
  | cons e es ih =>
    rw [ofEntries]
    split
    · exact List.forall_mem_cons.mpr ⟨hkey e.1 _, ih taken⟩
    · exact List.forall_mem_append.mpr ⟨h e.2, ih _⟩

theorem forall_records_ofMapping (hkey : ∀ key name, Q (.keySkipped key name))
    (h : ∀ f, inner = some f → ∀ x, ∀ r ∈ (f x).records, Q r) (es : List (Scalar × α)) :
    ∀ r ∈ (ofMapping inner es).records, Q r := by
  cases inner with
  | none => exact List.forall_mem_nil _
  | some f => exact forall_records_ofEntries hkey (h f rfl) [] es

end Report

namespace Survey

variable {S : Survey} {size : Nat} {P : Shape → Prop}

theorem everywhere_reportWith (hP : GivenBySurvey S.uninspected P)
    (hc : ∀ c, Everywhere P (S.collapsed c)) {inner : Option (List NodeId → Value → Report)}
    (h : ∀ f, inner = some f → ∀ ancestors v, Everywhere P (f ancestors v).shape) (depth : Nat)
    (ancestors : List NodeId) (v : Value) :
    Everywhere P (S.reportWith size inner depth ancestors v).shape := by
  refine shape_reportWith_cases (fun name _ => everywhere_scalar.mpr (hP.scalar name))
    (fun _ c _ _ _ => hc c) (fun id c _ _ _ => ?_)
  have hparts : ∀ g, (inner.map fun f => f (id :: ancestors)) = some g →
      ∀ w, Everywhere P (g w).shape := by
    rintro g hg w
    obtain ⟨f, hf, rfl⟩ := Option.map_eq_some_iff.mp hg
    exact h f hf _ w
  cases c with
  | sequence t items => exact Report.everywhere_ofSequence hP hparts size items
  | mapping t entries => exact Report.everywhere_ofMapping hP hparts entries

theorem everywhere_report (hP : GivenBySurvey S.uninspected P)
    (hc : ∀ c, Everywhere P (S.collapsed c)) (levels depth : Nat) (ancestors : List NodeId)
    (v : Value) : Everywhere P (S.report size levels depth ancestors v).shape := by
  induction levels generalizing depth ancestors v with
  | zero => exact everywhere_reportWith hP hc (fun f hf => by cases hf) depth ancestors v
  | succ levels ih =>
    refine everywhere_reportWith hP hc (fun f hf => ?_) depth ancestors v
    cases hf
    exact ih (depth + 1)

theorem wellFormed_collapsed (hS : S.uninspected.WellFormed) (c : Container) :
    (S.collapsed c).WellFormed := by
  cases c with
  | sequence t items =>
    exact everywhere_array.mpr ⟨⟨Int.natCast_nonneg _, Int.natCast_nonneg _⟩, hS⟩
  | mapping t entries =>
    exact everywhere_object.mpr ⟨⟨List.nodup_nil, fun _ => rfl⟩, List.forall_mem_nil _⟩

theorem wellFormed_report (hS : S.uninspected.WellFormed) (levels depth : Nat)
    (ancestors : List NodeId) (v : Value) :
    (S.report size levels depth ancestors v).shape.WellFormed :=
  everywhere_report (givenBySurvey_wellFormedNode hS) (wellFormed_collapsed hS) levels depth
    ancestors v

/-- What merging keeps holds of the shapes inside the container if it holds of those of its
parts. -/
theorem forall_inside_reportContainer {Q : Shape → Prop}
    (hmerge : ∀ s t, Q s → Q t → Q (merge s t)) (hplaceholder : Q S.uninspected)
    {inner : Option (Value → Report)} {c : Container}
    (h : ∀ f, inner = some f → ∀ w ∈ c.parts, Q (f w).shape) :
    ∀ t, Inside (S.reportContainer size inner c).shape t → Q t := by
  intro t ht
  cases c with
  | sequence typeName items =>
    cases ht with
    | field ho _ => cases List.mem_singleton.mp ho
    | element ha =>
      cases List.mem_singleton.mp ha
      refine getD_foldFirst?_of_forall hmerge ?_ hplaceholder
      cases inner with
      | none => exact List.forall_mem_nil _
      | some f =>
        refine List.forall_mem_map.mpr (List.forall_mem_map.mpr fun w hw => ?_)
        exact h f rfl w (mem_of_mem_sampled hw)
  | mapping typeName entries =>
    cases inner with
    | none =>
      cases ht with
      | element ha => cases List.mem_singleton.mp ha
      | field ho hg =>
        cases List.mem_singleton.mp ho
        cases hg
    | some f =>
      cases ht with
      | element ha => cases List.mem_singleton.mp ha
      | field ho hg =>
        cases List.mem_singleton.mp ho
        obtain ⟨x, hx, hshape⟩ := Report.mem_shape_ofEntries hg
        exact hshape ▸ h f rfl x hx

/-! ## The level of reported shapes -/

theorem level_reportContainer_le (hS : S.uninspected.level = 0) {n : Nat}
    {inner : Option (Value → Report)} (h : ∀ f, inner = some f → ∀ v, (f v).shape.level ≤ n)
    (c : Container) : (S.reportContainer size inner c).shape.level ≤ n + 1 := by
  cases c with
  | sequence t items =>
    apply Nat.succ_le_succ
    refine getD_foldFirst?_of_forall (Q := fun s : Shape => s.level ≤ n)
      (fun _ _ => level_merge_le) ?_ (by omega)
    cases inner with
    | none => exact List.forall_mem_nil _
    | some f => exact List.forall_mem_map.mpr (List.forall_mem_map.mpr fun x _ => h f rfl x)
  | mapping t entries =>
    cases inner with
    | none => exact Nat.succ_le_succ (Nat.zero_le n)
    | some f =>
      refine Nat.succ_le_succ (levelOfFields_le.mpr fun g hg => ?_)
      obtain ⟨x, -, hx⟩ := Report.mem_shape_ofEntries hg
      exact hx ▸ h f rfl x

theorem level_reportWith_le (hS : S.uninspected.level = 0) {n : Nat}
    {inner : Option (List NodeId → Value → Report)}
    (h : ∀ f, inner = some f → ∀ ancestors v, (f ancestors v).shape.level ≤ n) (depth : Nat)
    (ancestors : List NodeId) (v : Value) :
    (S.reportWith size inner depth ancestors v).shape.level ≤ n + 1 := by
  have hcollapsed : ∀ c, (S.collapsed c).level ≤ n + 1 := by
    intro c
    cases c with
    | sequence t items =>
      apply Nat.succ_le_succ
      show S.uninspected.level ≤ n
      omega
    | mapping t entries => exact Nat.succ_le_succ (Nat.zero_le n)
  refine shape_reportWith_cases (Q := (·.level ≤ n + 1)) (fun name _ => Nat.zero_le _)
    (fun _ c _ _ _ => hcollapsed c)
    (fun id c _ _ _ => level_reportContainer_le hS (fun g hg w => ?_) c)
  obtain ⟨f, hf, rfl⟩ := Option.map_eq_some_iff.mp hg
  exact h f hf _ w

/-- The containers below the last level to inspect are in the shape, but nothing in them is. -/
theorem level_report_le (hS : S.uninspected.level = 0) (levels depth : Nat)
    (ancestors : List NodeId) (v : Value) :
    (S.report size levels depth ancestors v).shape.level ≤ levels + 1 := by
  induction levels generalizing depth ancestors v with
  | zero => exact level_reportWith_le hS (fun f hf => by cases hf) depth ancestors v
  | succ levels ih =>
    refine level_reportWith_le hS (fun f hf => ?_) depth ancestors v
    cases hf
    exact ih (depth + 1)

theorem kind_report (levels depth : Nat) (ancestors : List NodeId) (v : Value) :
    (S.report size levels depth ancestors v).shape.kind = (S.heap.view v).kind := by
  have step : ∀ inner : Option (List NodeId → Value → Report),
      (S.reportWith size inner depth ancestors v).shape.kind = (S.heap.view v).kind := by
    intro inner
    refine shape_reportWith_cases (Q := (·.kind = (S.heap.view v).kind)) (fun name hname => ?_)
      (fun id c hv hc _ => ?_) (fun id c hv hc _ => ?_)
    · rw [hname]
      rfl
    · rw [hv, Heap.view, hc]
      cases c <;> rfl
    · rw [hv, Heap.view, hc]
      cases c <;> cases inner <;> rfl
  cases levels with
  | zero => exact step none
  | succ levels => exact step _

theorem kind_report_ne_choice (levels depth : Nat) (ancestors : List NodeId) (v : Value) :
    (S.report size levels depth ancestors v).shape.kind ≠ .choice := by
  rw [kind_report]
  cases S.heap.view v <;> exact nofun

end Survey

/-! ## Walks that yield a value and records, or stop -/

/-- From the given containers the walk succeeds with `a`, adds the records, and leaves every
container that it enters. -/
def Walk.Yields {α : Type} (w : Walk α) (entered : List NodeId) (a : α) (records : List Record) :
    Prop :=
  ∀ log, (w.run entered).run log = .ok (a, entered) (log ++ records.toArray)

/-- From the given containers the walk fails with `e`, whatever it has recorded by then. -/
def Walk.Stops {α : Type} (w : Walk α) (entered : List NodeId) (e : Error) : Prop :=
  ∀ log, ∃ log', (w.run entered).run log = .error e log'

/-- Under the condition the walk yields `a` and the records, and otherwise it stops. -/
structure Walk.YieldsIf {α : Type} (ok : Prop) (w : Walk α) (entered : List NodeId) (a : α)
    (records : List Record) (e : Error) : Prop where
  yields : ok → w.Yields entered a records
  stops : ¬ ok → w.Stops entered e

namespace Walk

variable {α β : Type} {entered : List NodeId}

theorem yields_pure (a : α) : Yields (pure a) entered a [] := by
  intro log
  rw [Array.append_empty]
  rfl

theorem Yields.bind {w : Walk α} {f : α → Walk β} {a : α} {b : β} {rs rs' : List Record}
    (hw : w.Yields entered a rs) (hf : (f a).Yields entered b rs') :
    (w >>= f).Yields entered b (rs ++ rs') := by
  intro log
  rw [StateT.run_bind, EStateM.run_bind, hw log]
  refine (hf _).trans ?_
  rw [Array.append_assoc, List.append_toArray rs rs']

theorem Yields.then_pure {w : Walk α} {f : α → Walk β} {a : α} {b : β} {rs : List Record}
    (hw : w.Yields entered a rs) (hf : (f a).Yields entered b []) :
    (w >>= f).Yields entered b rs := by
  have h := hw.bind hf
  rwa [List.append_nil] at h

theorem yields_emit (r : Record) : Yields (emit r : Walk Unit) entered () [r] := by
  intro log
  rfl

theorem yields_lift {x : Except Error α} {a : α} (h : x = .ok a) :
    Yields (liftM x : Walk α) entered a [] := by
  subst h
  rw [liftM_ok]
  exact yields_pure a

theorem yields_isIn (id : NodeId) : (isIn id).Yields entered (decide (id ∈ entered)) [] := by
  intro log
  rw [isIn_run, Array.append_empty]
  rfl

theorem yields_within {id : NodeId} {w : Walk α} {a : α} {rs : List Record}
    (h : w.Yields (id :: entered) a rs) : (within id w).Yields entered a rs := by
  intro log
  rw [within_run, EStateM.run_bind, h log]
  simp

section Stops

variable {w : Walk α} {f : α → Walk β} {a : α} {b : β} {rs rs' : List Record} {e : Error}
  {ok ok' : Prop}

theorem stops_lift {x : Except Error α} (h : x = .error e) :
    Stops (liftM x : Walk α) entered e := by
  subst h
  exact fun log => ⟨log, rfl⟩

theorem Stops.bind (hw : w.Stops entered e) (f : α → Walk β) : (w >>= f).Stops entered e := by
  intro log
  obtain ⟨log', hrun⟩ := hw log
  exact ⟨log', by rw [StateT.run_bind, EStateM.run_bind, hrun]⟩

theorem Yields.bind_stops (hw : w.Yields entered a rs) (hf : (f a).Stops entered e) :
    (w >>= f).Stops entered e := by
  intro log
  obtain ⟨log', hrun⟩ := hf (log ++ rs.toArray)
  exact ⟨log', by rw [StateT.run_bind, EStateM.run_bind, hw log]; exact hrun⟩

theorem stops_within {id : NodeId} (h : w.Stops (id :: entered) e) :
    (within id w).Stops entered e := by
  intro log
  obtain ⟨log', hrun⟩ := h log
  exact ⟨log', by rw [within_run, EStateM.run_bind, hrun]⟩

theorem Yields.yieldsIf (hw : w.Yields entered a rs) (h : ok) : w.YieldsIf ok entered a rs e :=
  ⟨fun _ => hw, fun hnot => absurd h hnot⟩

/-- One walk after another yields under the conditions of both. -/
theorem YieldsIf.bind (hw : w.YieldsIf ok entered a rs e)
    (hf : (f a).YieldsIf ok' entered b rs' e) :
    (w >>= f).YieldsIf (ok ∧ ok') entered b (rs ++ rs') e where
  yields h := (hw.yields h.1).bind (hf.yields h.2)
  stops h := by
    by_cases hok : ok
    · exact (hw.yields hok).bind_stops (hf.stops fun hok' => h ⟨hok, hok'⟩)
    · exact (hw.stops hok).bind f

theorem YieldsIf.then_pure (hw : w.YieldsIf ok entered a rs e)
    (hf : (f a).Yields entered b []) : (w >>= f).YieldsIf ok entered b rs e where
  yields h := (hw.yields h).then_pure hf
  stops h := (hw.stops h).bind f

theorem Yields.then (hw : w.Yields entered a []) (hf : (f a).YieldsIf ok entered b rs e) :
    (w >>= f).YieldsIf ok entered b rs e where
  yields h := hw.bind (hf.yields h)
  stops h := hw.bind_stops (hf.stops h)

theorem YieldsIf.within {id : NodeId} (hw : w.YieldsIf ok (id :: entered) a rs e) :
    (within id w).YieldsIf ok entered a rs e where
  yields h := yields_within (hw.yields h)
  stops h := stops_within (hw.stops h)

theorem YieldsIf.of_iff (hw : w.YieldsIf ok entered a rs e) (h : ok' ↔ ok) :
    w.YieldsIf ok' entered a rs e :=
  ⟨fun hok => hw.yields (h.mp hok), fun hok => hw.stops (mt h.mpr hok)⟩

end Stops

end Walk

/-! ## The walk yields the report -/

namespace Survey

variable {S : Survey} {size : Nat} {entered : List NodeId}

theorem any_name_iff {fields : Array (Field Shape)} {name : String} :
    fields.any (·.name == name) = true ↔ name ∈ Field.names fields.toList := by
  rw [← Array.any_toList, List.any_eq_true]
  simp [Field.names]

/-- The error of a survey that comes to a key which the host does not write out. -/
def refusal (S : Survey) : Error := .digitsExceeded (S.digitLimit.getD 0)

/-- Each visit yields what `f` reports if the condition on the value holds, and otherwise stops. -/
def VisitYields (visit : Value → Walk Shape) (ok : Value → Prop) (f : Value → Report)
    (entered : List NodeId) (e : Error) : Prop :=
  ∀ v, (visit v).YieldsIf (ok v) entered (f v).shape (f v).records e

theorem yieldsIf_label (key : Scalar) :
    (liftM (key.labelWithin S.digitLimit) : Walk String).YieldsIf (key.NamedWithin S.digitLimit)
      entered key.label [] S.refusal where
  yields h := Walk.yields_lift h
  stops h := Walk.stops_lift (Scalar.labelWithin_of_not_named h)

section Visit

variable {visit : Value → Walk Shape} {ok : Value → Prop} {f : Value → Report}

theorem yieldsIf_elements {e : Error} (h : VisitYields visit ok f entered e) {items : Array Value}
    {is : List Nat} (his : ∀ i ∈ is, i < items.size) :
    (is.mapM fun i => do visit (← elementAt items i) : Walk (List Shape)).YieldsIf
      (∀ v ∈ is.filterMap (items[·]?), ok v) entered
      (((is.filterMap (items[·]?)).map f).map Report.shape)
      (((is.filterMap (items[·]?)).map f).flatMap Report.records) e := by
  induction is with
  | nil => exact (Walk.yields_pure []).yieldsIf (List.forall_mem_nil _)
  | cons i is ih =>
    obtain ⟨hi, his⟩ := List.forall_mem_cons.mp his
    have hv : items[i]? = some items[i] := Array.getElem?_eq_getElem hi
    have hel : elementAt items i = .ok items[i] := by rw [elementAt, hv]
    have hfirst := (Walk.yields_lift hel).then (h items[i])
    rw [List.mapM_cons, List.filterMap_cons_some hv, List.map_cons, List.map_cons,
      List.flatMap_cons]
    refine Walk.YieldsIf.of_iff ?_ List.forall_mem_cons
    exact hfirst.bind ((ih his).then_pure (Walk.yields_pure _))

variable (h : VisitYields visit ok f entered S.refusal)
include h

theorem yieldsIf_entries (entries : List (Scalar × Value)) (fields : Array (Field Shape)) :
    (entries.foldlM (addEntry S.digitLimit visit) fields).YieldsIf
      ((∀ key ∈ entries.map (·.1), key.NamedWithin S.digitLimit) ∧
        ForallFirst (Field.names fields.toList) entries ok) entered
      (fields ++ (Report.ofEntries f (Field.names fields.toList) entries).1.toArray)
      (Report.ofEntries f (Field.names fields.toList) entries).2 S.refusal := by
  induction entries generalizing fields with
  | nil =>
    rw [Report.ofEntries, Array.append_empty]
    exact (Walk.yields_pure fields).yieldsIf ⟨List.forall_mem_nil _, forallFirst_nil⟩
  | cons e entries ih =>
    obtain ⟨key, v⟩ := e
    rw [List.foldlM_cons, Report.ofEntries]
    by_cases hname : key.label ∈ Field.names fields.toList
    · have hstep : (addEntry S.digitLimit visit fields (key, v)).YieldsIf
          (key.NamedWithin S.digitLimit ∧ True) entered fields [.keySkipped key key.label]
          S.refusal := by
        refine (yieldsIf_label key).bind (Walk.Yields.yieldsIf ?_ trivial)
        rw [if_pos (any_name_iff.mpr hname)]
        exact (Walk.yields_emit _).then_pure (Walk.yields_pure _)
      rw [if_pos hname]
      refine (hstep.bind (ih fields)).of_iff ?_
      rw [List.map_cons, List.forall_mem_cons, forallFirst_cons_of_mem hname, and_true, and_assoc]
    · have hstep : (addEntry S.digitLimit visit fields (key, v)).YieldsIf
          (key.NamedWithin S.digitLimit ∧ ok v) entered
          (fields.push ⟨key.label, (f v).shape, false⟩) (f v).records S.refusal := by
        refine (yieldsIf_label key).bind ?_
        rw [if_neg (mt any_name_iff.mp hname)]
        exact (h v).then_pure (Walk.yields_pure _)
      have hnames : Field.names (fields.push ⟨key.label, (f v).shape, false⟩).toList =
          Field.names fields.toList ++ [key.label] := by
        simp [Field.names]
      have hrest := ih (fields.push ⟨key.label, (f v).shape, false⟩)
      rw [hnames] at hrest
      rw [if_neg hname]
      have hfields : fields ++ (⟨key.label, (f v).shape, false⟩ ::
          (Report.ofEntries f (Field.names fields.toList ++ [key.label]) entries).1).toArray =
          fields.push ⟨key.label, (f v).shape, false⟩ ++
          (Report.ofEntries f (Field.names fields.toList ++ [key.label]) entries).1.toArray := by
        simp
      refine hfields ▸ (hstep.bind hrest).of_iff ?_
      rw [List.map_cons, List.forall_mem_cons, forallFirst_cons_of_notMem hname, and_and_and_comm]

theorem yieldsIf_inspect_sequence (hsize : 0 < size) (t : String) (items : Array Value) :
    (S.inspect size (some visit) (.sequence t items)).YieldsIf (∀ v ∈ sampled items size, ok v)
      entered (Report.ofSequence S.uninspected size (some f) items).shape
      (Report.ofSequence S.uninspected size (some f) items).records S.refusal := by
  have hseq : ∀ s, (liftM (Shape.ofSequence items.size s false) : Walk Shape).Yields entered
      (.array ⟨.exact items.size, s, false⟩) [] := fun _ => Walk.yields_lift rfl
  have hnil : sampled items size = [] ↔ items.isEmpty = true := by
    rw [sampled_eq_nil_iff, Array.isEmpty_iff_size_eq_zero]
    omega
  change (S.inspect size (some visit) (.sequence t items)).YieldsIf _ entered
    (.array ⟨.exact items.size,
      (foldFirst? merge (((sampled items size).map f).map Report.shape)).getD S.uninspected,
      false⟩)
    (((sampled items size).map f).flatMap Report.records) _
  rw [inspect]
  by_cases he : items.isEmpty = true
  · simp only [if_pos he, hnil.mpr he]
    exact ((Walk.yields_pure S.uninspected).then_pure (hseq _)).yieldsIf (List.forall_mem_nil _)
  · obtain ⟨v, vs, hs⟩ := List.exists_cons_of_ne_nil (mt hnil.mp he)
    have hlt : ∀ i ∈ evenlySpaced items.size size, i < items.size :=
      fun i hi => lt_of_mem_evenlySpaced hi
    have hmerge : mergeAll (((sampled items size).map f).map Report.shape) =
        .ok ((foldFirst? merge (((sampled items size).map f).map Report.shape)).getD
          S.uninspected) := by
      rw [hs]
      rfl
    simp only [if_neg he]
    exact (yieldsIf_elements h hlt).then_pure ((Walk.yields_lift hmerge).then_pure (hseq _))

/-- The keys of a mapping are written out, and the parts that are inspected are visited. -/
theorem yieldsIf_inspect (hsize : 0 < size) (c : Container) :
    (S.inspect size (some visit) c).YieldsIf
      ((∀ key ∈ c.keys, key.NamedWithin S.digitLimit) ∧ ∀ v, c.Inspected size v → ok v) entered
      (S.reportContainer size (some f) c).shape (S.reportContainer size (some f) c).records
      S.refusal := by
  cases c with
  | sequence t items =>
    refine (yieldsIf_inspect_sequence h hsize t items).of_iff ?_
    simp [Container.keys, Container.Inspected]
  | mapping t entries =>
    have hentries := yieldsIf_entries h entries #[]
    rw [Array.empty_append] at hentries
    refine Walk.YieldsIf.of_iff (hentries.then_pure (Walk.yields_pure _))
      (and_congr_right fun _ => ?_)
    constructor
    · exact fun hall name v _ hv => hall v ⟨name, hv⟩
    · rintro hall v ⟨name, hv⟩
      exact hall name v List.not_mem_nil hv

end Visit

theorem yields_inspect_none (c : Container) : (S.inspect size none c).Yields entered
    (S.reportContainer size none c).shape (S.reportContainer size none c).records := by
  cases c with
  | sequence t items => exact (Walk.yields_pure S.uninspected).then_pure (Walk.yields_lift rfl)
  | mapping t entries => exact (Walk.yields_pure #[]).then_pure (Walk.yields_pure _)

theorem yields_collapse (c : Container) : (S.collapse c).Yields entered (S.collapsed c) [] := by
  cases c with
  | sequence t items => exact Walk.yields_lift rfl
  | mapping t entries => exact Walk.yields_pure _

/-- A container is inspected if the walk is not in it. Nothing else can stop the visit. -/
theorem visitYields_visit {inner : Option (Value → Walk Shape)}
    {f : Option (List NodeId → Value → Report)} {ok : Value → Prop} {e : Error} (depth : Nat)
    (hrest : ∀ v, (∀ i c, v = .node i → S.heap[i]? = some c → i ∈ entered) → ok v)
    (hinspect : ∀ id c, S.heap[id]? = some c → id ∉ entered →
      (S.inspect size inner c).YieldsIf (ok (.node id)) (id :: entered)
        (S.reportContainer size (f.map fun g => g (id :: entered)) c).shape
        (S.reportContainer size (f.map fun g => g (id :: entered)) c).records e) :
    VisitYields (S.visit size inner depth) ok (S.reportWith size f depth entered) entered e := by
  intro v
  cases v with
  | scalar s => exact (Walk.yields_pure _).yieldsIf (hrest _ nofun)
  | foreign t => exact (Walk.yields_pure _).yieldsIf (hrest _ nofun)
  | node id =>
    rw [visit, reportWith]
    cases hc : S.heap[id]? with
    | none =>
      refine (Walk.yields_pure _).yieldsIf (hrest _ fun i c hi hc' => ?_)
      cases hi
      cases hc.symm.trans hc'
    | some c =>
      by_cases hin : id ∈ entered
      · have hisIn : (Walk.isIn id).Yields entered true [] :=
          decide_eq_true hin ▸ Walk.yields_isIn id
        have hok : ok (.node id) := hrest _ fun i c hi _ => by
          cases hi
          exact hin
        simp only [if_pos hin]
        exact (hisIn.bind ((Walk.yields_emit _).then_pure (yields_collapse c))).yieldsIf hok
      · have hisIn : (Walk.isIn id).Yields entered false [] :=
          decide_eq_false hin ▸ Walk.yields_isIn id
        simp only [if_neg hin]
        exact hisIn.then (hinspect id c hc hin).within

/-- The induction is on the levels: the parts of a container are visited with the containers
entered so far and the container itself as ancestors. -/
theorem yieldsIf_shapeAt (hsize : 0 < size) (levels depth : Nat) (entered : List NodeId) :
    VisitYields (S.shapeAt size levels depth) (S.NamesKeys size levels entered)
      (S.report size levels depth entered) entered S.refusal := by
  induction levels generalizing depth entered with
  | zero =>
    exact visitYields_visit (f := none) depth (fun _ => namesKeys_of_forall_mem)
      fun _ c _ _ => (yields_inspect_none c).yieldsIf namesKeys_zero
  | succ levels ih =>
    exact visitYields_visit (f := some (S.report size levels (depth + 1))) depth
      (fun _ => namesKeys_of_forall_mem) fun id c hc hin =>
        (yieldsIf_inspect (ih (depth + 1) (id :: entered)) hsize c).of_iff
          (namesKeys_node_iff hc hin)

theorem yields_shapeAt {levels : Nat} {v : Value} (hnamed : S.NamesKeys size levels entered v)
    (hsize : 0 < size) (depth : Nat) : (S.shapeAt size levels depth v).Yields entered
      (S.report size levels depth entered v).shape
      (S.report size levels depth entered v).records :=
  (yieldsIf_shapeAt hsize levels depth entered v).yields hnamed

/-! ## Surveys succeed -/

/-- The last level that a survey inspects under effective options. -/
def deepest (S : Survey) (o : Options) : Nat := min o.maxDepth (greatestDepth S.recursionLimit)

theorem shape_run {S : Survey} {o : Options} {limit : Int} {log log' : Array Record}
    (hlimit : (allowedDepth S.recursionLimit o.maxDepth).run log = .ok limit log') {v : Value}
    (hnamed : S.NamesKeys o.sampleSize limit.toNat [] v) :
    (S.shape o v).run log = .ok (S.report o.sampleSize limit.toNat 0 [] v).shape
      (log' ++ (S.report o.sampleSize limit.toNat 0 [] v).records.toArray) := by
  have hwalk := yields_shapeAt hnamed o.sampleSize_pos 0 log'
  rw [shape, EStateM.run_bind, hlimit]
  simp only [StateT.run'_eq, ← bind_pure_comp, EStateM.run_bind, hwalk]
  rfl

theorem shape_run_of_not_named {S : Survey} {o : Options} {limit : Int} {log log' : Array Record}
    (hlimit : (allowedDepth S.recursionLimit o.maxDepth).run log = .ok limit log') {v : Value}
    (hnot : ¬ S.NamesKeys o.sampleSize limit.toNat [] v) :
    ∃ log'', (S.shape o v).run log = .error S.refusal log'' := by
  obtain ⟨log'', hwalk⟩ :=
    (yieldsIf_shapeAt o.sampleSize_pos limit.toNat 0 [] v).stops hnot log'
  refine ⟨log'', ?_⟩
  rw [shape, EStateM.run_bind, hlimit]
  simp only [StateT.run'_eq, ← bind_pure_comp, EStateM.run_bind, hwalk]

/-- A survey with effective options succeeds if the host writes out the keys, and its shape is that
of the report on the value, from its root on and down to the depth that the host allows. -/
theorem infer_run {S : Survey} {r : Request} {o : Options} {log log' : Array Record}
    (ho : r.options.run log = .ok o log') {v : Value}
    (hnamed : S.NamesKeys o.sampleSize (S.deepest o) [] v) : ∃ log'', (S.infer r v).run log =
      .ok (S.report o.sampleSize (S.deepest o) 0 [] v).shape log'' := by
  obtain ⟨log₁, hlimit⟩ := allowedDepth_run S.recursionLimit o.maxDepth log'
  have hshape := shape_run hlimit (v := v) hnamed
  rw [Int.toNat_natCast] at hshape
  refine ⟨_, Eq.trans ?_ hshape⟩
  rw [infer, EStateM.run_bind, ho]

theorem renderWithin_run {recursionLimit maxDepth limit : Int} {log log' : Array Record}
    (hlimit : (allowedDepth recursionLimit maxDepth).run log = .ok limit log') (s : Shape) :
    (s.renderWithin recursionLimit maxDepth).run log = .ok (s.render limit.toNat) log' := by
  rw [Shape.renderWithin, EStateM.run_bind, hlimit]
  rfl

/-- The thumbnail is the text of the inferred shape, down to the depth at which the survey
stopped. -/
theorem thumbnail_run {S : Survey} {r : Request} {o : Options} {v : Value} {s : Shape}
    {log log' log₁ : Array Record} (ho : r.options.run log = .ok o log')
    (hs : (S.infer r v).run log = .ok s log₁) : ∃ log₂, (S.thumbnail r v).run log =
      .ok (s.render (min o.maxDepth (greatestDepth S.recursionLimit))) log₂ := by
  rw [infer, EStateM.run_bind, ho] at hs
  replace hs : (S.shape o v).run log' = .ok s log₁ := hs
  obtain ⟨log₂, hlimit⟩ := allowedDepth_run S.recursionLimit o.maxDepth log₁
  refine ⟨log₂, ?_⟩
  rw [thumbnail, EStateM.run_bind, ho]
  simp only [EStateM.run_bind, hs]
  exact renderWithin_run hlimit s

end Survey

end JsonShape
