import JsonShape.Proofs.Report
import JsonShape.Proofs.WellFormed

/-!
# Cycle detection is exact

A heap may share containers. `Tree` is a value that shares nothing, and `Heap.Unfolds h v t` says
that `t` is the value `v` written out; every acyclic value has such a tree (`exists_unfolds`).

* `report_of_unfolds`: the report on an acyclic value is the report on its tree, which knows of no
  containers and no cycles;
* `shapeAt_exact`: so a survey collapses a container exactly where it contains itself, and sharing
  makes no difference.
-/

namespace JsonShape

open Shape

/-! ## Trees -/

/-- What a survey sees of a value and of all values in it. -/
inductive Tree where
  | scalar (name : String)
  | sequence (items : Array Tree)
  | mapping (entries : List (Scalar × Tree))

namespace Tree

/-- The report on a tree whose parts are reported on by `inner`, if they are inspected. -/
def reportWith (uninspected : Shape) (size : Nat) (inner : Option (Tree → Report)) : Tree → Report
  | .scalar name => ⟨.scalar name, []⟩
  | .sequence items => .ofSequence uninspected size inner items
  | .mapping entries => .ofMapping inner entries

/-- The report on a tree, with the number of levels to inspect. -/
def report (uninspected : Shape) (size : Nat) : Nat → Tree → Report
  | 0 => reportWith uninspected size none
  | levels + 1 => reportWith uninspected size (some (report uninspected size levels))

end Tree

namespace Heap

/-- The tree is the value with all values in it written out. -/
inductive Unfolds (h : Heap) : Value → Tree → Prop
  | scalar {v : Value} {name : String} (hv : h.view v = .scalar name) : Unfolds h v (.scalar name)
  | sequence {v : Value} {items : Array Value} {ts : Array Tree} (hv : h.view v = .sequence items)
    (hts : List.Forall₂ (Unfolds h) items.toList ts.toList) : Unfolds h v (.sequence ts)
  | mapping {v : Value} {entries : List (Scalar × Value)} {es : List (Scalar × Tree)}
    (hv : h.view v = .mapping entries) (hk : entries.map (·.1) = es.map (·.1))
    (hts : List.Forall₂ (Unfolds h) (entries.map (·.2)) (es.map (·.2))) :
    Unfolds h v (.mapping es)

/-! ## Acyclic values have trees -/

theorem exists_forall₂ {α β : Type} {R : α → β → Prop} {l : List α} (h : ∀ x ∈ l, ∃ y, R x y) :
    ∃ l', List.Forall₂ R l l' := by
  induction l with
  | nil => exact ⟨[], .nil⟩
  | cons x l ih =>
    obtain ⟨hx, hl⟩ := List.forall_mem_cons.mp h
    obtain ⟨y, hy⟩ := hx
    obtain ⟨l', hl'⟩ := ih hl
    exact ⟨y :: l', .cons hy hl'⟩

theorem exists_unfolds_of_parts {h : Heap} (v : Value)
    (hparts : ∀ i c, v = .node i → h[i]? = some c → ∀ w ∈ c.parts, ∃ t, h.Unfolds w t) :
    ∃ t, h.Unfolds v t := by
  cases hv : h.view v with
  | scalar name => exact ⟨_, .scalar hv⟩
  | sequence items =>
    obtain ⟨i, t, hi, hc⟩ := view_eq_sequence hv
    obtain ⟨ts, hts⟩ := exists_forall₂ (hparts i _ hi hc)
    exact ⟨.sequence ts.toArray, .sequence hv hts⟩
  | mapping entries =>
    obtain ⟨i, t, hi, hc⟩ := view_eq_mapping hv
    obtain ⟨ts, hts⟩ := exists_forall₂ (hparts i _ hi hc)
    have hlen : (entries.map (·.1)).length = ts.length := by
      rw [← hts.length_eq, Container.parts, List.length_map, List.length_map]
    refine ⟨.mapping ((entries.map (·.1)).zip ts), .mapping hv ?_ ?_⟩
    · exact (List.map_fst_zip (Nat.le_of_eq hlen)).symm
    · rw [List.map_snd_zip (Nat.le_of_eq hlen.symm)]
      exact hts

/-- The containers on a way to a value: each is in the heap, none comes twice, and none is reached
from the value. -/
structure LeadsTo (h : Heap) (path : List NodeId) (v : Value) : Prop where
  nodup : path.Nodup
  lt : ∀ i ∈ path, i < h.size
  apart : h.Apart v path

theorem LeadsTo.length_le {h : Heap} {path : List NodeId} {v : Value} (hp : h.LeadsTo path v) :
    path.length ≤ h.size := by
  have hsub : path ⊆ List.range h.size := fun i hi => List.mem_range.mpr (hp.lt i hi)
  have hle := (List.subperm_of_subset hp.nodup hsub).length_le
  rwa [List.length_range] at hle

theorem LeadsTo.part {h : Heap} {path : List NodeId} {i : NodeId} {c : Container} {v : Value}
    (hp : h.LeadsTo path (.node i)) (ha : h.Acyclic (.node i)) (hc : h[i]? = some c)
    (hv : v ∈ c.parts) : h.LeadsTo (i :: path) v where
  nodup := List.nodup_cons.mpr ⟨hp.apart i ⟨i, rfl, .refl⟩, hp.nodup⟩
  lt := List.forall_mem_cons.mpr ⟨(Array.getElem?_eq_some_iff.mp hc).1, hp.lt⟩
  apart := hp.apart.part ha hc hv

/-- The induction is on the number of containers that are not on the way to the value. -/
theorem exists_unfolds_of_leadsTo {h : Heap} (n : Nat) {path : List NodeId} {v : Value}
    (hv : h.Acyclic v) (hp : h.LeadsTo path v) (hn : h.size ≤ n + path.length) :
    ∃ t, h.Unfolds v t := by
  induction n generalizing path v with
  | zero =>
    apply exists_unfolds_of_parts
    rintro i c rfl hc w hw
    have hle := (hp.part hv hc hw).length_le
    rw [List.length_cons] at hle
    omega
  | succ n ih =>
    apply exists_unfolds_of_parts
    rintro i c rfl hc w hw
    refine ih (hv.part hc hw) (hp.part hv hc hw) ?_
    rw [List.length_cons]
    omega

theorem Acyclic.exists_unfolds {h : Heap} {v : Value} (hv : h.Acyclic v) : ∃ t, h.Unfolds v t :=
  exists_unfolds_of_leadsTo h.size hv
    ⟨List.nodup_nil, List.forall_mem_nil _, fun _ _ => List.not_mem_nil⟩ (Nat.le_add_right _ _)

end Heap

/-! ## The report on an acyclic value -/

theorem map_eq_map_of_forall₂ {α β γ : Type} {R : α → β → Prop} {f : α → γ} {g : β → γ}
    {l : List α} {l' : List β} (h : List.Forall₂ R l l')
    (hfg : ∀ x ∈ l, ∀ y, R x y → f x = g y) : l.map f = l'.map g := by
  rw [← List.forall₂_eq_eq_eq, List.forall₂_map_left_iff, List.forall₂_map_right_iff]
  exact ((List.forall₂_and_left l l').mpr ⟨hfg, h⟩).imp fun x y hxy => hxy.1 y hxy.2

section Unfolds

variable {S : Survey} {size depth : Nat} {ancestors : List NodeId} {v : Value} {t : Tree}

/-- For each part of the container at `i`, `f` with this ancestor reports what `g` reports on the
tree of the part. -/
def PartsAgree (h : Heap) (i : NodeId) (ancestors : List NodeId) (c : Container)
    (f : List NodeId → Value → Report) (g : Tree → Report) : Prop :=
  ∀ w ∈ c.parts, ∀ t, h.Unfolds w t → f (i :: ancestors) w = g t

theorem reportWith_of_unfolds {inner : Option (List NodeId → Value → Report)}
    {inner' : Option (Tree → Report)} (ht : S.heap.Unfolds v t)
    (hin : ∀ i, v = .node i → i ∉ ancestors)
    (h : ∀ i c, v = .node i → S.heap[i]? = some c →
      Option.Rel (PartsAgree S.heap i ancestors c) inner inner') :
    S.reportWith size inner depth ancestors v = t.reportWith S.uninspected size inner' := by
  cases ht with
  | scalar hv => exact Survey.reportWith_of_scalar hv
  | sequence hv hts =>
    rename_i items ts
    obtain ⟨i, typeName, rfl, hc⟩ := Heap.view_eq_sequence hv
    have hinner := h i _ rfl hc
    rw [Survey.reportWith]
    simp only [hc, if_neg (hin i rfl)]
    refine Report.ofSequence_congr _ _ hts.length_eq ?_
    cases hinner with
    | none => exact .none
    | some hfg => exact .some (map_eq_map_of_forall₂ hts hfg)
  | mapping hv hk hts =>
    rename_i entries es
    obtain ⟨i, typeName, rfl, hc⟩ := Heap.view_eq_mapping hv
    have hinner := h i _ rfl hc
    rw [Survey.reportWith]
    simp only [hc, if_neg (hin i rfl)]
    refine Report.ofMapping_congr hk ?_
    cases hinner with
    | none => exact .none
    | some hfg => exact .some (map_eq_map_of_forall₂ hts hfg)

theorem report_of_unfolds (levels : Nat) (ht : S.heap.Unfolds v t) (hv : S.heap.Acyclic v)
    (hapart : S.heap.Apart v ancestors) :
    S.report size levels depth ancestors v = t.report S.uninspected size levels := by
  have hnot : ∀ i, v = .node i → i ∉ ancestors := fun i hi => hapart i ⟨i, hi, .refl⟩
  induction levels generalizing depth ancestors v t with
  | zero => exact reportWith_of_unfolds ht hnot fun _ _ _ _ => .none
  | succ levels ih =>
    refine reportWith_of_unfolds ht hnot fun i c hi hc => .some fun w hw u hu => ?_
    subst hi
    have hpart := hapart.part hv hc hw
    exact ih hu (hv.part hc hw) hpart fun j hj => hpart j ⟨j, hj, .refl⟩

end Unfolds

/-! ## No cycles in trees -/

namespace Tree

variable {uninspected : Shape} {size : Nat}

theorem everywhere_report {P : Shape → Prop} (hP : GivenBySurvey uninspected P) (levels : Nat)
    (t : Tree) : Everywhere P (t.report uninspected size levels).shape := by
  have step : ∀ inner : Option (Tree → Report),
      (∀ f, inner = some f → ∀ t, Everywhere P (f t).shape) →
      ∀ t, Everywhere P (reportWith uninspected size inner t).shape := by
    intro inner hinner t
    cases t with
    | scalar name => exact everywhere_scalar.mpr (hP.scalar name)
    | sequence items => exact Report.everywhere_ofSequence hP hinner size items
    | mapping entries => exact Report.everywhere_ofMapping hP hinner entries
  induction levels generalizing t with
  | zero => exact step none (fun f hf => by cases hf) t
  | succ levels ih =>
    refine step _ (fun f hf => ?_) t
    cases hf
    exact ih

theorem forall_records_report {Q : Record → Prop} (hkey : ∀ key name, Q (.keySkipped key name))
    (levels : Nat) (t : Tree) : ∀ r ∈ (t.report uninspected size levels).records, Q r := by
  have step : ∀ inner : Option (Tree → Report),
      (∀ f, inner = some f → ∀ t, ∀ r ∈ (f t).records, Q r) →
      ∀ t, ∀ r ∈ (reportWith uninspected size inner t).records, Q r := by
    intro inner hinner t
    cases t with
    | scalar name => exact List.forall_mem_nil _
    | sequence items => exact Report.forall_records_ofSequence hinner size items
    | mapping entries => exact Report.forall_records_ofMapping hkey hinner entries
  induction levels generalizing t with
  | zero => exact step none (fun f hf => by cases hf) t
  | succ levels ih =>
    refine step _ (fun f hf => ?_) t
    cases hf
    exact ih

end Tree

theorem givenBySurvey_uncollapsed {uninspected : Shape}
    (hu : Everywhere Uncollapsed uninspected) : GivenBySurvey uninspected Uncollapsed where
  kept := keptByMerging_uncollapsed
  placeholder := hu
  scalar _ := trivial
  array _ _ _ := rfl
  object _ _ := rfl

/-- **Cycle detection is exact.**  From any containers that it may be in already, the walk yields
the report that is told the ancestors of each value, and leaves these containers as they were. For
an acyclic value this is the report on the tree of the value: nothing is collapsed, and no record
tells of a cycle. -/
theorem shapeAt_exact (h : Heap) (limit : Int) (o : Options) (levels depth : Nat)
    (entered : List NodeId) (v : Value) :
    let S : Survey := { heap := h, recursionLimit := limit }
    let r := S.report o.sampleSize levels depth entered v
    (S.shapeAt o.sampleSize levels depth v).Yields entered r.shape r.records ∧
      (h.Acyclic v → h.Apart v entered →
        (∃ t, h.Unfolds v t) ∧ (∀ t, h.Unfolds v t → r = t.report .null o.sampleSize levels) ∧
          Everywhere Uncollapsed r.shape ∧
          ∀ depth typeName, .cycleCollapsed depth typeName ∉ r.records) := by
  intro S r
  refine ⟨Survey.yields_shapeAt (Survey.namesKeys_of_unlimited rfl) o.sampleSize_pos depth,
    fun hv hapart => ?_⟩
  have htree : ∀ t, h.Unfolds v t → r = t.report .null o.sampleSize levels := fun t ht =>
    report_of_unfolds levels ht hv hapart
  obtain ⟨t, ht⟩ := hv.exists_unfolds
  refine ⟨⟨t, ht⟩, htree, ?_, fun depth typeName hr => ?_⟩
  · rw [htree t ht]
    exact t.everywhere_report (givenBySurvey_uncollapsed (everywhere_scalar.mpr trivial)) levels
  · rw [htree t ht] at hr
    exact t.forall_records_report (Q := (· ≠ .cycleCollapsed depth typeName)) (by simp) levels
      _ hr rfl

/-- The same container twice is no cycle. -/
theorem shapeAt_exact_shared :
    let h : Heap := #[.sequence "list" #[.scalar .null],
      .mapping "dict" [(.int 1, .node 0), (.text "1", .node 0), (.text "2", .node 0)]]
    let S : Survey := { heap := h }
    (S.shapeAt 100 8 0 (.node 1)).Yields []
      (.object ⟨[⟨"1", .array ⟨.exact 1, .null, false⟩, false⟩,
        ⟨"2", .array ⟨.exact 1, .null, false⟩, false⟩], false⟩) [.keySkipped (.text "1") "1"] ∧
    h.Acyclic (.node 1) ∧ ∃ t, h.Unfolds (.node 1) t := by
  intro h S
  have hb : h.BottomUp := by decide
  have hv : h.Acyclic (.node 1) := hb.acyclic _
  have hexact := shapeAt_exact h 1000 {} 8 0 [] (.node 1)
  exact ⟨hexact.1, hv, (hexact.2 hv fun _ _ => List.not_mem_nil).1⟩

end JsonShape
