import JsonShape.Proofs.Total
import Mathlib.Data.Finset.Card

/-!
# Enough depth is enough

A survey collapses a container that it is in already, so it is never in more containers than the
value has. A depth limit of as many levels cuts nothing off, and neither does any greater one.

* `Visits.length_lt_card`: what is entered is not yet all that there is to enter;
* `report_congr`: with that many levels left, more of them make no difference to a report;
* `sealedAt_report`, `renderAt_congr`: at that depth all containers of the shape are collapsed or
  empty, so that its text is the same for each limit;
* `answers_of_enough_depth`: hence the answers of surveys do not depend on the limit.
-/

namespace JsonShape

open Shape

/-! ## The containers of a value -/

namespace Heap

variable {h : Heap} {root v w : Value} {path : List NodeId} {i : NodeId} {c : Container}

open Classical in
/-- The containers of a value: itself, if it is one, and those that it refers to. -/
noncomputable def containers (h : Heap) (v : Value) : Finset NodeId :=
  (Finset.range h.size).filter (h.Reaches v)

theorem mem_containers {j : NodeId} : j ∈ h.containers v ↔ j < h.size ∧ h.Reaches v j := by
  simp only [containers, Finset.mem_filter, Finset.mem_range]

theorem card_containers_le (h : Heap) (v : Value) : (h.containers v).card ≤ h.size := by
  have hsub : h.containers v ⊆ Finset.range h.size := fun j hj =>
    Finset.mem_range.mpr (mem_containers.mp hj).1
  have hcard := Finset.card_le_card hsub
  rwa [Finset.card_range] at hcard

/-- A walk from the root may be at the value, and in the containers on the path. -/
structure Visits (h : Heap) (root : Value) (path : List NodeId) (v : Value) : Prop where
  nodup : path.Nodup
  entered : ∀ i ∈ path, i ∈ h.containers root
  ahead : h.containers v ⊆ h.containers root

theorem visits_root (h : Heap) (root : Value) : h.Visits root [] root where
  nodup := List.nodup_nil
  entered := List.forall_mem_nil _
  ahead := Finset.Subset.refl _

theorem Visits.enter (hv : h.Visits root path (.node i)) (hc : h[i]? = some c) (hi : i ∉ path) :
    (i :: path).Nodup ∧ ∀ j ∈ i :: path, j ∈ h.containers root := by
  have hlt : i < h.size := (Array.getElem?_eq_some_iff.mp hc).1
  refine ⟨List.nodup_cons.mpr ⟨hi, hv.nodup⟩, List.forall_mem_cons.mpr ⟨?_, hv.entered⟩⟩
  exact hv.ahead (mem_containers.mpr ⟨hlt, i, rfl, .refl⟩)

theorem Visits.part (hv : h.Visits root path (.node i)) (hc : h[i]? = some c) (hi : i ∉ path)
    (hw : w ∈ c.parts) : h.Visits root (i :: path) w where
  nodup := (hv.enter hc hi).1
  entered := (hv.enter hc hi).2
  ahead j hj := by
    obtain ⟨hlt, hreach⟩ := mem_containers.mp hj
    exact hv.ahead (mem_containers.mpr ⟨hlt, hreach.part hc hw⟩)

/-- A container that is entered now is one more of the value. -/
theorem Visits.length_lt_card (hv : h.Visits root path (.node i)) (hc : h[i]? = some c)
    (hi : i ∉ path) : path.length < (h.containers root).card := by
  obtain ⟨hnodup, hentered⟩ := hv.enter hc hi
  have hsub : (i :: path).toFinset ⊆ h.containers root := fun j hj =>
    hentered j (List.mem_toFinset.mp hj)
  have hle := Finset.card_le_card hsub
  rwa [List.toFinset_card_of_nodup hnodup] at hle

end Heap

/-! ## Reports with more levels -/

namespace Survey

variable {S : Survey} {size depth : Nat} {ancestors : List NodeId} {root v : Value}

theorem reportWith_congr {inner inner' : Option (List NodeId → Value → Report)}
    (h : ∀ i c, v = .node i → S.heap[i]? = some c → i ∉ ancestors → Option.Rel
      (fun f g => ∀ w ∈ c.parts, f (i :: ancestors) w = g (i :: ancestors) w) inner inner') :
    S.reportWith size inner depth ancestors v = S.reportWith size inner' depth ancestors v := by
  cases v with
  | scalar s => rfl
  | foreign t => rfl
  | node i =>
    rw [reportWith, reportWith]
    cases hc : S.heap[i]? with
    | none => rfl
    | some c =>
      by_cases hin : i ∈ ancestors
      · simp only [if_pos hin]
      · simp only [if_neg hin]
        have hparts := h i c rfl hc hin
        cases c with
        | sequence t items =>
          refine Report.ofSequence_congr _ _ rfl ?_
          cases hparts with
          | none => exact .none
          | some hfg => exact .some (List.map_congr_left hfg)
        | mapping t entries =>
          refine Report.ofMapping_congr rfl ?_
          cases hparts with
          | none => exact .none
          | some hfg => exact .some (List.map_congr_left hfg)

/-- The induction is on the levels of one side. Where a container is entered, there are levels left
on both. -/
theorem report_congr {levels levels' : Nat} (hv : S.heap.Visits root ancestors v)
    (hle : (S.heap.containers root).card ≤ ancestors.length + levels)
    (hle' : (S.heap.containers root).card ≤ ancestors.length + levels') :
    S.report size levels depth ancestors v = S.report size levels' depth ancestors v := by
  induction levels generalizing levels' depth ancestors v with
  | zero =>
    have hnone : ∀ i c, v = .node i → S.heap[i]? = some c → i ∈ ancestors := by
      rintro i c rfl hc
      by_contra hin
      have hlt := hv.length_lt_card hc hin
      omega
    cases levels' <;>
      exact reportWith_congr fun i c hi hc hin => absurd (hnone i c hi hc) hin
  | succ levels ih =>
    cases levels' with
    | zero =>
      refine reportWith_congr fun i c hi hc hin => ?_
      subst hi
      have hlt := hv.length_lt_card hc hin
      omega
    | succ levels' =>
      refine reportWith_congr fun i c hi hc hin => .some fun w hw => ?_
      subst hi
      refine ih (hv.part hc hin hw) ?_ ?_
      · rw [List.length_cons]
        omega
      · rw [List.length_cons]
        omega

end Survey

/-! ## Shapes that no limit cuts -/

namespace Shape

/-- A shape whose text does not tell whether there is a limit. -/
def Sealed : Shape → Prop
  | .scalar _ => True
  | .array a => a.hasElement = false
  | .object o => o.fields = [] ∧ o.collapsed = true
  | .choice _ => False

/-- So many containers below a shape, all that is left is sealed. -/
def SealedAt : Nat → Shape → Prop
  | 0, s => ∀ v ∈ s.alternatives, v.Sealed
  | n + 1, s => ∀ t, Inside s t → SealedAt n t

theorem sealedAt_scalar (n : Nat) (name : String) : SealedAt n (.scalar name) := by
  cases n with
  | zero => exact List.forall_mem_singleton.mpr trivial
  | succ n =>
    intro t ht
    cases ht with
    | element ha => cases List.mem_singleton.mp ha
    | field ho _ => cases List.mem_singleton.mp ho

theorem sealed_unite {v s : Shape} (hv : v.WellFormed) (hs : s.WellFormed) (hv' : v.Sealed)
    (hs' : s.Sealed) (hk : v.kind = s.kind) : (unite merge v s).Sealed := by
  match v, s, hk with
  | .scalar _, .scalar _, _ => trivial
  | .array a, .array b, _ =>
    show (a.merge merge b).hasElement = false
    rw [ArrayOf.hasElement_merge hv.self.2 hs.self.2, hv', hs']
    rfl
  | .object a, .object b, _ =>
    have hempty : (a.merge merge b).fields.isEmpty = true := by
      rw [ObjectOf.isEmpty_fields_merge, hv'.1, hs'.1]
      rfl
    refine ⟨List.isEmpty_iff.mp hempty, ?_⟩
    rw [ObjectOf.collapsed_merge, hv'.1, hs'.1, hv'.2]
    rfl
  | .choice _, .choice _, _ => exact hv'

theorem sealedAt_merge {n : Nat} {a b : Shape} (ha : a.WellFormed) (hb : b.WellFormed)
    (ha' : SealedAt n a) (hb' : SealedAt n b) : SealedAt n (merge a b) := by
  induction n generalizing a b with
  | zero =>
    intro u hu
    rcases mem_alternatives_merge ha.flat hb.flat hu with hu | hu | ⟨v, hv, s, hs, hk, rfl⟩
    · exact ha' u hu
    · exact hb' u hu
    · exact sealed_unite (ha.alternative hv) (hb.alternative hs) (ha' v hv) (hb' s hs) hk
  | succ n ih =>
    intro t ht
    rcases inside_merge ha.flat hb.flat ht with ht | ht | ⟨t₁, t₂, ht₁, ht₂, rfl⟩
    · exact ha' t ht
    · exact hb' t ht
    · exact ih (ha.inside ht₁) (hb.inside ht₂) (ha' t₁ ht₁) (hb' t₂ ht₂)

section Render

variable {limit limit' depth indent : Nat}

theorem renderAt_sealed {v : Shape} (hv : v.Sealed) :
    renderAt limit depth indent v = renderAt limit' depth indent v := by
  cases v with
  | scalar name => rfl
  | array a =>
    rw [renderAt, renderAt]
    by_cases hempty : a.isEmpty = true
    · rw [if_pos hempty, if_pos hempty]
    · have hcollapsed : a.collapsed = true := by
        simpa [ArrayOf.hasElement, hempty] using (show a.hasElement = false from hv)
      simp only [hcollapsed, true_or, if_true]
  | object o =>
    rw [renderAt, renderAt]
    simp only [hv.1, hv.2, List.isEmpty_nil, true_or, if_true]
  | choice vs => exact hv.elim

/-- Both limits lie below the containers of the shape itself. -/
theorem renderAt_congr_of_inside {v : Shape} (hv : v.kind ≠ .choice) (hlt : depth < limit)
    (hlt' : depth < limit') (hinside : ∀ t, Inside v t → ∀ indent,
      renderAt limit (depth + 1) indent t = renderAt limit' (depth + 1) indent t) :
    renderAt limit depth indent v = renderAt limit' depth indent v := by
  have hle : ¬ limit ≤ depth := by omega
  have hle' : ¬ limit' ≤ depth := by omega
  cases v with
  | scalar name => rfl
  | array a =>
    have helement := hinside a.element (.element List.mem_cons_self)
    rw [renderAt, renderAt]
    simp only [hle, hle', or_false, helement]
  | object o =>
    have hfields : ∀ indent, renderFields limit (depth + 1) indent o.fields =
        renderFields limit' (depth + 1) indent o.fields := by
      intro indent
      rw [renderFields_eq_map, renderFields_eq_map]
      refine List.map_congr_left fun f hf => ?_
      rw [hinside f.shape (.field List.mem_cons_self hf)]
    rw [renderAt, renderAt]
    simp only [hle, hle', or_false, hfields]
  | choice vs => exact absurd rfl hv

theorem renderAt_congr_of_alternatives {s : Shape} (h : ∀ v ∈ s.alternatives,
      renderAt limit depth indent v = renderAt limit' depth indent v) :
    renderAt limit depth indent s = renderAt limit' depth indent s := by
  cases s with
  | choice vs =>
    rw [renderAt, renderAt, renderAlternatives_eq_map, renderAlternatives_eq_map]
    exact congrArg _ (List.map_congr_left h)
  | _ => exact h _ List.mem_cons_self

/-- The induction is on the levels down to where the shape is sealed. -/
theorem renderAt_congr {n : Nat} {s : Shape} (hs : s.WellFormed) (hsealed : SealedAt n s)
    (hle : depth + n ≤ limit) (hle' : depth + n ≤ limit') :
    renderAt limit depth indent s = renderAt limit' depth indent s := by
  induction n generalizing s depth indent with
  | zero => exact renderAt_congr_of_alternatives fun v hv => renderAt_sealed (hsealed v hv)
  | succ n ih =>
    refine renderAt_congr_of_alternatives fun v hv => ?_
    refine renderAt_congr_of_inside (hs.flat.kind_ne_choice hv) (by omega) (by omega) ?_
    intro t ht indent
    have hts := hs.flat.inside hv ht
    exact ih (hs.inside hts) (hsealed t hts) (by omega) (by omega)

end Render

end Shape

/-! ## Reports are sealed -/

namespace Survey

variable {S : Survey} {size depth : Nat} {ancestors : List NodeId} {root v : Value}

theorem sealedAt_collapsed (hS : ∀ n, SealedAt n S.uninspected) (n : Nat) (c : Container) :
    SealedAt n (S.collapsed c) := by
  cases n with
  | zero =>
    cases c with
    | sequence t items =>
      refine List.forall_mem_singleton.mpr ?_
      show (⟨.exact items.size, S.uninspected, true⟩ : ArrayOf Shape).hasElement = false
      simp [ArrayOf.hasElement]
    | mapping t entries => exact List.forall_mem_singleton.mpr ⟨rfl, rfl⟩
  | succ n =>
    intro t ht
    cases c with
    | sequence typeName items =>
      cases ht with
      | element ha =>
        cases List.mem_singleton.mp ha
        exact hS n
      | field ho _ => cases List.mem_singleton.mp ho
    | mapping typeName entries =>
      cases ht with
      | element ha => cases List.mem_singleton.mp ha
      | field ho hf =>
        cases List.mem_singleton.mp ho
        cases hf

/-- The induction is on the levels down to which the report need not be sealed. Each container that
is entered takes one. -/
theorem sealedAt_report (hS : S.uninspected.WellFormed) (hS' : ∀ n, SealedAt n S.uninspected)
    {n levels : Nat} (hv : S.heap.Visits root ancestors v)
    (hn : (S.heap.containers root).card ≤ ancestors.length + n) (hle : n ≤ levels) :
    SealedAt n (S.report size levels depth ancestors v).shape := by
  induction n generalizing levels depth ancestors v with
  | zero =>
    have step : ∀ inner : Option (List NodeId → Value → Report),
        SealedAt 0 (S.reportWith size inner depth ancestors v).shape := by
      intro inner
      refine shape_reportWith_cases (fun name _ => sealedAt_scalar 0 name)
        (fun _ c _ _ _ => sealedAt_collapsed hS' 0 c) (fun i c hi hc hin => ?_)
      subst hi
      have hlt := hv.length_lt_card hc hin
      omega
    cases levels with
    | zero => exact step none
    | succ levels => exact step _
  | succ n ih =>
    cases levels with
    | zero => omega
    | succ levels =>
      refine shape_reportWith_cases (fun name _ => sealedAt_scalar _ name)
        (fun _ c _ _ _ => sealedAt_collapsed hS' _ c) (fun i c hi hc hin => ?_)
      subst hi
      have hparts : ∀ w ∈ c.parts,
          (S.report size levels (depth + 1) (i :: ancestors) w).shape.WellFormed ∧
            SealedAt n (S.report size levels (depth + 1) (i :: ancestors) w).shape := by
        intro w hw
        refine ⟨wellFormed_report hS _ _ _ _, ih (hv.part hc hin hw) ?_ (by omega)⟩
        rw [List.length_cons]
        omega
      intro t ht
      refine (forall_inside_reportContainer (Q := fun s => s.WellFormed ∧ SealedAt n s)
        (fun s t hs ht => ⟨wellFormed_merge hs.1 ht.1, sealedAt_merge hs.1 ht.1 hs.2 ht.2⟩)
        ⟨hS, hS' n⟩ (fun f hf w hw => ?_) t ht).2
      cases hf
      exact hparts w hw

/-- Where the levels suffice, so do more, and the text of the shape is the same for each of them. -/
theorem answers_of_card_le (h : Heap) (limit : Int) (size : Nat) (v : Value) : ∃ s text,
    ∀ (r : Request) (o : Options), (∀ log, ∃ log', r.options.run log = .ok o log') →
      o.sampleSize = size → (h.containers v).card ≤ min o.maxDepth (greatestDepth limit) →
      ({ heap := h, recursionLimit := limit } : Survey).Answers r v s text := by
  let S : Survey := { heap := h, recursionLimit := limit }
  let n := (h.containers v).card
  let s := (S.report size n 0 [] v).shape
  refine ⟨s, s.render n, fun r o ho hsize hle => ?_⟩
  subst hsize
  have hroot := h.visits_root v
  have hreport : S.report o.sampleSize (min o.maxDepth (greatestDepth limit)) 0 [] v =
      S.report o.sampleSize n 0 [] v :=
    report_congr hroot (by simpa using hle) (by simp [n, S])
  have hsealed : SealedAt n s :=
    sealedAt_report (wellFormed_scalar _) (fun n => sealedAt_scalar n _) hroot (by simp [n, S])
      (Nat.le_refl n)
  have hrender : s.render (min o.maxDepth (greatestDepth limit)) = s.render n :=
    Shape.renderAt_congr (wellFormed_report (wellFormed_scalar _) _ _ _ _) hsealed
      (by omega) (by omega)
  rw [← hrender]
  simp only [s, ← hreport]
  exact answers_of_options ho rfl (namesKeys_of_unlimited rfl)

end Survey

/-- **Enough depth is enough.**  For a host that allows as many levels as the value has containers,
all depth limits from that number on have the same shape and the same text for an answer, also where
containers contain themselves. For any host, so have all depth limits from the greatest on that it
allows. -/
theorem answers_of_enough_depth (h : Heap) (limit : Int) (base : Option Options)
    (sampleSize : Option Int) (v : Value) :
    let S : Survey := { heap := h, recursionLimit := limit }
    ((h.containers v).card ≤ greatestDepth limit → ∃ s text, ∀ d : Int, (h.containers v).card ≤ d →
      S.Answers (.ofIntegers base sampleSize (some d)) v s text) ∧
    ∃ s text, ∀ d : Int, greatestDepth limit ≤ d →
      S.Answers (.ofIntegers base sampleSize (some d)) v s text := by
  intro S
  let size := (Options.clamp (sampleSize.getD (base.getD {}).sampleSize) 0).sampleSize
  have ho := fun d : Int => Request.options_ofIntegers_run base sampleSize (some d)
  constructor
  · intro hlimit
    obtain ⟨s, text, hanswers⟩ := Survey.answers_of_card_le h limit size v
    refine ⟨s, text, fun d hd => hanswers _ _ (ho d) rfl ?_⟩
    show _ ≤ min d.toNat (greatestDepth limit)
    omega
  · let levels := greatestDepth limit
    let s := (S.report size levels 0 [] v).shape
    refine ⟨s, s.render levels, fun d hd =>
      Survey.answers_of_options (ho d) ?_ (Survey.namesKeys_of_unlimited rfl)⟩
    show min d.toNat (greatestDepth limit) = levels
    omega

/-- A list that contains itself and another list. -/
theorem answers_of_enough_depth_cycle :
    let h : Heap := #[.sequence "list" #[.node 0, .node 1], .sequence "list" #[.scalar (.int 1)]]
    (h.containers (.node 0)).card ≤ greatestDepth 1000 ∧
    ∃ s, ∀ d : Int, 2 ≤ d → ({ heap := h } : Survey).Answers (.ofIntegers none none (some d))
      (.node 0) s "Array(2) of Array(1-2) of number" := by
  intro h
  have hcard : (h.containers (.node 0)).card ≤ 2 := h.card_containers_le _
  have hlimit : (h.containers (.node 0)).card ≤ greatestDepth 1000 := hcard.trans (by decide)
  obtain ⟨s, text, hanswers⟩ := (answers_of_enough_depth h 1000 none none (.node 0)).1 hlimit
  obtain ⟨-, log, htext⟩ := hanswers 2 (by omega) #[]
  obtain ⟨-, log', htext'⟩ := Survey.answers_of_options (S := { heap := h })
    (Request.options_ofIntegers_run none none (some 2)) (v := .node 0)
    (show min 2 (greatestDepth 1000) = 2 by decide) (Survey.namesKeys_of_unlimited rfl) #[]
  cases htext.symm.trans htext'
  exact ⟨hlimit, s, fun d hd => hanswers d (by omega)⟩

end JsonShape
