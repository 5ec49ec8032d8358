import JsonShape.Proofs.Checked
import JsonShape.Proofs.Reordering
import JsonShape.Proofs.Report

/-!
# Regular shapes

Regular shapes are well-formed ones that say nothing twice: an array has one length or a range, a
choice has at least two alternatives, and where an array describes no element, `null` holds the
place.

* `keptByMerging_regularNode`: merging keeps shapes regular;
* `regular_report`, `level_report_le`: surveys give regular shapes, also for values that contain
  themselves, and these shapes are not deeper than the survey looks;
* `regular_shapes`: both together, with merging that checks the arrays it makes.
-/

namespace JsonShape

open Shape

/-! ## Extents -/

namespace Extent

/-- Either one length or a range in order, and nothing below zero. -/
def Regular : Extent → Prop
  | ⟨some n, none, none, _⟩ => 0 ≤ n
  | ⟨none, some least, some greatest, _⟩ => 0 ≤ least ∧ least ≤ greatest
  | _ => False

instance : DecidablePred Regular
  | ⟨some n, none, none, _⟩ => inferInstanceAs (Decidable (0 ≤ n))
  | ⟨none, some least, some greatest, _⟩ =>
    inferInstanceAs (Decidable (0 ≤ least ∧ least ≤ greatest))
  | ⟨some _, some _, _, _⟩ => isFalse id
  | ⟨some _, none, some _, _⟩ => isFalse id
  | ⟨none, none, _, _⟩ => isFalse id
  | ⟨none, some _, none, _⟩ => isFalse id

theorem regular_exact {n : Int} (hn : 0 ≤ n) : (exact n).Regular := hn

theorem Regular.bounds {e : Extent} (h : e.Regular) : 0 ≤ e.bounds.1 ∧ e.bounds.1 ≤ e.bounds.2 := by
  unfold Regular at h
  split at h
  · exact ⟨h, Int.le_refl _⟩
  · exact h
  · exact h.elim

theorem Regular.hull {a b : Extent} (ha : a.Regular) (hb : b.Regular) : (a.hull b).Regular := by
  have ha := ha.bounds
  have hb := hb.bounds
  show 0 ≤ min a.bounds.1 b.bounds.1 ∧
    min a.bounds.1 b.bounds.1 ≤ max a.bounds.2 b.bounds.2
  omega

/-- The same lengths, written as a range. -/
def ranged (e : Extent) : Extent := range e.bounds.1 e.bounds.2

theorem ranged_eq_ranged {e e' : Extent} (h : e.bounds = e'.bounds) : e.ranged = e'.ranged := by
  rw [ranged, ranged, h]

end Extent

namespace Shape

/-! ## Choices -/

/-- A choice has at least two alternatives. -/
def Plural : Shape → Prop
  | .choice vs => 2 ≤ vs.length
  | _ => True

instance : DecidablePred Plural
  | .choice vs => inferInstanceAs (Decidable (2 ≤ vs.length))
  | .scalar _ => inferInstanceAs (Decidable True)
  | .array _ => inferInstanceAs (Decidable True)
  | .object _ => inferInstanceAs (Decidable True)

theorem Plural.two_le_length {s : Shape} (h : Plural s) {vs : List Shape} (hs : s = .choice vs) :
    2 ≤ vs.length := by
  subst hs
  exact h

theorem Plural.alternatives_ne_nil {s : Shape} (h : Plural s) : s.alternatives ≠ [] := by
  cases s with
  | choice vs =>
    rintro rfl
    exact absurd h (by decide)
  | _ => exact List.cons_ne_nil _ _

theorem addAlternative_ne_nil (m : Shape → Shape → Shape) (vs : List Shape) (s : Shape) :
    addAlternative m vs s ≠ [] := by
  unfold addAlternative
  split
  · exact List.cons_ne_nil _ _
  · split <;> exact List.cons_ne_nil _ _

theorem foldl_addAlternative_ne_nil {m : Shape → Shape → Shape} {ss : List Shape} (hss : ss ≠ []) :
    ss.foldl (addAlternative m) [] ≠ [] := by
  obtain ⟨ss, s, rfl⟩ := List.eq_nil_or_concat ss |>.resolve_left hss
  rw [List.concat_eq_append, List.foldl_append]
  exact addAlternative_ne_nil m _ s

theorem keptByMerging_plural : KeptByMerging Plural where
  array _ _ _ _ _ := trivial
  object _ _ _ _ _ := trivial
  choice m a b ha _ us hus hlen := by
    subst hus
    have hne := foldl_addAlternative_ne_nil (m := m)
      (List.append_ne_nil_of_left_ne_nil ha.alternatives_ne_nil b.alternatives)
    have hpos := List.length_pos_iff.mpr hne
    show 2 ≤ _
    omega

/-! ## Regular nodes -/

/-- What is asked of one node. -/
def RegularNode : Shape → Prop
  | .scalar _ => True
  | .array a => a.extent.Regular ∧ NullPlaceholder (.array a)
  | .object o => (Field.names o.fields).Nodup ∧ (o.collapsed = true → o.fields = [])
  | .choice vs => 2 ≤ vs.length ∧ Flat vs

instance : DecidablePred RegularNode
  | .scalar _ => inferInstanceAs (Decidable True)
  | .array a => inferInstanceAs (Decidable (a.extent.Regular ∧ NullPlaceholder (.array a)))
  | .object _ => inferInstanceAs (Decidable (_ ∧ _))
  | .choice vs => inferInstanceAs (Decidable (2 ≤ vs.length ∧ Flat vs))

abbrev Regular (s : Shape) : Prop := Everywhere RegularNode s

theorem RegularNode.flat {s : Shape} (h : RegularNode s) : Flat s.alternatives := by
  apply flat_alternatives
  rintro vs rfl
  exact h.2

theorem RegularNode.plural {s : Shape} (h : RegularNode s) : Plural s := by
  cases s with
  | choice vs => exact h.1
  | _ => trivial

theorem RegularNode.two_le_length {s : Shape} (h : RegularNode s) (vs : List Shape)
    (hs : s = .choice vs) : 2 ≤ vs.length :=
  h.plural.two_le_length hs

theorem Regular.wellFormed {s : Shape} (h : s.Regular) : s.WellFormed := by
  intro t ht
  have hnode := h t ht
  cases t with
  | scalar name => trivial
  | array a =>
    have hbounds := hnode.1.bounds
    exact ⟨hbounds.1, Int.le_trans hbounds.1 hbounds.2⟩
  | object o => exact hnode
  | choice vs => exact hnode.2

/-! ## Merging -/

theorem keptByMerging_regularNode : KeptByMerging RegularNode where
  array m a b ha hb := by
    refine ⟨ha.1.hull hb.1, fun h => ?_⟩
    have hA := ha.1.bounds
    have hB := hb.1.bounds
    rw [ArrayOf.hasElement_merge (by omega) (by omega), Bool.or_eq_false_iff] at h
    rw [ArrayOf.element_merge, h.2]
    exact ha.2 h.1
  object := keptByMerging_wellFormedNode.object
  choice m a b ha hb us hus hlen := by
    refine ⟨keptByMerging_plural.choice m a b ha.plural hb.plural us hus hlen, ?_⟩
    subst hus
    apply flat_foldl_addAlternative
    rw [kinds_append, List.mem_append]
    exact fun h => h.elim ha.flat.2 hb.flat.2

theorem regular_merge {a b : Shape} (ha : a.Regular) (hb : b.Regular) : (merge a b).Regular :=
  keptByMerging_regularNode.everywhere_merge ha hb

theorem merge_object (a b : ObjectOf Shape) :
    merge (.object a) (.object b) = .object (a.merge merge b) := by
  rw [merge_eq]
  rfl

theorem merge_array (a b : ArrayOf Shape) :
    merge (.array a) (.array b) = .array (a.merge merge b) := by
  rw [merge_eq]
  rfl

end Shape

/-! ## Surveys -/

theorem givenBySurvey_regularNode : GivenBySurvey .null RegularNode where
  kept := keptByMerging_regularNode
  placeholder := everywhere_scalar.mpr trivial
  scalar _ := trivial
  array n s hs := by
    refine ⟨Extent.regular_exact (Int.natCast_nonneg n), fun h => hs ?_⟩
    simpa [ArrayOf.hasElement, ArrayOf.isEmpty, Extent.isEmpty] using h
  object fields hfields := ⟨hfields, fun hc => by cases hc⟩

namespace Survey

theorem regular_collapsed {S : Survey} (hS : S.uninspected = .null) (c : Container) :
    (S.collapsed c).Regular := by
  cases c with
  | sequence t items =>
    rw [collapsed, hS]
    exact everywhere_array.mpr
      ⟨⟨Extent.regular_exact (Int.natCast_nonneg _), fun _ => rfl⟩, everywhere_scalar.mpr trivial⟩
  | mapping t entries =>
    exact everywhere_object.mpr ⟨⟨List.nodup_nil, fun _ => rfl⟩, List.forall_mem_nil _⟩

theorem regular_report {S : Survey} (hS : S.uninspected = .null) (size levels depth : Nat)
    (ancestors : List NodeId) (v : Value) :
    (S.report size levels depth ancestors v).shape.Regular :=
  everywhere_report (hS ▸ givenBySurvey_regularNode) (regular_collapsed hS) levels depth ancestors v

end Survey

/-- **Shapes are regular.**  Merging shapes, objects or arrays keeps them regular, and never makes
an array whose extent is open. A survey whose options are integers gives a regular shape for every
value, and no choice at its root. The shape has at most one level more than the survey inspects. -/
theorem regular_shapes :
    (∀ a b : Shape, a.Regular → b.Regular →
      (merge a b).Regular ∧ mergeChecked a b = .ok (merge a b)) ∧
    (∀ a b : ObjectOf Shape, (object a).Regular → (object b).Regular →
      (object (a.merge merge b)).Regular ∧ a.mergeChecked mergeChecked b = .ok (a.merge merge b)) ∧
    (∀ a b : ArrayOf Shape, (array a).Regular → (array b).Regular →
      (array (a.merge merge b)).Regular ∧ a.mergeChecked mergeChecked b = .ok (a.merge merge b)) ∧
    ∀ (h : Heap) (limit : Int) (base : Option Options) (sampleSize maxDepth : Option Int)
      (v : Value) (log : Array Record), ∃ s log',
        (({ heap := h, recursionLimit := limit } : Survey).infer
          (.ofIntegers base sampleSize maxDepth) v).run log = .ok s log' ∧
        s.Regular ∧ s.kind ≠ .choice ∧
        s.level ≤ min (maxDepth.getD (base.getD {}).maxDepth).toNat (greatestDepth limit) + 1 := by
  refine ⟨fun a b ha hb => ⟨regular_merge ha hb, ?_⟩, fun a b ha hb => ⟨?_, ?_⟩,
    fun a b ha hb => ⟨?_, ?_⟩, fun h limit base sampleSize maxDepth v log => ?_⟩
  · rw [mergeChecked_eq_ok]
  · rw [← merge_object]
    exact regular_merge ha hb
  · rw [mergeChecked_eq_ok]
    exact ObjectOf.mergeChecked_pure merge a b
  · rw [← merge_array]
    exact regular_merge ha hb
  · rw [mergeChecked_eq_ok]
    exact ArrayOf.mergeChecked_pure merge a b
  · obtain ⟨log', ho⟩ := Request.options_ofIntegers_run base sampleSize maxDepth log
    obtain ⟨log'', hrun⟩ := Survey.infer_run (S := { heap := h, recursionLimit := limit }) ho
      (v := v) (Survey.namesKeys_of_unlimited rfl)
    exact ⟨_, log'', hrun, Survey.regular_report rfl _ _ _ _ v,
      Survey.kind_report_ne_choice _ _ _ v, Survey.level_report_le rfl _ _ _ v⟩

/-- The arrays that are merged are empty or collapsed, one object is collapsed, and the list that is
surveyed contains itself. -/
theorem regular_shapes_placeholder :
    let empty : ArrayOf Shape := ⟨.exact 0, .null, false⟩
    let withheld : ArrayOf Shape := ⟨.range 0 2, .null, true⟩
    let keyless : ObjectOf Shape := ⟨[], true⟩
    let keyed : ObjectOf Shape := ⟨[⟨"a", .array empty, false⟩], false⟩
    let varied : Shape := .choice [.null, .array empty]
    let h : Heap := #[.sequence "list" #[.node 0, .scalar (.int 1)]]
    let S : Survey := { heap := h }
    let s : Shape := .array ⟨.exact 2, .choice [.array ⟨.exact 2, .null, true⟩, .number], false⟩
    (merge varied (.array withheld)).Regular ∧
      mergeChecked varied (.array withheld) = .ok (.choice [.null, .array withheld]) ∧
    (Shape.object (keyless.merge merge keyed)).Regular ∧
      keyless.mergeChecked mergeChecked keyed = .ok ⟨[⟨"a", .array empty, true⟩], false⟩ ∧
    (Shape.array (empty.merge merge withheld)).Regular ∧
      empty.mergeChecked mergeChecked withheld = .ok withheld ∧
    (∃ log, (S.infer (.ofIntegers none none (some 1)) (.node 0)).run #[] = .ok s log) ∧
      s.Regular ∧ s.kind ≠ .choice ∧ s.level ≤ 2 := by
  intro empty withheld keyless keyed varied h S s
  obtain ⟨hmerge, hobjects, harrays, hinfer⟩ := regular_shapes
  obtain ⟨hvaried, hvaried'⟩ := hmerge varied (.array withheld) (by decide) (by decide)
  obtain ⟨hkeyed, hkeyed'⟩ := hobjects keyless keyed (by decide) (by decide)
  obtain ⟨hwithheld, hwithheld'⟩ := harrays empty withheld (by decide) (by decide)
  obtain ⟨s', log, hs, hregular, hkind, hlevel⟩ := hinfer h 1000 none none (some 1) (.node 0) #[]
  have hrun : ∃ log, (S.infer (.ofIntegers none none (some 1)) (.node 0)).run #[] = .ok s log :=
    Survey.infer_run (o := .clamp 100 1) rfl (Survey.namesKeys_of_unlimited rfl)
  obtain ⟨_, hs'⟩ := hrun
  cases hs.symm.trans hs'
  refine ⟨hvaried, hvaried'.trans ?_, hkeyed, hkeyed'.trans ?_, hwithheld, hwithheld'.trans ?_,
    ⟨log, hs⟩, hregular, hkind, hlevel⟩
  · rw [merge_eq]
    rfl
  · rfl
  · rfl

end JsonShape
