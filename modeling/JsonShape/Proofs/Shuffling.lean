import JsonShape.Proofs.Reordering
import JsonShape.Proofs.Summary
import Mathlib.Data.Multiset.Bind

/-!
# The order of the data matters only for order and for optional keys

`Shuffled h h' v w` says that `w` is `v` with the elements of sequences and the entries of mappings
in another order, at any levels.

* `reordered_summary`: where no sequence is sampled and no names collide, shuffled values have the
  same summary up to the order of keys and alternatives;
* `infer_shuffled`: so surveys infer the same, up to that order and to optional keys.
-/

namespace JsonShape

open Shape

/-! ## Lists related up to order -/

section UpToOrder

variable {α β γ δ : Type} {R : α → β → Prop} {P : γ → δ → Prop} {l : List α} {l' : List β}

theorem perm_map_of_rel (h : Multiset.Rel R ↑l ↑l') {f : α → γ} {g : β → γ}
    (hfg : ∀ x y, R x y → f x = g y) : (l.map f).Perm (l'.map g) := by
  have hmap : Multiset.Rel (fun x y => f x = g y) ↑l ↑l' := h.mono fun x _ y _ => hfg x y
  exact Multiset.coe_eq_coe.mp (Multiset.rel_eq.mp (Multiset.rel_map.mpr hmap))

theorem rel_flatMap (h : Multiset.Rel R ↑l ↑l') {f : α → List γ} {g : β → List δ}
    (hfg : ∀ x y, R x y → Multiset.Rel P ↑(f x) ↑(g y)) :
    Multiset.Rel P ↑(l.flatMap f) ↑(l'.flatMap g) := by
  rw [← Multiset.coe_bind, ← Multiset.coe_bind]
  exact Multiset.rel_bind hfg h

theorem rel_filterMap (h : Multiset.Rel R ↑l ↑l') {f : α → Option γ} {g : β → Option δ}
    (hfg : ∀ x y, R x y → Option.Rel P (f x) (g y)) :
    Multiset.Rel P ↑(l.filterMap f) ↑(l'.filterMap g) := by
  rw [List.filterMap_eq_flatMap_toList, List.filterMap_eq_flatMap_toList]
  refine rel_flatMap h fun x y hxy => ?_
  have hopt := hfg x y hxy
  generalize f x = o, g y = o' at hopt
  cases hopt with
  | none => exact .zero
  | some hP => exact .cons hP .zero

theorem rel_of_perm {l'' : List β} (hp : l'.Perm l'') (h : List.Forall₂ R l l'') :
    Multiset.Rel R ↑l ↑l' := by
  rw [Multiset.coe_eq_coe.mpr hp]
  induction h generalizing l' with
  | nil => exact .zero
  | cons hR _ ih => exact .cons hR (ih (.refl _))

end UpToOrder

/-! ## Shuffled values -/

/-- The entries have one name, and their values are related. -/
inductive EntryRel (R : Value → Value → Prop) : Scalar × Value → Scalar × Value → Prop
  | intro {key key' : Scalar} {v w : Value} (hlabel : key.label = key'.label) (hvalue : R v w) :
    EntryRel R (key, v) (key', w)

/-- The values, each in its heap, agree up to the order of elements and entries at every level. -/
inductive Shuffled (h h' : Heap) : Value → Value → Prop
  | scalar {v w : Value} {name : String} (hv : h.view v = .scalar name)
    (hw : h'.view w = .scalar name) : Shuffled h h' v w
  | sequence {v w : Value} {xs ys : Array Value} (hv : h.view v = .sequence xs)
    (hw : h'.view w = .sequence ys) (hp : Multiset.Rel (Shuffled h h') ↑xs.toList ↑ys.toList) :
    Shuffled h h' v w
  | mapping {v w : Value} {es es' : List (Scalar × Value)} (hv : h.view v = .mapping es)
    (hw : h'.view w = .mapping es')
    (hp : Multiset.Rel (EntryRel (Shuffled h h')) ↑es ↑es') : Shuffled h h' v w

/-- The names of the keys of a container, if it is a mapping. -/
def Container.labels : Container → List String
  | .sequence .. => []
  | .mapping _ entries => entries.map (·.1.label)

/-- No two keys of a mapping that is reached from the value have one name. -/
def Heap.LabelsNodup (h : Heap) (v : Value) : Prop :=
  ∀ j c, h.Reaches v j → h[j]? = some c → c.labels.Nodup

theorem Heap.LabelsNodup.part {h : Heap} {i : NodeId} {c : Container} {v : Value}
    (hi : h.LabelsNodup (.node i)) (hc : h[i]? = some c) (hv : v ∈ c.parts) : h.LabelsNodup v :=
  fun j c' hj => hi j c' (hj.part hc hv)

theorem Heap.labelsNodup_of_forall_mem {h : Heap} (hc : ∀ c ∈ h.toList, c.labels.Nodup)
    (v : Value) : h.LabelsNodup v :=
  fun _ c _ hj => hc c (List.mem_of_getElem? (Array.getElem?_toList.trans hj))

/-! ## What a summary sees of shuffled values -/

section Match

variable (R : Value → Value → Prop) (size : Nat)

/-- The sequences are inspected whole, and their elements are related up to order. -/
def SequencesMatch (xs ys : Array Value) : Prop :=
  xs.size ≤ size ∧ Multiset.Rel R ↑xs.toList ↑ys.toList

/-- The names do not repeat, and the entries are related up to order. -/
def MappingsMatch (es es' : List (Scalar × Value)) : Prop :=
  (es.map (·.1.label)).Nodup ∧ Multiset.Rel (EntryRel R) ↑es ↑es'

/-- What is seen of two values agrees up to order where it is related by `R`. -/
inductive ViewsMatch : View → View → Prop
  | scalar (name : String) : ViewsMatch (.scalar name) (.scalar name)
  | sequence {xs ys : Array Value} (h : SequencesMatch R size xs ys) :
    ViewsMatch (.sequence xs) (.sequence ys)
  | mapping {es es' : List (Scalar × Value)} (h : MappingsMatch R es es') :
    ViewsMatch (.mapping es) (.mapping es')

end Match

variable {R : Value → Value → Prop} {size : Nat}

theorem SequencesMatch.size_eq {xs ys : Array Value} (h : SequencesMatch R size xs ys) :
    xs.size = ys.size := by
  have hcard := Multiset.card_eq_card_of_rel h.2
  simpa using hcard

theorem EntryRel.label_eq {e e' : Scalar × Value} (h : EntryRel R e e') :
    e.1.label = e'.1.label := by
  cases h
  assumption

theorem MappingsMatch.labels_perm {es es' : List (Scalar × Value)} (h : MappingsMatch R es es') :
    (es.map (·.1.label)).Perm (es'.map (·.1.label)) :=
  perm_map_of_rel h.2 fun _ _ => EntryRel.label_eq

/-- Where names do not repeat, it does not matter which value comes first. -/
theorem MappingsMatch.first? {es es' : List (Scalar × Value)} (h : MappingsMatch R es es')
    (name : String) : Option.Rel R (first? es name) (first? es' name) := by
  cases hv : JsonShape.first? es name with
  | none =>
    have hnot := mt h.labels_perm.mem_iff.mpr (first?_eq_none_iff.mp hv)
    rw [first?_eq_none_iff.mpr hnot]
    exact .none
  | some v =>
    obtain ⟨e, he, rfl⟩ := Option.map_eq_some_iff.mp hv
    obtain ⟨e', he', hR⟩ := Multiset.exists_mem_of_rel_of_mem h.2
      (Multiset.mem_coe.mpr (List.mem_of_find?_eq_some he))
    have hkey : e.1.label = name := by simpa using List.find?_some he
    have hname : e'.1.label = name := hR.label_eq.symm.trans hkey
    have hfind : es'.find? (·.1.label == name) = some e' :=
      (Keyed.find?_eq_some_iff (h.labels_perm.nodup_iff.mp h.1)).mpr
        ⟨Multiset.mem_coe.mp he', hname⟩
    rw [JsonShape.first?, hfind]
    cases hR
    exact .some (by assumption)

theorem ViewsMatch.kind_eq {x y : View} (h : ViewsMatch R size x y) : x.kind = y.kind := by
  cases h <;> rfl

theorem ViewsMatch.items? {x y : View} (h : ViewsMatch R size x y) :
    Option.Rel (SequencesMatch R size) x.items? y.items? := by
  cases h with
  | sequence h => exact .some h
  | _ => exact .none

theorem ViewsMatch.entries? {x y : View} (h : ViewsMatch R size x y) :
    Option.Rel (MappingsMatch R) x.entries? y.entries? := by
  cases h with
  | mapping h => exact .some h
  | _ => exact .none

/-- Shuffled values in which no sequence is sampled and no names collide. -/
structure ShuffledWhole (h h' : Heap) (size : Nat) (v w : Value) : Prop where
  shuffled : Shuffled h h' v w
  lengthsLe : h.LengthsLe size v
  labelsNodup : h.LabelsNodup v

theorem ShuffledWhole.viewsMatch {h h' : Heap} {v w : Value} (hs : ShuffledWhole h h' size v w) :
    ViewsMatch (ShuffledWhole h h' size) size (h.view v) (h'.view w) := by
  obtain ⟨hs, hlen, hlabels⟩ := hs
  cases hs with
  | scalar hv hw =>
    rw [hv, hw]
    exact .scalar _
  | sequence hv hw hp =>
    rw [hv, hw]
    obtain ⟨i, t, rfl, hc⟩ := Heap.view_eq_sequence hv
    refine .sequence ⟨hlen i t _ ⟨i, rfl, .refl⟩ hc, hp.mono fun x hx y _ hxy => ?_⟩
    exact ⟨hxy, hlen.part hc hx, hlabels.part hc hx⟩
  | mapping hv hw hp =>
    rw [hv, hw]
    obtain ⟨i, t, rfl, hc⟩ := Heap.view_eq_mapping hv
    refine .mapping ⟨hlabels i _ ⟨i, rfl, .refl⟩ hc, hp.mono fun e he e' _ hee => ?_⟩
    have hpart := List.mem_map_of_mem (f := Prod.snd) (Multiset.mem_coe.mp he)
    cases hee with
    | intro hlabel hvalue =>
      exact .intro hlabel ⟨hvalue, hlen.part hc hpart, hlabels.part hc hpart⟩

/-! ## Summaries of shuffled values -/

theorem Extent.ofLengths_perm {ns ms : List Nat} (h : ns.Perm ms) :
    ofLengths ns = ofLengths ms := by
  have hrange : ∀ ks : List Nat, ks.length ≠ 1 →
      ofLengths ks = range (ofLengths ks).bounds.1 (ofLengths ks).bounds.2 := by
    intro ks hks
    match ks with
    | [] => rfl
    | [_] => exact absurd rfl hks
    | _ :: _ :: _ => rfl
  by_cases hone : ns.length = 1
  · obtain ⟨n, rfl⟩ := List.length_eq_one_iff.mp hone
    rw [← h.singleton_eq]
  · rw [hrange ns hone, hrange ms (h.length_eq ▸ hone)]
    by_cases hnil : ns = []
    · rw [hnil] at h
      rw [hnil, h.nil_eq]
    · have hms : ms ≠ [] := mt (fun hm => (hm ▸ h).eq_nil) hnil
      have hle := bounds_ofLengths_subset h.subset hnil
      have hge := bounds_ofLengths_subset h.symm.subset hms
      congr 1 <;> omega

theorem keysOf_perm {ms ms' : List (List (Scalar × Value))}
    (h : Multiset.Rel (MappingsMatch R) ↑ms ↑ms') : (keysOf ms).Perm (keysOf ms') := by
  have hlabels := rel_flatMap (P := fun k k' : String => k = k') h fun es es' he =>
    Multiset.rel_eq.mpr (Multiset.coe_eq_coe.mpr he.labels_perm)
  exact Keyed.eraseDups_perm (Multiset.coe_eq_coe.mp (Multiset.rel_eq.mp hlabels))

/-- For values that are related up to order `f` and `g` give shapes that agree up to order. -/
def Respects (R : Value → Value → Prop) (f g : List Value → Shape) : Prop :=
  ∀ vs ws : List Value, Multiset.Rel R ↑vs ↑ws → Reordered (f vs) (g ws)

section Step

variable {inner inner' : Option (List Value → Shape)} (hi : Option.Rel (Respects R) inner inner')
include hi

theorem reordered_summaryArray {ls ls' : List (Array Value)}
    (h : Multiset.Rel (SequencesMatch R size) ↑ls ↑ls') :
    Reordered (.array (summaryArray size inner ls)) (.array (summaryArray size inner' ls')) := by
  have hsizes : (ls.map Array.size).Perm (ls'.map Array.size) :=
    perm_map_of_rel h fun _ _ => SequencesMatch.size_eq
  refine ⟨Extent.ofLengths_perm hsizes, rfl, ?_⟩
  cases hi with
  | none => exact reordered_refl _
  | some hfg =>
    have hempty : ls.all Array.isEmpty = ls'.all Array.isEmpty := by
      have hall : ∀ ks : List (Array Value),
          ks.all Array.isEmpty = (ks.map Array.size).all (· == 0) := by
        intro ks
        rw [List.all_map]
        rfl
      rw [hall, hall, hsizes.all_eq]
    simp only [summaryArray, hempty]
    split
    · exact reordered_refl _
    · refine hfg _ _ (rel_flatMap h fun xs ys hxy => ?_)
      have hlen : ys.size ≤ size := hxy.size_eq ▸ hxy.1
      rw [sampled_of_size_le hxy.1, sampled_of_size_le hlen]
      exact hxy.2

theorem reordered_summaryObject {ms ms' : List (List (Scalar × Value))}
    (h : Multiset.Rel (MappingsMatch R) ↑ms ↑ms') :
    Reordered (.object (summaryObject inner ms)) (.object (summaryObject inner' ms')) := by
  cases hi with
  | none => exact reordered_refl _
  | some hfg =>
    rename_i f g
    have hnames : (Field.names (summaryObject (some f) ms).fields).Perm
        (Field.names (summaryObject (some g) ms').fields) := by
      rw [names_summaryObject, names_summaryObject]
      exact keysOf_perm h
    have hnodup : (Field.names (summaryObject (some f) ms).fields).Nodup := by
      rw [names_summaryObject]
      exact Keyed.nodup_eraseDups _
    refine ⟨rfl, ?_⟩
    simp only [reorderedFields_iff_forall₂]
    refine Keyed.exists_perm_forall₂ hnames hnodup fun name x y hx hy => ?_
    replace hx : Field.find? (summaryObject (some f) ms).fields name = some x := hx
    replace hy : Field.find? (summaryObject (some g) ms').fields name = some y := hy
    rw [find?_summaryObject] at hx hy
    split at hx <;> cases hx
    split at hy <;> cases hy
    exact ⟨rfl, rfl, hfg _ _ (rel_filterMap h fun es es' he => he.first? name)⟩

theorem reordered_summarize {h h' : Heap}
    (hR : ∀ v w, R v w → ViewsMatch R size (h.view v) (h'.view w)) :
    Respects R (h.summarize size inner) (h'.summarize size inner') := by
  intro vs ws hvw
  have hkinds : (h.kindsOf vs).Perm (h'.kindsOf ws) :=
    perm_map_of_rel hvw fun v w hvw => (hR v w hvw).kind_eq
  have hflat : Flat (h.summarize size inner vs).alternatives := flat_summarize vs
  rw [Heap.summarize, Heap.summarize, ← alternatives_summarize, ← alternatives_summarize]
  refine reordered_ofAlternatives ?_ hflat fun k x y hx hy => ?_
  · rw [alternatives_summarize, alternatives_summarize, kinds_map_alternative,
      kinds_map_alternative]
    exact Keyed.eraseDups_perm hkinds
  · rw [findKind?_summarize] at hx hy
    split at hx <;> cases hx
    split at hy <;> cases hy
    cases k with
    | scalar name => exact reordered_refl _
    | array =>
      exact reordered_summaryArray hi (rel_filterMap hvw fun v w hvw => (hR v w hvw).items?)
    | object =>
      exact reordered_summaryObject hi (rel_filterMap hvw fun v w hvw => (hR v w hvw).entries?)
    | choice => exact reordered_refl _

end Step

theorem reordered_summary {h h' : Heap}
    (hR : ∀ v w, R v w → ViewsMatch R size (h.view v) (h'.view w)) (levels : Nat) :
    Respects R (h.summary size levels) (h'.summary size levels) := by
  induction levels with
  | zero => exact reordered_summarize .none hR
  | succ levels ih => exact reordered_summarize (.some ih) hR

/-- **Order matters only for order and for optional keys.**  Let `w` be an acyclic value `v` with
elements and entries shuffled at any levels, where no two keys of a mapping have one name and no
sequence is sampled. Then surveys of both succeed, and up to the order of keys and alternatives and
up to optional keys they give one shape. -/
theorem infer_shuffled (h h' : Heap) (limit : Int) (r : Request) {o : Options}
    {log log' : Array Record} (ho : r.options.run log = .ok o log') {v w : Value}
    (hv : h.Acyclic v) (hw : h'.Acyclic w) (hlen : h.LengthsLe o.sampleSize v)
    (hlabels : h.LabelsNodup v) (hs : Shuffled h h' v w) :
    let S : Survey := { heap := h, recursionLimit := limit }
    let S' : Survey := { heap := h', recursionLimit := limit }
    ∃ s t, (∃ log₁, (S.infer r v).run log = .ok s log₁) ∧
      (∃ log₁, (S'.infer r w).run log = .ok t log₁) ∧ Reordered s.required t.required := by
  intro S S'
  have hinfer := Survey.infer_run_of_acyclic (S := S) ho hv (Survey.namesKeys_of_unlimited rfl)
  have hinfer' := Survey.infer_run_of_acyclic (S := S') ho hw (Survey.namesKeys_of_unlimited rfl)
  refine ⟨_, _, hinfer, hinfer', ?_⟩
  rw [Survey.required_outline rfl o.sampleSize_pos, Survey.required_outline rfl o.sampleSize_pos,
    required_summary, required_summary]
  exact reordered_summary (fun _ _ => ShuffledWhole.viewsMatch) _ [v] [w]
    (.cons ⟨hs, hlen, hlabels⟩ .zero)

/-- In one order the key `"b"` comes last and is required, in the other it comes first and is
optional. -/
theorem infer_shuffled_keys :
    let h : Heap := #[.mapping "dict" [(.text "a", .scalar (.int 1)), (.text "b", .scalar .null)],
      .mapping "dict" [(.text "a", .scalar (.text "x"))],
      .sequence "list" #[.node 0, .node 1, .node 0]]
    let h' : Heap := #[.mapping "dict" [(.text "b", .scalar .null), (.text "a", .scalar (.int 1))],
      .mapping "dict" [(.text "a", .scalar (.text "x"))],
      .sequence "list" #[.node 0, .node 0, .node 1]]
    let S : Survey := { heap := h }
    let S' : Survey := { heap := h' }
    let a : Field Shape := ⟨"a", .choice [.number, .string], false⟩
    let s : Shape := .array ⟨.exact 3, .object ⟨[a, ⟨"b", .null, false⟩], false⟩, false⟩
    let t : Shape := .array ⟨.exact 3, .object ⟨[⟨"b", .null, true⟩, a], false⟩, false⟩
    (∃ log, (S.infer {} (.node 2)).run #[] = .ok s log) ∧
      (∃ log, (S'.infer {} (.node 2)).run #[] = .ok t log) ∧ Reordered s.required t.required := by
  intro h h' S S' a s t
  have hb : h.BottomUp := by decide
  have hb' : h'.BottomUp := by decide
  have hscalar : ∀ s : Scalar, Shuffled h h' (.scalar s) (.scalar s) := fun s => .scalar rfl rfl
  have hboth : Shuffled h h' (.node 0) (.node 0) := .mapping rfl rfl <|
    rel_of_perm (.swap _ _ _) (.cons (.intro rfl (hscalar _)) (.cons (.intro rfl (hscalar _)) .nil))
  have hone : Shuffled h h' (.node 1) (.node 1) := .mapping rfl rfl <|
    rel_of_perm (.refl _) (.cons (.intro rfl (hscalar _)) .nil)
  have hlist : Shuffled h h' (.node 2) (.node 2) := .sequence rfl rfl <|
    rel_of_perm (.cons _ (.swap _ _ _)) (.cons hboth (.cons hone (.cons hboth .nil)))
  obtain ⟨s', t', ⟨log, hs⟩, ⟨log', ht⟩, hreordered⟩ := infer_shuffled h h' 1000 {} rfl
    (hb.acyclic _) (hb'.acyclic _) (Heap.lengthsLe_of_forall_mem (by decide) _)
    (Heap.labelsNodup_of_forall_mem (by decide) _) hlist
  have hrun : ∃ log, (S.infer {} (.node 2)).run #[] = .ok s log :=
    Survey.infer_run (o := {}) rfl (Survey.namesKeys_of_unlimited rfl)
  have hrun' : ∃ log, (S'.infer {} (.node 2)).run #[] = .ok t log :=
    Survey.infer_run (o := {}) rfl (Survey.namesKeys_of_unlimited rfl)
  obtain ⟨_, hs'⟩ := hrun
  obtain ⟨_, ht'⟩ := hrun'
  cases hs.symm.trans hs'
  cases ht.symm.trans ht'
  exact ⟨⟨_, hs⟩, ⟨_, ht⟩, hreordered⟩

end JsonShape
