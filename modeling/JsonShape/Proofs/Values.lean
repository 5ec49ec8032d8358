import JsonShape.Proofs.Merging
import JsonShape.Survey
import Mathlib.Logic.Relation

/-!
# What a survey reads from the heap

What it sees of a value, which elements of a sequence it samples, which value counts under a name
of a mapping, and which keys it reads (`Heap.Reads`). A value is `Acyclic` when no container that
can be reached from it contains itself; a heap that was filled bottom-up has only such values
(`BottomUp.acyclic`).
-/

namespace JsonShape

/-- The values that a container refers to. -/
def Container.parts : Container → List Value
  | .sequence _ items => items.toList
  | .mapping _ entries => entries.map (·.2)

/-- The value that counts under a name: that of the first key with this name. -/
def first? (entries : List (Scalar × Value)) (name : String) : Option Value :=
  (entries.find? (·.1.label == name)).map (·.2)

/-- The elements of a sequence that are inspected. -/
def sampled (items : Array Value) (size : Nat) : List Value :=
  (evenlySpaced items.size size).filterMap (items[·]?)

/-- The parts of a container that are inspected: the sampled elements of a sequence, and the values
that count under the names of a mapping. -/
def Container.Inspected (size : Nat) (c : Container) (v : Value) : Prop :=
  match c with
  | .sequence _ items => v ∈ sampled items size
  | .mapping _ entries => ∃ name, first? entries name = some v

/-- The keys of a mapping. -/
def Container.keys : Container → List Scalar
  | .sequence .. => []
  | .mapping _ entries => entries.map (·.1)

/-- The name of the shape of a scalar. -/
def Scalar.shapeName : Scalar → String
  | null => "null"
  | bool _ => "boolean"
  | int _ | float _ | decimal _ => "number"
  | text _ => "string"

/-- The names of the shapes of all scalars. -/
def Shape.scalarTypes : List String := ["null", "boolean", "number", "string"]

theorem Scalar.shapeName_mem (s : Scalar) : s.shapeName ∈ Shape.scalarTypes := by
  cases s <;> simp [shapeName, Shape.scalarTypes]

theorem Scalar.shape_eq (s : Scalar) : s.shape = .scalar s.shapeName := by
  cases s <;> rfl

/-- A reference, if the value is one, goes to an earlier place. -/
def Value.below (i : NodeId) : Value → Bool
  | .node j => j < i
  | _ => true

/-- What a survey sees of a value. -/
inductive View where
  | scalar (name : String)
  | sequence (items : Array Value)
  | mapping (entries : List (Scalar × Value))

def View.kind : View → Kind
  | scalar name => .scalar name
  | sequence _ => .array
  | mapping _ => .object

namespace Heap

/-- A reference to nothing is seen like a value without JSON equivalent. -/
def view (h : Heap) : Value → View
  | .scalar s => .scalar s.shapeName
  | .foreign _ => .scalar "string"
  | .node id => match h[id]? with
    | some (.sequence _ items) => .sequence items
    | some (.mapping _ entries) => .mapping entries
    | none => .scalar "string"

theorem mem_scalarTypes_of_view {h : Heap} {v : Value} {name : String}
    (hv : h.view v = .scalar name) : name ∈ Shape.scalarTypes := by
  unfold view at hv
  split at hv
  · cases hv
    exact Scalar.shapeName_mem _
  · cases hv
    exact Scalar.shapeName_mem (.text "")
  · split at hv <;> cases hv
    exact Scalar.shapeName_mem (.text "")

theorem view_eq_sequence {h : Heap} {v : Value} {items : Array Value}
    (hv : h.view v = .sequence items) : ∃ i t, v = .node i ∧ h[i]? = some (.sequence t items) := by
  unfold view at hv
  split at hv
  · cases hv
  · cases hv
  · rename_i i
    split at hv <;> cases hv
    exact ⟨i, _, rfl, by assumption⟩

theorem view_eq_mapping {h : Heap} {v : Value} {entries : List (Scalar × Value)}
    (hv : h.view v = .mapping entries) :
    ∃ i t, v = .node i ∧ h[i]? = some (.mapping t entries) := by
  unfold view at hv
  split at hv
  · cases hv
  · cases hv
  · rename_i i
    split at hv <;> cases hv
    exact ⟨i, _, rfl, by assumption⟩

end Heap

theorem first?_append (es es' : List (Scalar × Value)) (name : String) :
    first? (es ++ es') name = (first? es name).or (first? es' name) := by
  rw [first?, List.find?_append, Option.map_or]
  rfl

theorem first?_singleton_of_ne {e : Scalar × Value} {name : String} (h : e.1.label ≠ name) :
    first? [e] name = none := by
  simp [first?, h]

theorem first?_cons_of_ne {e : Scalar × Value} {es : List (Scalar × Value)} {name : String}
    (h : e.1.label ≠ name) : first? (e :: es) name = first? es name := by
  rw [← List.singleton_append, first?_append, first?_singleton_of_ne h, Option.none_or]

theorem first?_eq_none_iff {entries : List (Scalar × Value)} {name : String} :
    first? entries name = none ↔ name ∉ entries.map (·.1.label) := by
  rw [first?, Option.map_eq_none_iff]
  exact Keyed.find?_eq_none_iff

theorem exists_first?_of_mem {entries : List (Scalar × Value)} {name : String}
    (h : name ∈ entries.map (·.1.label)) : ∃ v, first? entries name = some v := by
  cases hv : first? entries name with
  | none => exact absurd h (first?_eq_none_iff.mp hv)
  | some v => exact ⟨v, rfl⟩

theorem mem_labels_of_first? {entries : List (Scalar × Value)} {name : String} {v : Value}
    (h : first? entries name = some v) : name ∈ entries.map (·.1.label) := by
  by_contra hnot
  rw [first?_eq_none_iff.mpr hnot] at h
  cases h

/-- Under the names that are not taken, the values that count have the property. -/
def ForallFirst (taken : List String) (entries : List (Scalar × Value)) (P : Value → Prop) : Prop :=
  ∀ name v, name ∉ taken → first? entries name = some v → P v

section ForallFirst

variable {P : Value → Prop} {taken : List String} {e : Scalar × Value}
  {entries : List (Scalar × Value)}

theorem forallFirst_nil : ForallFirst taken [] P := nofun

/-- The value of an entry whose name is taken does not count. -/
theorem forallFirst_cons_of_mem (h : e.1.label ∈ taken) :
    ForallFirst taken (e :: entries) P ↔ ForallFirst taken entries P := by
  refine forall_congr' fun name => forall_congr' fun v => imp_congr_right fun hname => ?_
  have hne : e.1.label ≠ name := fun heq => hname (heq ▸ h)
  rw [first?_cons_of_ne hne]

/-- The value of an entry whose name is not taken counts, and then the name is taken. -/
theorem forallFirst_cons_of_notMem (h : e.1.label ∉ taken) : ForallFirst taken (e :: entries) P ↔
    P e.2 ∧ ForallFirst (taken ++ [e.1.label]) entries P := by
  have hfirst : first? (e :: entries) e.1.label = some e.2 := by simp [first?]
  constructor
  · intro hall
    refine ⟨hall _ _ h hfirst, fun name v hname hv => ?_⟩
    rw [List.mem_append, List.mem_singleton, not_or] at hname
    exact hall name v hname.1 ((first?_cons_of_ne (Ne.symm hname.2)).trans hv)
  · rintro ⟨hP, hall⟩ name v hname hv
    by_cases hne : name = e.1.label
    · rw [hne, hfirst] at hv
      cases hv
      exact hP
    · refine hall name v ?_ ((first?_cons_of_ne (Ne.symm hne)).symm.trans hv)
      rw [List.mem_append, List.mem_singleton, not_or]
      exact ⟨hname, hne⟩

end ForallFirst

theorem filterMap_evenlySpaced_eq_nil_iff {α : Type} {items : Array α} {size : Nat} :
    (evenlySpaced items.size size).filterMap (items[·]?) = [] ↔ items.size = 0 ∨ size = 0 := by
  rw [← evenlySpaced_eq_nil_iff, List.filterMap_eq_nil_iff]
  constructor
  · intro h
    apply List.eq_nil_iff_forall_not_mem.mpr
    intro i hi
    have hlt := lt_of_mem_evenlySpaced hi
    exact absurd (h i hi) (by simp [hlt])
  · intro h
    simp [h]

theorem sampled_eq_nil_iff {items : Array Value} {size : Nat} :
    sampled items size = [] ↔ items.size = 0 ∨ size = 0 :=
  filterMap_evenlySpaced_eq_nil_iff

theorem mem_of_mem_sampled {items : Array Value} {size : Nat} {w : Value}
    (h : w ∈ sampled items size) : w ∈ items.toList := by
  obtain ⟨i, -, hi⟩ := List.mem_filterMap.mp h
  exact List.mem_of_getElem? (Array.getElem?_toList.trans hi)

theorem sampled_of_size_le {items : Array Value} {size : Nat} (h : items.size ≤ size) :
    sampled items size = items.toList := by
  have hall : ∀ l : List Value, (List.range l.length).filterMap (l[·]?) = l := by
    intro l
    induction l with
    | nil => rfl
    | cons v l ih =>
      simp only [List.length_cons, List.range_succ_eq_map, List.filterMap_cons, List.filterMap_map]
      exact congrArg (v :: ·) ih
  rw [sampled, evenlySpaced_of_le h]
  simpa using hall items.toList

/-! ## Keys -/

/-- The host writes the scalar out. -/
def Scalar.NamedWithin (digitLimit : Option Nat) (s : Scalar) : Prop :=
  s.labelWithin digitLimit = .ok s.label

theorem Scalar.labelWithin_of_not_named {digitLimit : Option Nat} {s : Scalar}
    (h : ¬ s.NamedWithin digitLimit) :
    s.labelWithin digitLimit = .error (.digitsExceeded (digitLimit.getD 0)) := by
  cases hs : s.labelWithin digitLimit with
  | ok name =>
    obtain rfl := labelWithin_eq_label hs
    exact absurd hs h
  | error e =>
    obtain ⟨limit, n, rfl, -, -, rfl⟩ := labelWithin_eq_error_iff.mp hs
    rfl

theorem Scalar.not_namedWithin_iff {digitLimit : Option Nat} {s : Scalar} :
    ¬ s.NamedWithin digitLimit ↔
      ∃ limit n, digitLimit = some limit ∧ s = int n ∧ Scalar.HasMoreDigits limit n := by
  constructor
  · intro h
    obtain ⟨limit, n, hlimit, hs, hn, -⟩ :=
      labelWithin_eq_error_iff.mp (labelWithin_of_not_named h)
    exact ⟨limit, n, hlimit, hs, hn⟩
  · rintro ⟨limit, n, hlimit, hs, hn⟩ h
    have herror := labelWithin_eq_error_iff.mpr ⟨limit, n, hlimit, hs, hn, rfl⟩
    cases h.symm.trans herror

/-- The key is among those that a survey reads on its way through a value: the keys of a mapping are
read if there is a level left to inspect and the mapping is none of its own ancestors, and the walk
goes on through the parts of a container that are inspected. -/
inductive Heap.Reads (h : Heap) (size : Nat) (key : Scalar) : Nat → List NodeId → Value → Prop
  | here {levels : Nat} {ancestors : List NodeId} {i : NodeId} {c : Container}
      (hc : h[i]? = some c) (hi : i ∉ ancestors) (hkey : key ∈ c.keys) :
      Reads h size key (levels + 1) ancestors (.node i)
  | inside {levels : Nat} {ancestors : List NodeId} {i : NodeId} {c : Container} {v : Value}
      (hc : h[i]? = some c) (hi : i ∉ ancestors) (hv : c.Inspected size v)
      (hread : Reads h size key levels (i :: ancestors) v) :
      Reads h size key (levels + 1) ancestors (.node i)

/-- Keys that are read are keys of the heap. -/
theorem Heap.Reads.exists_mem {h : Heap} {size levels : Nat} {key : Scalar}
    {ancestors : List NodeId} {v : Value} (hread : h.Reads size key levels ancestors v) :
    ∃ c ∈ h.toList, key ∈ c.keys := by
  induction hread with
  | here hc _ hkey => exact ⟨_, List.mem_of_getElem? (Array.getElem?_toList.trans hc), hkey⟩
  | inside _ _ _ _ ih => exact ih

/-- The host writes out all keys that the survey reads. -/
def Survey.NamesKeys (S : Survey) (size levels : Nat) (ancestors : List NodeId) (v : Value) :
    Prop :=
  ∀ key, S.heap.Reads size key levels ancestors v → key.NamedWithin S.digitLimit

namespace Survey

variable {S : Survey} {size levels : Nat} {ancestors : List NodeId} {v : Value}

theorem namesKeys_of_unlimited (h : S.digitLimit = none) : S.NamesKeys size levels ancestors v :=
  fun key _ => h ▸ key.labelWithin_none

theorem namesKeys_zero : S.NamesKeys size 0 ancestors v := nofun

theorem namesKeys_node_iff {i : NodeId} {c : Container} (hc : S.heap[i]? = some c)
    (hi : i ∉ ancestors) : S.NamesKeys size (levels + 1) ancestors (.node i) ↔
      (∀ key ∈ c.keys, key.NamedWithin S.digitLimit) ∧
      ∀ v, c.Inspected size v → S.NamesKeys size levels (i :: ancestors) v := by
  constructor
  · exact fun h => ⟨fun key hkey => h key (.here hc hi hkey),
      fun v hv key hread => h key (.inside hc hi hv hread)⟩
  · rintro ⟨hkeys, hparts⟩ key hread
    cases hread with
    | here hc' hi' hkey =>
      cases hc.symm.trans hc'
      exact hkeys key hkey
    | inside hc' hi' hv hread =>
      cases hc.symm.trans hc'
      exact hparts _ hv key hread

theorem not_namesKeys_iff : ¬ S.NamesKeys size levels ancestors v ↔
    ∃ limit n, S.digitLimit = some limit ∧ Scalar.HasMoreDigits limit n ∧
      S.heap.Reads size (.int n) levels ancestors v := by
  constructor
  · intro h
    obtain ⟨key, hkey⟩ := not_forall.mp h
    obtain ⟨hread, hnot⟩ := Classical.not_imp.mp hkey
    obtain ⟨limit, n, hlimit, rfl, hn⟩ := Scalar.not_namedWithin_iff.mp hnot
    exact ⟨limit, n, hlimit, hn, hread⟩
  · rintro ⟨limit, n, hlimit, hn, hread⟩ h
    exact Scalar.not_namedWithin_iff.mpr ⟨limit, n, hlimit, rfl, hn⟩ (h _ hread)

/-- A survey reads no keys of what is not a container or is its own ancestor. -/
theorem namesKeys_of_forall_mem
    (h : ∀ i c, v = .node i → S.heap[i]? = some c → i ∈ ancestors) :
    S.NamesKeys size levels ancestors v := by
  intro key hread
  cases hread with
  | here hc hi => exact absurd (h _ _ rfl hc) hi
  | inside hc hi => exact absurd (h _ _ rfl hc) hi

end Survey

/-! ## Cycles -/

namespace Heap

/-- The container at `i` contains the one at `j`. -/
def Refers (h : Heap) (i j : NodeId) : Prop := ∃ c, h[i]? = some c ∧ .node j ∈ c.parts

/-- No container that can be reached from the value contains itself. -/
def Acyclic (h : Heap) (v : Value) : Prop :=
  ∀ i j, v = .node i → Relation.ReflTransGen h.Refers i j → ¬ Relation.TransGen h.Refers j j

/-- The container at `j` is the value itself or is reached from it. -/
def Reaches (h : Heap) (v : Value) (j : NodeId) : Prop :=
  ∃ i, v = .node i ∧ Relation.ReflTransGen h.Refers i j

/-- No sequence that is reached from the value is longer. -/
def LengthsLe (h : Heap) (n : Nat) (v : Value) : Prop :=
  ∀ j t items, h.Reaches v j → h[j]? = some (.sequence t items) → items.size ≤ n

/-- None of the containers is reached from the value. -/
def Apart (h : Heap) (v : Value) (path : List NodeId) : Prop := ∀ j, h.Reaches v j → j ∉ path

theorem Reaches.transGen {h : Heap} {i j : NodeId} {c : Container} {v : Value}
    (hj : h.Reaches v j) (hc : h[i]? = some c) (hv : v ∈ c.parts) :
    Relation.TransGen h.Refers i j := by
  obtain ⟨k, rfl, hkj⟩ := hj
  have hik : h.Refers i k := ⟨c, hc, hv⟩
  exact Relation.TransGen.head' hik hkj

theorem Reaches.part {h : Heap} {i j : NodeId} {c : Container} {v : Value}
    (hj : h.Reaches v j) (hc : h[i]? = some c) (hv : v ∈ c.parts) : h.Reaches (.node i) j :=
  ⟨i, rfl, (hj.transGen hc hv).to_reflTransGen⟩

theorem LengthsLe.part {h : Heap} {n : Nat} {i : NodeId} {c : Container} {v : Value}
    (hi : h.LengthsLe n (.node i)) (hc : h[i]? = some c) (hv : v ∈ c.parts) : h.LengthsLe n v :=
  fun j t items hj => hi j t items (hj.part hc hv)

theorem lengthsLe_of_forall_mem {h : Heap} {n : Nat} (hc : ∀ c ∈ h.toList, c.parts.length ≤ n)
    (v : Value) : h.LengthsLe n v := by
  intro j t items _ hj
  have hmem : .sequence t items ∈ h.toList := List.mem_of_getElem? (Array.getElem?_toList.trans hj)
  exact hc _ hmem

theorem Acyclic.part {h : Heap} {i : NodeId} {c : Container} {v : Value}
    (ha : h.Acyclic (.node i)) (hc : h[i]? = some c) (hv : v ∈ c.parts) : h.Acyclic v := by
  rintro j k rfl hjk
  have hij : h.Refers i j := ⟨c, hc, hv⟩
  exact ha i k rfl (hjk.head hij)

/-- The way to an acyclic value goes on to its parts. -/
theorem Apart.part {h : Heap} {i : NodeId} {c : Container} {v : Value} {path : List NodeId}
    (hi : h.Apart (.node i) path) (ha : h.Acyclic (.node i)) (hc : h[i]? = some c)
    (hv : v ∈ c.parts) : h.Apart v (i :: path) := by
  intro j hj
  have hij := hj.transGen hc hv
  rw [List.mem_cons, not_or]
  refine ⟨?_, hi j ⟨i, rfl, hij.to_reflTransGen⟩⟩
  rintro rfl
  exact ha j j rfl .refl hij

theorem acyclic_of_lt {h : Heap} (hlt : ∀ i j, h.Refers i j → j < i) (v : Value) :
    h.Acyclic v := by
  intro i j _ _ hcycle
  have hdesc : ∀ k, Relation.TransGen h.Refers j k → k < j := by
    intro k hk
    induction hk with
    | single hjk => exact hlt _ _ hjk
    | tail _ hkl ih => exact Nat.lt_trans (hlt _ _ hkl) ih
  exact Nat.lt_irrefl j (hdesc j hcycle)

/-- Every container refers to earlier ones only, as when the heap was filled bottom-up. -/
def BottomUp (h : Heap) : Prop := ∀ i : Fin h.size, ∀ v ∈ h[i].parts, v.below i = true

instance (h : Heap) : Decidable h.BottomUp :=
  inferInstanceAs (Decidable (∀ i : Fin h.size, ∀ v ∈ h[i].parts, v.below i = true))

theorem BottomUp.acyclic {h : Heap} (hb : h.BottomUp) (v : Value) : h.Acyclic v := by
  refine acyclic_of_lt (fun i j hij => ?_) v
  obtain ⟨c, hc, hj⟩ := hij
  obtain ⟨hi, rfl⟩ := Array.getElem?_eq_some_iff.mp hc
  exact of_decide_eq_true (hb ⟨i, hi⟩ _ hj)

end Heap

end JsonShape
