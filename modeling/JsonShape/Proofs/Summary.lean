import JsonShape.Proofs.Outline

/-!
# Inference sums up the sampled values

A survey merges the shapes of sampled values pair by pair. `Heap.summary` looks at all of them at
once: which kinds occur, the lengths of all sequences, and for each key all the values under it.

* `mergesParts_summary`: the summary of more values merges the summaries of the parts;
* `required_outline`: the outline of a value is its summary, up to optional keys;
* `infer_summary`: so is what a survey infers for an acyclic value.
-/

namespace JsonShape

open Shape

/-! ## Summaries -/

/-- A single length is known; of several lengths the range is. -/
def Extent.ofLengths : List Nat → Extent
  | [n] => exact n
  | ns => range (ns.min?.getD 0 : Nat) (ns.max?.getD 0 : Nat)

def View.items? : View → Option (Array Value)
  | sequence items => some items
  | _ => none

def View.entries? : View → Option (List (Scalar × Value))
  | mapping entries => some entries
  | _ => none

/-- The keys of several mappings, in order of first appearance. -/
def keysOf (ms : List (List (Scalar × Value))) : List String :=
  (ms.flatMap fun entries => entries.map (·.1.label)).eraseDups

/-- One array for several sequences. Its element sums up the sampled elements of all of them. -/
def summaryArray (size : Nat) (inner : Option (List Value → Shape)) (ls : List (Array Value)) :
    ArrayOf Shape where
  extent := .ofLengths (ls.map Array.size)
  element := match inner with
    | none => .null
    | some f => if ls.all Array.isEmpty then .null else f (ls.flatMap (sampled · size))
  collapsed := false

/-- One object for several mappings. The shape under a key sums up the values that count there. -/
def summaryObject (inner : Option (List Value → Shape)) (ms : List (List (Scalar × Value))) :
    ObjectOf Shape where
  fields := match inner with
    | none => []
    | some f => (keysOf ms).map fun name => ⟨name, f (ms.filterMap (first? · name)), false⟩
  collapsed := false

namespace Heap

def kindsOf (h : Heap) (vs : List Value) : List Kind := vs.map fun v => (h.view v).kind

def sequences (h : Heap) (vs : List Value) : List (Array Value) :=
  vs.filterMap fun v => (h.view v).items?

def mappings (h : Heap) (vs : List Value) : List (List (Scalar × Value)) :=
  vs.filterMap fun v => (h.view v).entries?

/-- The alternative of a kind. No value is seen as a choice. -/
def alternative (h : Heap) (size : Nat) (inner : Option (List Value → Shape)) (vs : List Value) :
    Kind → Shape
  | .scalar name => .scalar name
  | .array => .array (summaryArray size inner (h.sequences vs))
  | .object => .object (summaryObject inner (h.mappings vs))
  | .choice => .choice []

/-- One alternative for each kind that occurs, in order of first appearance. -/
def summarize (h : Heap) (size : Nat) (inner : Option (List Value → Shape)) (vs : List Value) :
    Shape :=
  .ofAlternatives ((h.kindsOf vs).eraseDups.map (h.alternative size inner vs))

/-- The summary of all given values at once, with the number of levels to inspect. -/
def summary (h : Heap) (size : Nat) : Nat → List Value → Shape
  | 0 => h.summarize size none
  | levels + 1 => h.summarize size (some (h.summary size levels))

end Heap

/-- A property of summaries passes from one level to the next: `P` is proved once for a step whose
parts, if they are inspected, have it. -/
theorem summary_induction {h : Heap} {size : Nat} {P : (List Value → Shape) → Prop}
    (step : ∀ inner, (∀ f, inner = some f → P f) → P (h.summarize size inner)) (levels : Nat) :
    P (h.summary size levels) := by
  induction levels with
  | zero => exact step none fun _ hf => by cases hf
  | succ levels ih =>
    apply step (some (h.summary size levels))
    intro f hf
    cases hf
    exact ih

/-! ## Extents -/

namespace Extent

theorem bounds_ofLengths (ns : List Nat) :
    (ofLengths ns).bounds = (((ns.min?.getD 0 : Nat) : Int), ((ns.max?.getD 0 : Nat) : Int)) := by
  unfold ofLengths
  split <;> rfl

theorem bounds_ofLengths_subset {ns ms : List Nat} (h : ms ⊆ ns) (hms : ms ≠ []) :
    (ofLengths ns).bounds.1 ≤ (ofLengths ms).bounds.1 ∧
      (ofLengths ms).bounds.2 ≤ (ofLengths ns).bounds.2 := by
  have hns : ns ≠ [] := by
    rintro rfl
    exact hms (List.subset_nil.mp h)
  have hleast : ns.min hns ≤ ms.min hms := List.min_le_of_mem (h (List.min_mem hms))
  have hgreatest : ms.max hms ≤ ns.max hns := List.le_max_of_mem (h (List.max_mem hms))
  rw [bounds_ofLengths, bounds_ofLengths, List.min?_eq_some_min hns, List.min?_eq_some_min hms,
    List.max?_eq_some_max hns, List.max?_eq_some_max hms]
  simp only [Option.getD_some]
  omega

theorem ofLengths_append {ns ms : List Nat} (hns : ns ≠ []) (hms : ms ≠ []) :
    ofLengths (ns ++ ms) = (ofLengths ns).hull (ofLengths ms) := by
  obtain ⟨n, ns, rfl⟩ := List.exists_cons_of_ne_nil hns
  obtain ⟨m, ms, rfl⟩ := List.exists_cons_of_ne_nil hms
  have hrange : ofLengths (n :: ns ++ m :: ms) = range ((n :: ns ++ m :: ms).min?.getD 0 : Nat)
      ((n :: ns ++ m :: ms).max?.getD 0 : Nat) := by
    cases ns <;> rfl
  rw [hrange, hull, bounds_ofLengths, bounds_ofLengths]
  simp only [List.cons_append, List.min?_cons', List.max?_cons', Option.getD_some,
    List.foldl_append, List.foldl_cons, List.foldl_assoc]
  congr 1 <;> omega

theorem isEmpty_ofLengths (ns : List Nat) : (ofLengths ns).isEmpty = ns.all (· == 0) := by
  have hmax : ns.max?.getD 0 = 0 ↔ ∀ n ∈ ns, n = 0 := by
    cases hm : ns.max? with
    | none => simp [List.max?_eq_none_iff.mp hm]
    | some m =>
      obtain ⟨hmem, hle⟩ := List.max?_eq_some_iff.mp hm
      constructor
      · rintro rfl n hn
        exact Nat.le_zero.mp (hle n hn)
      · intro h
        exact h m hmem
  rw [Bool.eq_iff_iff, isEmpty, bounds_ofLengths]
  simp [hmax]

end Extent

/-! ## Keys and kinds that occur -/

section Occur

variable {h : Heap} {size : Nat} {inner : Option (List Value → Shape)}

theorem flatMap_sampled_eq_nil {ls : List (Array Value)} (h : ls.all Array.isEmpty = true) :
    ls.flatMap (sampled · size) = [] := by
  refine List.flatMap_eq_nil_iff.mpr fun items hi => sampled_eq_nil_iff.mpr (.inl ?_)
  exact Array.isEmpty_iff_size_eq_zero.mp (List.all_eq_true.mp h items hi)

theorem keysOf_append (ms ms' : List (List (Scalar × Value))) :
    keysOf (ms ++ ms') = Keyed.union (keysOf ms) (keysOf ms') := by
  rw [keysOf, List.flatMap_append, Keyed.eraseDups_append]
  rfl

theorem filterMap_first?_eq_nil_iff {ms : List (List (Scalar × Value))} {name : String} :
    ms.filterMap (first? · name) = [] ↔ name ∉ keysOf ms := by
  rw [List.filterMap_eq_nil_iff, keysOf, List.mem_eraseDups, List.mem_flatMap]
  simp only [first?_eq_none_iff, not_exists, not_and]

theorem kindsOf_append (vs ws : List Value) : h.kindsOf (vs ++ ws) = h.kindsOf vs ++ h.kindsOf ws :=
  List.map_append

theorem sequences_append (vs ws : List Value) :
    h.sequences (vs ++ ws) = h.sequences vs ++ h.sequences ws :=
  List.filterMap_append

theorem mappings_append (vs ws : List Value) :
    h.mappings (vs ++ ws) = h.mappings vs ++ h.mappings ws :=
  List.filterMap_append

theorem sequences_eq_nil_iff {vs : List Value} : h.sequences vs = [] ↔ .array ∉ h.kindsOf vs := by
  rw [Heap.sequences, List.filterMap_eq_nil_iff, Heap.kindsOf, List.mem_map, not_exists]
  apply forall_congr'
  intro v
  cases h.view v <;> simp [View.items?, View.kind]

theorem mappings_eq_nil_iff {vs : List Value} : h.mappings vs = [] ↔ .object ∉ h.kindsOf vs := by
  rw [Heap.mappings, List.filterMap_eq_nil_iff, Heap.kindsOf, List.mem_map, not_exists]
  apply forall_congr'
  intro v
  cases h.view v <;> simp [View.entries?, View.kind]

theorem choice_notMem_kindsOf {vs : List Value} : .choice ∉ h.kindsOf vs := by
  rw [Heap.kindsOf, List.mem_map, not_exists]
  intro v
  cases h.view v <;> simp [View.kind]

theorem kind_alternative (vs : List Value) (k : Kind) :
    (h.alternative size inner vs k).kind = k := by
  cases k <;> rfl

theorem kinds_map_alternative (vs : List Value) (ks : List Kind) :
    kinds (ks.map (h.alternative size inner vs)) = ks := by
  rw [kinds, List.map_map]
  refine (List.map_congr_left fun k _ => ?_).trans (List.map_id ks)
  exact kind_alternative vs k

theorem alternatives_summarize (vs : List Value) : (h.summarize size inner vs).alternatives =
    (h.kindsOf vs).eraseDups.map (h.alternative size inner vs) := by
  apply alternatives_ofAlternatives
  rw [kinds_map_alternative, List.mem_eraseDups]
  exact choice_notMem_kindsOf

theorem flat_summarize (vs : List Value) : Flat (h.summarize size inner vs).alternatives := by
  rw [alternatives_summarize, Flat, kinds_map_alternative, List.mem_eraseDups]
  exact ⟨Keyed.nodup_eraseDups _, choice_notMem_kindsOf⟩

theorem findKind?_summarize (vs : List Value) (k : Kind) :
    findKind? (h.summarize size inner vs).alternatives k =
      if k ∈ h.kindsOf vs then some (h.alternative size inner vs k) else none := by
  rw [alternatives_summarize, findKind?, Keyed.find?_map_of_key fun k _ => kind_alternative vs k]
  simp only [List.mem_eraseDups]

theorem names_summaryObject (f : List Value → Shape) (ms : List (List (Scalar × Value))) :
    Field.names (summaryObject (some f) ms).fields = keysOf ms := by
  rw [Field.names, summaryObject, List.map_map]
  exact List.map_id _

theorem find?_summaryObject (f : List Value → Shape) (ms : List (List (Scalar × Value)))
    (name : String) : Field.find? (summaryObject (some f) ms).fields name =
      if name ∈ keysOf ms then some ⟨name, f (ms.filterMap (first? · name)), false⟩ else none := by
  rw [Field.find?, summaryObject, Keyed.find?_map_of_key fun _ _ => rfl]

theorem shape?_summaryObject (f : List Value → Shape) (ms : List (List (Scalar × Value)))
    (name : String) : Field.shape? (summaryObject (some f) ms).fields name =
      if name ∈ keysOf ms then some (f (ms.filterMap (first? · name))) else none := by
  rw [Field.shape?, find?_summaryObject]
  split <;> rfl

end Occur

/-! ## Summaries have every key required and are well formed -/

section Required

variable {h : Heap} {size : Nat} {inner : Option (List Value → Shape)}

theorem required_summarize (hi : ∀ f, inner = some f → ∀ vs, (f vs).required = f vs)
    (vs : List Value) : (h.summarize size inner vs).required = h.summarize size inner vs := by
  rw [Heap.summarize, keepsKinds_required.ofAlternatives, List.map_map]
  congr 1
  apply List.map_congr_left
  intro k _
  cases k with
  | scalar name => rfl
  | array =>
    apply congrArg Shape.array
    cases inner with
    | none => rfl
    | some f =>
      simp only [summaryArray]
      split
      · rfl
      · rw [hi f rfl]
  | object =>
    apply congrArg Shape.object
    cases inner with
    | none => rfl
    | some f => simp [summaryObject, requiredFields_eq_map, hi f rfl]
  | choice => rfl

theorem required_summary (size levels : Nat) (vs : List Value) :
    (h.summary size levels vs).required = h.summary size levels vs :=
  summary_induction (P := fun f => ∀ vs, (f vs).required = f vs) (fun _ => required_summarize)
    levels vs

theorem wellFormed_summarize (hi : ∀ f, inner = some f → ∀ vs, (f vs).WellFormed)
    (vs : List Value) : (h.summarize size inner vs).WellFormed := by
  have hflat : Flat (h.summarize size inner vs).alternatives := flat_summarize vs
  rw [alternatives_summarize] at hflat
  refine wellFormed_ofAlternatives hflat (List.forall_mem_map.mpr fun k _ => ?_)
  cases k with
  | scalar name => exact wellFormed_scalar _
  | array =>
    refine everywhere_array.mpr ⟨?_, ?_⟩
    · simp only [WellFormedNode, summaryArray, Extent.bounds_ofLengths]
      omega
    · cases inner with
      | none => exact wellFormed_scalar _
      | some f =>
        show (if (h.sequences vs).all Array.isEmpty then _ else _ : Shape).WellFormed
        split
        · exact wellFormed_scalar _
        · exact hi f rfl _
  | object =>
    cases inner with
    | none => exact everywhere_object.mpr ⟨⟨List.nodup_nil, fun _ => rfl⟩, List.forall_mem_nil _⟩
    | some f =>
      refine everywhere_object.mpr ⟨⟨?_, fun hc => by cases hc⟩,
        List.forall_mem_map.mpr fun name _ => hi f rfl _⟩
      rw [names_summaryObject]
      exact Keyed.nodup_eraseDups _
  | choice =>
    exact everywhere_choice.mpr ⟨⟨List.nodup_nil, List.not_mem_nil⟩, List.forall_mem_nil _⟩

theorem wellFormed_summary (size levels : Nat) (vs : List Value) :
    (h.summary size levels vs).WellFormed :=
  summary_induction (P := fun f => ∀ vs, (f vs).WellFormed) (fun _ => wellFormed_summarize)
    levels vs

end Required

/-! ## The summary of more values -/

/-- The shape of all values merges the shapes of two parts of them: this is why a survey may take
them one by one. -/
def MergesParts (f : List Value → Shape) : Prop :=
  ∀ vs ws, (f (vs ++ ws)).required = (merge (f vs) (f ws)).required

section Append

variable {h : Heap} {size : Nat} {inner : Option (List Value → Shape)}

theorem hasElement_summaryArray (ls : List (Array Value)) :
    (summaryArray size inner ls).hasElement = !ls.all Array.isEmpty := by
  have hempty : (summaryArray size inner ls).extent.isEmpty = ls.all Array.isEmpty := by
    show (Extent.ofLengths (ls.map Array.size)).isEmpty = _
    rw [Extent.isEmpty_ofLengths, List.all_map]
    rfl
  rw [ArrayOf.hasElement, ArrayOf.isEmpty, hempty]
  simp [summaryArray]

theorem required_summaryArray_append (hf : ∀ f, inner = some f → MergesParts f)
    {ls ls' : List (Array Value)} (hls : ls ≠ []) (hls' : ls' ≠ []) :
    (array (summaryArray size inner (ls ++ ls'))).required =
      (array ((summaryArray size inner ls).merge merge
        (summaryArray size inner ls'))).required := by
  refine required_array_eq ?_ ?_ ?_
  · simp only [summaryArray, List.map_append, ArrayOf.extent_merge]
    exact Extent.ofLengths_append (mt List.map_eq_nil_iff.mp hls) (mt List.map_eq_nil_iff.mp hls')
  · simp only [ArrayOf.element_merge, hasElement_summaryArray]
    cases inner with
    | none => cases ls.all Array.isEmpty <;> cases ls'.all Array.isEmpty <;> rfl
    | some f =>
      simp only [summaryArray, List.all_append, List.flatMap_append]
      -- Empty sequences have no elements to sample, so the other side is all there is.
      cases he : ls.all Array.isEmpty <;> cases he' : ls'.all Array.isEmpty
      · simpa using hf f rfl _ _
      · simp [flatMap_sampled_eq_nil he']
      · simp [flatMap_sampled_eq_nil he]
      · rfl
  · simp only [ArrayOf.collapsed_merge]
    simp [summaryArray]

theorem required_summaryObject_append (hf : ∀ f, inner = some f → MergesParts f)
    (ms ms' : List (List (Scalar × Value))) :
    (object (summaryObject inner (ms ++ ms'))).required =
      (object ((summaryObject inner ms).merge merge (summaryObject inner ms'))).required := by
  cases inner with
  | none => rfl
  | some f =>
    refine required_object_eq ?_ ?_ (fun name s t hs ht => ?_) ?_
    · rw [ObjectOf.names_merge_eq_union]
      simp only [names_summaryObject, keysOf_append]
    · rw [names_summaryObject]
      exact Keyed.nodup_eraseDups _
    · rw [shape?_summaryObject, keysOf_append, List.filterMap_append] at hs
      rw [ObjectOf.shape?_merge, shape?_summaryObject, shape?_summaryObject] at ht
      simp only [Keyed.mem_union] at hs
      refine Keyed.rel_merge_ite (R := fun s t => s.required = t.required) hs ht ?_ ?_ ?_
      · intro hn
        rw [filterMap_first?_eq_nil_iff.mpr hn, List.append_nil]
      · intro hn
        rw [filterMap_first?_eq_nil_iff.mpr hn, List.nil_append]
      · intro _ _
        exact hf f rfl _ _
    · simp only [ObjectOf.collapsed_merge]
      simp [summaryObject]

theorem required_alternative_append (hf : ∀ f, inner = some f → MergesParts f)
    {vs ws : List Value} {k : Kind} (hv : k ∈ h.kindsOf vs) (hw : k ∈ h.kindsOf ws) :
    (h.alternative size inner (vs ++ ws) k).required =
      (unite merge (h.alternative size inner vs k) (h.alternative size inner ws k)).required := by
  cases k with
  | scalar name => rfl
  | array =>
    rw [Heap.alternative, sequences_append]
    exact required_summaryArray_append hf (fun hn => sequences_eq_nil_iff.mp hn hv)
      fun hn => sequences_eq_nil_iff.mp hn hw
  | object =>
    rw [Heap.alternative, mappings_append]
    exact required_summaryObject_append hf _ _
  | choice => exact absurd hv choice_notMem_kindsOf

/-- Values among which a kind does not occur add nothing to its alternative. -/
theorem alternative_append_left {vs ws : List Value} {k : Kind} (hw : k ∉ h.kindsOf ws) :
    h.alternative size inner (vs ++ ws) k = h.alternative size inner vs k := by
  cases k with
  | array => simp only [Heap.alternative, sequences_append, sequences_eq_nil_iff.mpr hw,
      List.append_nil]
  | object => simp only [Heap.alternative, mappings_append, mappings_eq_nil_iff.mpr hw,
      List.append_nil]
  | _ => rfl

theorem alternative_append_right {vs ws : List Value} {k : Kind} (hv : k ∉ h.kindsOf vs) :
    h.alternative size inner (vs ++ ws) k = h.alternative size inner ws k := by
  cases k with
  | array => simp only [Heap.alternative, sequences_append, sequences_eq_nil_iff.mpr hv,
      List.nil_append]
  | object => simp only [Heap.alternative, mappings_append, mappings_eq_nil_iff.mpr hv,
      List.nil_append]
  | _ => rfl

theorem mergesParts_summarize (hf : ∀ f, inner = some f → MergesParts f) :
    MergesParts (h.summarize size inner) := by
  intro vs ws
  have hfv : Flat (h.summarize size inner vs).alternatives := flat_summarize vs
  have hfw : Flat (h.summarize size inner ws).alternatives := flat_summarize ws
  have hfvw : Flat (h.summarize size inner (vs ++ ws)).alternatives := flat_summarize (vs ++ ws)
  rw [merge_eq_ofAlternatives, Heap.summarize, ← alternatives_summarize]
  refine required_ofAlternatives_eq ?_ hfvw fun k x y hx hy => ?_
  · rw [kinds_united hfv hfw]
    simp only [alternatives_summarize, kinds_map_alternative, kindsOf_append,
      Keyed.eraseDups_append]
  · rw [findKind?_summarize, kindsOf_append] at hx
    rw [findKind?_united hfv hfw, findKind?_summarize, findKind?_summarize] at hy
    simp only [List.mem_append] at hx
    refine Keyed.rel_merge_ite (R := fun x y => x.required = y.required) hx hy ?_ ?_ ?_
    · intro hw
      rw [alternative_append_left hw]
    · intro hv
      rw [alternative_append_right hv]
    · intro hv hw
      exact required_alternative_append hf hv hw

theorem mergesParts_summary (size levels : Nat) : MergesParts (h.summary size levels) :=
  summary_induction (fun _ => mergesParts_summarize) levels

end Append

/-! ## Surveys give summaries -/

namespace Survey

variable {S : Survey} {size : Nat}

/-- Merging the shapes that `f` gives for values sums them up as `g` does. -/
def SumsUp (f : Value → Shape) (g : List Value → Shape) : Prop :=
  ∀ w ws, ((ws.map f).foldl merge (f w)).required = (g (w :: ws)).required

theorem sumsUp_outline (hS : S.uninspected.WellFormed) {levels : Nat}
    (hv : ∀ v, (S.outline size levels v).required = (S.heap.summary size levels [v]).required) :
    SumsUp (S.outline size levels) (S.heap.summary size levels) := by
  intro v vs
  have hw : ∀ w, (S.outline size levels w).WellFormed := wellFormed_outline hS size levels
  induction vs using List.reverseRecOn with
  | nil => exact hv v
  | append_singleton vs w ih =>
    have hfold := wellFormed_foldl_merge (hw v) (List.forall_mem_map.mpr fun x (_ : x ∈ vs) => hw x)
    rw [List.map_append, List.foldl_append, List.map_singleton, List.foldl_cons, List.foldl_nil,
      ← List.cons_append, mergesParts_summary]
    exact required_merge_congr hfold (wellFormed_summary size levels _) (hw w)
      (wellFormed_summary size levels _) ih (hv w)

section Outline

variable {inner : Option (Value → Shape)} {inner' : Option (List Value → Shape)}

theorem required_outlineElement (hS : S.uninspected = .null) (hsize : 0 < size)
    (hi : Option.Rel SumsUp inner inner') (items : Array Value) :
    (S.outlineElement size inner items).required =
      (summaryArray size inner' [items]).element.required := by
  cases hi with
  | none =>
    show S.uninspected.required = _
    rw [hS]
    rfl
  | some hi =>
    simp only [summaryArray, outlineElement, List.flatMap_singleton]
    cases hs : sampled items size with
    | nil =>
      have hempty : items = #[] := by
        rcases sampled_eq_nil_iff.mp hs with h | h
        · exact Array.eq_empty_of_size_eq_zero h
        · omega
      simp [hS, hempty]
    | cons w ws =>
      have hne : items ≠ #[] := by
        rintro rfl
        cases hs
      simpa [hne] using hi w ws

theorem required_outlineFields (hi : Option.Rel SumsUp inner inner')
    (entries : List (Scalar × Value)) : (object ⟨outlineFields inner entries, false⟩).required =
      (object (summaryObject inner' [entries])).required := by
  cases hi with
  | none => rfl
  | some hi =>
    rename_i f g
    have hn : Field.names (outlineFields (some f) entries) = keysOf [entries] := by
      rw [keysOf, List.flatMap_singleton]
      exact names_foldl_addField
    refine required_object_eq ?_ ?_ (fun name s t hs ht => ?_) rfl
    · rw [names_summaryObject, hn]
    · rw [hn]
      exact Keyed.nodup_eraseDups _
    · replace hs : Field.shape? (entries.foldl (addField f) []) name = some s := hs
      rw [shape?_foldl_addField] at hs
      obtain ⟨w, hw, rfl⟩ := Option.map_eq_some_iff.mp hs
      rw [shape?_summaryObject] at ht
      simp only [List.filterMap_cons, hw, List.filterMap_nil] at ht
      split at ht
      · cases ht
        exact hi w []
      · cases ht

theorem required_outlineWith (hS : S.uninspected = .null) (hsize : 0 < size)
    (hi : Option.Rel SumsUp inner inner') (v : Value) :
    (S.outlineWith size inner v).required = (S.heap.summarize size inner' [v]).required := by
  rw [Heap.summarize, Heap.kindsOf, List.map_singleton]
  unfold outlineWith
  cases hview : S.heap.view v with
  | scalar name => rfl
  | sequence items =>
    have hseq : S.heap.sequences [v] = [items] := by
      simp [Heap.sequences, hview, View.items?]
    show (array _).required = (array (summaryArray size inner' (S.heap.sequences [v]))).required
    rw [hseq]
    exact required_array_eq rfl (required_outlineElement hS hsize hi items) rfl
  | mapping entries =>
    have hmap : S.heap.mappings [v] = [entries] := by
      simp [Heap.mappings, hview, View.entries?]
    show _ = (object (summaryObject inner' (S.heap.mappings [v]))).required
    rw [hmap]
    exact required_outlineFields hi entries

end Outline

theorem required_outline (hS : S.uninspected = .null) (hsize : 0 < size) (levels : Nat)
    (v : Value) :
    (S.outline size levels v).required = (S.heap.summary size levels [v]).required := by
  induction levels generalizing v with
  | zero => exact required_outlineWith hS hsize .none v
  | succ levels ih =>
    have hnull : S.uninspected.WellFormed := hS ▸ wellFormed_scalar _
    exact required_outlineWith hS hsize (.some (sumsUp_outline hnull ih)) v

end Survey

/-- **Inference is an exact summary.**  For an acyclic value a survey with effective options
succeeds, and up to optional keys it gives the summary of the value at once, down to the depth that
the host allows. -/
theorem infer_summary (h : Heap) (limit : Int) (r : Request) {o : Options} {log log' : Array Record}
    (ho : r.options.run log = .ok o log') {v : Value} (hv : h.Acyclic v) :
    ∃ s log'', ((({ heap := h, recursionLimit := limit } : Survey).infer r v).run log =
        .ok s log'') ∧
      s.required = h.summary o.sampleSize (min o.maxDepth (greatestDepth limit)) [v] := by
  let S : Survey := { heap := h, recursionLimit := limit }
  obtain ⟨log₂, hinfer⟩ :=
    Survey.infer_run_of_acyclic (S := S) ho hv (Survey.namesKeys_of_unlimited rfl)
  refine ⟨_, log₂, hinfer, ?_⟩
  rw [Survey.required_outline rfl o.sampleSize_pos, required_summary]
  rfl

/-- Keys, kinds and lengths are those of all elements together. -/
theorem infer_summary_records :
    let h : Heap := #[.mapping "dict" [(.text "id", .scalar (.int 7))],
      .mapping "dict" [(.text "tag", .scalar .null), (.text "id", .scalar (.text "x"))],
      .sequence "list" #[.node 0, .scalar (.int 3), .node 1]]
    (∃ s log, (({ heap := h } : Survey).infer {} (.node 2)).run #[] = .ok s log ∧
      s.required = h.summary 100 8 [.node 2]) ∧
    h.summary 100 8 [.node 2] = .array ⟨.exact 3, .choice [
      .object ⟨[⟨"id", .choice [.number, .string], false⟩, ⟨"tag", .null, false⟩], false⟩, .number],
      false⟩ := by
  intro h
  have hb : h.BottomUp := by decide
  refine ⟨infer_summary h 1000 {} rfl (hb.acyclic _), ?_⟩
  rfl

end JsonShape
