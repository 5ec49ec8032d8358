import JsonShape.Proofs.Report
import JsonShape.Proofs.Required

/-!
# Surveys without cycles

Where no container contains itself, the walk of a survey is a function of the value alone:
`outline`.

* `names_foldl_addField`, `shape?_foldl_addField`: the outline of a mapping has the names of its
  keys in order of first appearance, and under each name the value that comes first counts;
* `wellFormed_outline`: outlines are well formed;
* `shape_report`: the report on an acyclic value has its outline as shape, and so the survey gives
  it (`infer_run_of_acyclic`).
-/

namespace JsonShape

open Shape

/-! ## Outlines -/

namespace Survey

/-- Add the field for one entry of a mapping, unless a field has its name already. -/
def addField (f : Value → Shape) (fields : List (Field Shape)) (e : Scalar × Value) :
    List (Field Shape) :=
  if e.1.label ∈ Field.names fields then fields else fields ++ [⟨e.1.label, f e.2, false⟩]

/-- The fields of a mapping whose values have the shapes that `inner` gives, if it is inspected. -/
def outlineFields (inner : Option (Value → Shape)) (entries : List (Scalar × Value)) :
    List (Field Shape) :=
  match inner with
  | none => []
  | some f => entries.foldl (addField f) []

/-- The merged shape of the elements of a sequence, if it is inspected. -/
def outlineElement (S : Survey) (size : Nat) (inner : Option (Value → Shape))
    (items : Array Value) : Shape :=
  match inner, sampled items size with
  | some f, v :: vs => (vs.map f).foldl merge (f v)
  | _, _ => S.uninspected

/-- The shape of a value whose parts have the shapes that `inner` gives, if they are inspected. -/
def outlineWith (S : Survey) (size : Nat) (inner : Option (Value → Shape)) (v : Value) : Shape :=
  match S.heap.view v with
  | .scalar name => .scalar name
  | .sequence items => .array ⟨.exact items.size, S.outlineElement size inner items, false⟩
  | .mapping entries => .object ⟨outlineFields inner entries, false⟩

/-- The shape of a value, with the number of levels to inspect, as if there were no cycles. -/
def outline (S : Survey) (size : Nat) : Nat → Value → Shape
  | 0 => S.outlineWith size none
  | levels + 1 => S.outlineWith size (some (S.outline size levels))

section Fields

variable {f : Value → Shape} {entries : List (Scalar × Value)}

theorem names_foldl_addField :
    Field.names (entries.foldl (addField f) []) = (entries.map (·.1.label)).eraseDups := by
  induction entries using List.reverseRecOn with
  | nil => rfl
  | append_singleton entries e ih =>
    rw [List.foldl_append, List.map_append, List.map_singleton, Keyed.eraseDups_concat, ← ih,
      List.foldl_cons, List.foldl_nil, addField]
    have hmem : e.1.label ∈ Field.names (entries.foldl (addField f) []) ↔
        e.1.label ∈ entries.map (·.1.label) := by
      rw [ih, List.mem_eraseDups]
    by_cases h : e.1.label ∈ entries.map (·.1.label)
    · rw [if_pos h, if_pos (hmem.mpr h)]
    · rw [if_neg h, if_neg (mt hmem.mp h)]
      simp [Field.names]

theorem shape?_foldl_addField (name : String) :
    Field.shape? (entries.foldl (addField f) []) name = (first? entries name).map f := by
  induction entries using List.reverseRecOn with
  | nil => rfl
  | append_singleton entries e ih =>
    rw [List.foldl_concat, first?_append, Option.map_or, addField]
    split
    · rename_i h
      obtain ⟨s, hs⟩ := Field.exists_shape?_of_mem_names h
      by_cases hname : e.1.label = name
      · subst hname
        rw [← ih, hs, Option.some_or]
      · rw [first?_singleton_of_ne hname, Option.map_none, Option.or_none, ih]
    · rw [Field.shape?_append, ih]
      by_cases hname : e.1.label = name <;>
        simp [Field.shape?, Field.find?_cons, first?, hname]

theorem foldl_addField_eq_filterMap :
    entries.foldl (addField f) [] = (entries.map (·.1.label)).eraseDups.filterMap fun name =>
      (first? entries name).map fun v => ⟨name, f v, false⟩ := by
  induction entries using List.reverseRecOn with
  | nil => rfl
  | append_singleton entries e ih =>
    have hold : (entries.map (·.1.label)).eraseDups.filterMap (fun name =>
        (first? (entries ++ [e]) name).map fun v => (⟨name, f v, false⟩ : Field Shape)) =
        entries.foldl (addField f) [] := by
      rw [ih]
      refine List.filterMap_congr fun name hname => ?_
      obtain ⟨v, hv⟩ := exists_first?_of_mem (List.mem_eraseDups.mp hname)
      rw [first?_append, hv, Option.some_or]
    rw [List.foldl_concat, List.map_append, List.map_singleton,
      Keyed.eraseDups_concat, addField, names_foldl_addField]
    simp only [List.mem_eraseDups]
    split
    · exact hold.symm
    · rename_i hnew
      have hlast : first? (entries ++ [e]) e.1.label = some e.2 := by
        rw [first?_append, first?_eq_none_iff.mpr hnew]
        simp [first?]
      rw [List.filterMap_append, hold, List.filterMap_cons, hlast]
      rfl

/-- The fields depend only on the names, in order of first appearance, and on what `f` makes of the
value that counts under each of them. -/
theorem foldl_addField_congr {g : Value → Shape} {others : List (Scalar × Value)}
    (hn : (entries.map (·.1.label)).eraseDups = (others.map (·.1.label)).eraseDups)
    (h : ∀ name v w, first? entries name = some v → first? others name = some w → f v = g w) :
    entries.foldl (addField f) [] = others.foldl (addField g) [] := by
  rw [foldl_addField_eq_filterMap, foldl_addField_eq_filterMap, ← hn]
  refine List.filterMap_congr fun name hname => ?_
  obtain ⟨v, hv⟩ := exists_first?_of_mem (List.mem_eraseDups.mp hname)
  obtain ⟨w, hw⟩ := exists_first?_of_mem (List.mem_eraseDups.mp (hn ▸ hname))
  rw [hv, hw, Option.map_some, Option.map_some, h name v w hv hw]

end Fields

/-- The shape that holds the place of what is not inspected is part of the outline, so it has to be
well formed itself. -/
theorem wellFormed_outlineWith {S : Survey} (hS : S.uninspected.WellFormed) {size : Nat}
    {inner : Option (Value → Shape)} (h : ∀ f, inner = some f → ∀ v, (f v).WellFormed) (v : Value) :
    (S.outlineWith size inner v).WellFormed := by
  unfold outlineWith
  split
  · exact wellFormed_scalar _
  · rename_i items _
    refine everywhere_array.mpr ⟨⟨Int.natCast_nonneg _, Int.natCast_nonneg _⟩, ?_⟩
    show (S.outlineElement size inner items).WellFormed
    unfold outlineElement
    split
    · rename_i f v vs _
      have hf : ∀ v, (f v).WellFormed := h f rfl
      exact wellFormed_foldl_merge (hf v) (List.forall_mem_map.mpr fun w _ => hf w)
    · exact hS
  · rename_i entries _
    cases inner with
    | none => exact everywhere_object.mpr ⟨⟨List.nodup_nil, fun _ => rfl⟩, by simp [outlineFields]⟩
    | some f =>
      have hn : (Field.names (entries.foldl (addField f) [])).Nodup := by
        rw [names_foldl_addField]
        exact Keyed.nodup_eraseDups _
      refine everywhere_object.mpr ⟨⟨hn, fun hc => by cases hc⟩, fun g hg => ?_⟩
      have hs := Field.shape?_of_mem hn hg
      rw [shape?_foldl_addField] at hs
      obtain ⟨w, -, hw⟩ := Option.map_eq_some_iff.mp hs
      exact hw ▸ h f rfl w

theorem wellFormed_outline {S : Survey} (hS : S.uninspected.WellFormed) (size levels : Nat)
    (v : Value) : (S.outline size levels v).WellFormed := by
  induction levels generalizing v with
  | zero => exact wellFormed_outlineWith hS (fun f hf => by cases hf) v
  | succ levels ih =>
    refine wellFormed_outlineWith hS (fun f hf w => ?_) v
    cases hf
    exact ih w

/-! ## The report on an acyclic value -/

variable {S : Survey} {size : Nat}

theorem outlineElement_eq (inner : Option (Value → Shape)) (items : Array Value) :
    S.outlineElement size inner items = (foldFirst? merge (match inner with
      | none => []
      | some f => (sampled items size).map f)).getD S.uninspected := by
  cases inner with
  | none => rfl
  | some f => cases hs : sampled items size <;> simp [outlineElement, hs, foldFirst?]

theorem outlineElement_congr {S' : Survey} (hS : S.uninspected = S'.uninspected) {size' : Nat}
    {inner inner' : Option (Value → Shape)} {items items' : Array Value}
    (hi : Option.Rel (fun f f' => (sampled items size).map f = (sampled items' size').map f')
      inner inner') :
    S.outlineElement size inner items = S'.outlineElement size' inner' items' := by
  rw [outlineElement_eq, outlineElement_eq, hS]
  cases hi with
  | none => rfl
  | some h => simp only [h]

theorem foldl_addField_eq {f : Value → Report} {g : Value → Shape} {entries : List (Scalar × Value)}
    (h : ∀ e ∈ entries, (f e.2).shape = g e.2) (fields : List (Field Shape)) :
    entries.foldl (addField g) fields =
      fields ++ (Report.ofEntries f (Field.names fields) entries).1 := by
  induction entries generalizing fields with
  | nil => exact (List.append_nil fields).symm
  | cons e entries ih =>
    obtain ⟨he, hes⟩ := List.forall_mem_cons.mp h
    rw [List.foldl_cons, ih hes, addField, Report.ofEntries]
    split
    · rfl
    · simp [Field.names, he]

theorem fields_ofEntries (f : Value → Report) (entries : List (Scalar × Value)) :
    (Report.ofEntries f [] entries).1 = entries.foldl (addField fun w => (f w).shape) [] :=
  (foldl_addField_eq (fun _ _ => rfl) []).symm

/-- The visits of the parts of a container, if they are inspected, report the shapes that `g`
gives. -/
def PartsHaveShapes (i : NodeId) (ancestors : List NodeId) (c : Container)
    (f : List NodeId → Value → Report) (g : Value → Shape) : Prop :=
  ∀ w ∈ c.parts, (f (i :: ancestors) w).shape = g w

theorem shape_reportWith {inner : Option (List NodeId → Value → Report)}
    {inner' : Option (Value → Shape)} {depth : Nat} {ancestors : List NodeId} {v : Value}
    (hin : ∀ i, v = .node i → i ∉ ancestors)
    (h : ∀ i c, v = .node i → S.heap[i]? = some c →
      Option.Rel (PartsHaveShapes i ancestors c) inner inner') :
    (S.reportWith size inner depth ancestors v).shape = S.outlineWith size inner' v := by
  unfold outlineWith
  cases hview : S.heap.view v with
  | scalar name => rw [reportWith_of_scalar hview]
  | sequence items =>
    obtain ⟨i, t, rfl, hc⟩ := Heap.view_eq_sequence hview
    have hinner := h i _ rfl hc
    rw [reportWith]
    simp only [hc, if_neg (hin i rfl), outlineElement_eq]
    cases hinner with
    | none => rfl
    | some hfg =>
      rename_i f g
      have hshapes : ((sampled items size).map (f (i :: ancestors))).map Report.shape =
          (sampled items size).map g := by
        rw [List.map_map]
        exact List.map_congr_left fun w hw => hfg w (mem_of_mem_sampled hw)
      simp only [← hshapes]
      rfl
  | mapping entries =>
    obtain ⟨i, t, rfl, hc⟩ := Heap.view_eq_mapping hview
    have hinner := h i _ rfl hc
    rw [reportWith]
    simp only [hc, if_neg (hin i rfl)]
    cases hinner with
    | none => rfl
    | some hfg =>
      rename_i f g
      have hfields := foldl_addField_eq (g := g) (f := f (i :: ancestors))
        (fun e (he : e ∈ entries) => hfg e.2 (List.mem_map_of_mem he)) []
      simp only [outlineFields, hfields]
      rfl

theorem shape_report (levels depth : Nat) {ancestors : List NodeId} {v : Value}
    (hv : S.heap.Acyclic v) (hapart : S.heap.Apart v ancestors) :
    (S.report size levels depth ancestors v).shape = S.outline size levels v := by
  have hnot : ∀ i, v = .node i → i ∉ ancestors := fun i hi => hapart i ⟨i, hi, .refl⟩
  induction levels generalizing depth ancestors v with
  | zero => exact shape_reportWith hnot fun _ _ _ _ => .none
  | succ levels ih =>
    refine shape_reportWith hnot fun i c hi hc => .some fun w hw => ?_
    subst hi
    have hpart := hapart.part hv hc hw
    exact ih (depth + 1) (hv.part hc hw) hpart fun j hj => hpart j ⟨j, hj, .refl⟩

/-- An inferred shape is the outline of the value, where the value is acyclic. -/
theorem infer_run_of_acyclic {S : Survey} {r : Request} {o : Options} {log log' : Array Record}
    (ho : r.options.run log = .ok o log') {v : Value} (hv : S.heap.Acyclic v)
    (hnamed : S.NamesKeys o.sampleSize (S.deepest o) [] v) :
    ∃ log'', (S.infer r v).run log = .ok (S.outline o.sampleSize (S.deepest o) v) log'' := by
  obtain ⟨log'', hrun⟩ := infer_run ho hnamed
  rw [shape_report _ _ hv fun _ _ => List.not_mem_nil] at hrun
  exact ⟨log'', hrun⟩

end Survey

end JsonShape
