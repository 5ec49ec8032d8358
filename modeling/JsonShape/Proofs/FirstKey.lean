import JsonShape.Proofs.Outline

/-!
# The first of several keys with one name

Different keys of a mapping can have one name. The walk of a survey goes through the entries in
order, and `Repeats entries x` says that the entry `x`, given with its place, comes after another
one with its name.

* `records_ofEntries`: an entry that repeats a name adds one record, and any other entry adds those
  of its value;
* `length_filter_repeats`: as many entries repeat a name as there are more entries than names;
* `visit_eq_of_first?`: the walk does not depend on visits to the values of entries that repeat a
  name;
* `first_key_counts`: all three, with the fields of the object that the walk gives.
-/

namespace JsonShape

/-- The entry comes after another one with its name. -/
def Repeats (entries : List (Scalar × Value)) (x : (Scalar × Value) × Nat) : Prop :=
  x.1.1.label ∈ (entries.take x.2).map (·.1.label)

instance (entries : List (Scalar × Value)) : DecidablePred (Repeats entries) :=
  fun x => inferInstanceAs (Decidable (x.1.1.label ∈ (entries.take x.2).map (·.1.label)))

section Repeats

variable {es es' : List (Scalar × Value)} {e : Scalar × Value} {x : (Scalar × Value) × Nat}

theorem repeats_append (hx : x ∈ es.zipIdx) : Repeats (es ++ es') x ↔ Repeats es x := by
  have hlt : x.2 < es.length := List.snd_lt_of_mem_zipIdx hx
  rw [Repeats, Repeats, List.take_append_of_le_length (Nat.le_of_lt hlt)]

theorem repeats_concat : Repeats (es ++ [e]) (e, es.length) ↔ e.1.label ∈ es.map (·.1.label) := by
  rw [Repeats, List.take_left]

theorem zipIdx_concat : (es ++ [e]).zipIdx = es.zipIdx ++ [(e, es.length)] := by
  rw [List.zipIdx_append, Nat.zero_add]
  rfl

theorem mem_labels_of_mem_zipIdx (hx : x ∈ es.zipIdx) : x.1.1.label ∈ es.map (·.1.label) :=
  List.mem_map_of_mem (List.fst_mem_of_mem_zipIdx hx)

theorem filter_repeats_concat (es : List (Scalar × Value)) (e : Scalar × Value) :
    (es ++ [e]).zipIdx.filter (Repeats (es ++ [e]) ·) = es.zipIdx.filter (Repeats es ·) ++
      if e.1.label ∈ es.map (·.1.label) then [(e, es.length)] else [] := by
  have hold : es.zipIdx.filter (Repeats (es ++ [e]) ·) = es.zipIdx.filter (Repeats es ·) :=
    List.filter_congr fun x hx => decide_eq_decide.mpr (repeats_append hx)
  simp only [zipIdx_concat, List.filter_append, hold, List.filter_cons, List.filter_nil,
    decide_eq_true_eq, repeats_concat]

/-- An entry that does not repeat a name has the value that counts. -/
theorem first?_of_not_repeats (hx : x ∈ es.zipIdx) (hrepeats : ¬ Repeats es x) :
    first? es x.1.1.label = some x.1.2 := by
  obtain ⟨hlt, hget⟩ := List.getElem?_eq_some_iff.mp (List.mem_zipIdx_iff_getElem?.mp hx)
  have hnone : first? (es.take x.2) x.1.1.label = none := first?_eq_none_iff.mpr hrepeats
  rw [← List.take_append_drop x.2 es, List.drop_eq_getElem_cons hlt, hget, first?_append, hnone]
  simp [first?]

/-- The entries that do not repeat a name have the distinct names. -/
theorem length_filter_repeats (es : List (Scalar × Value)) :
    (es.zipIdx.filter (Repeats es ·)).length + (es.map (·.1.label)).eraseDups.length =
      es.length := by
  induction es using List.reverseRecOn with
  | nil => rfl
  | append_singleton es e ih =>
    rw [filter_repeats_concat, List.map_append, List.map_singleton, Keyed.eraseDups_concat]
    split
    · simp only [List.length_append, List.length_singleton]
      omega
    · simp only [List.append_nil, List.length_append, List.length_singleton]
      omega

end Repeats

/-! ## Records -/

namespace Report

/-- What an entry adds to the records. -/
def recordsAt (f : Value → Report) (entries : List (Scalar × Value))
    (x : (Scalar × Value) × Nat) : List Record :=
  if Repeats entries x then [.keySkipped x.1.1 x.1.1.label] else (f x.1.2).records

theorem records_ofEntries_concat (f : Value → Report) (taken : List String)
    (es : List (Scalar × Value)) (e : Scalar × Value) :
    (ofEntries f taken (es ++ [e])).2 = (ofEntries f taken es).2 ++
      if e.1.label ∈ taken ∨ e.1.label ∈ es.map (·.1.label) then [.keySkipped e.1 e.1.label]
      else (f e.2).records := by
  induction es generalizing taken with
  | nil =>
    simp only [List.nil_append, ofEntries, List.map_nil, List.not_mem_nil, or_false]
    split <;> simp
  | cons e' es ih =>
    rw [List.cons_append, ofEntries, ofEntries]
    by_cases htaken : e'.1.label ∈ taken
    · have hiff : (e.1.label ∈ taken ∨ e.1.label ∈ (e' :: es).map (·.1.label)) ↔
          e.1.label ∈ taken ∨ e.1.label ∈ es.map (·.1.label) := by
        rw [List.map_cons, List.mem_cons]
        constructor
        · rintro (h | h | h)
          · exact .inl h
          · exact .inl (h ▸ htaken)
          · exact .inr h
        · exact Or.imp_right .inr
      simp only [if_pos htaken, ih, hiff, List.cons_append]
    · have hiff : (e.1.label ∈ taken ∨ e.1.label ∈ (e' :: es).map (·.1.label)) ↔
          e.1.label ∈ taken ++ [e'.1.label] ∨ e.1.label ∈ es.map (·.1.label) := by
        simp [or_assoc]
      simp only [if_neg htaken, ih, hiff, List.append_assoc]

/-- The induction is from the end of the entries: whether an entry repeats a name depends on those
before it. -/
theorem records_ofEntries (f : Value → Report) (es : List (Scalar × Value)) :
    (ofEntries f [] es).2 = es.zipIdx.flatMap (recordsAt f es) := by
  induction es using List.reverseRecOn with
  | nil => rfl
  | append_singleton es e ih =>
    have hold : es.zipIdx.flatMap (recordsAt f (es ++ [e])) = es.zipIdx.flatMap (recordsAt f es) :=
      List.flatMap_congr fun x hx => by simp only [recordsAt, repeats_append hx]
    rw [records_ofEntries_concat, ih, zipIdx_concat, List.flatMap_append, hold,
      List.flatMap_singleton]
    simp only [recordsAt, repeats_concat, List.not_mem_nil, false_or]

end Report

/-! ## Visits -/

namespace Survey

variable {S : Survey} {size depth : Nat} {visit visit' : Value → Walk Shape}

/-- The fields that are there already belong to entries before these. -/
theorem foldlM_addEntry_congr {digitLimit : Option Nat} {entries : List (Scalar × Value)}
    (fields : Array (Field Shape))
    (h : ForallFirst (Field.names fields.toList) entries fun v => visit v = visit' v) :
    entries.foldlM (addEntry digitLimit visit) fields =
      entries.foldlM (addEntry digitLimit visit') fields := by
  induction entries generalizing fields with
  | nil => rfl
  | cons e entries ih =>
    rw [List.foldlM_cons, List.foldlM_cons, addEntry, addEntry]
    cases hlabel : e.1.labelWithin digitLimit with
    | error err => rfl
    | ok name =>
      obtain rfl := Scalar.labelWithin_eq_label hlabel
      by_cases hname : e.1.label ∈ Field.names fields.toList
      · have hrest := ih fields ((forallFirst_cons_of_mem hname).mp h)
        simp only [Walk.liftM_ok, if_pos (any_name_iff.mpr hname), bind_assoc, pure_bind, hrest]
      · obtain ⟨hvisit, hall⟩ := (forallFirst_cons_of_notMem hname).mp h
        have hrest : ∀ shape,
            entries.foldlM (addEntry digitLimit visit) (fields.push ⟨e.1.label, shape, false⟩) =
              entries.foldlM (addEntry digitLimit visit')
                (fields.push ⟨e.1.label, shape, false⟩) := by
          intro shape
          refine ih _ ?_
          rwa [Array.toList_push, Field.names, List.map_append, List.map_singleton]
        simp only [Walk.liftM_ok, if_neg (mt any_name_iff.mp hname), bind_assoc, pure_bind,
          hrest, hvisit]

/-- Of a mapping only the values that count under its names are visited. -/
theorem visit_eq_of_first? {id : NodeId} {t : String} {entries : List (Scalar × Value)}
    (hid : S.heap[id]? = some (.mapping t entries))
    (h : ∀ name v, first? entries name = some v → visit v = visit' v) :
    S.visit size (some visit) depth (.node id) = S.visit size (some visit') depth (.node id) := by
  have hfields : entries.foldlM (addEntry S.digitLimit visit) #[] =
      entries.foldlM (addEntry S.digitLimit visit') #[] :=
    foldlM_addEntry_congr #[] fun name v _ => h name v
  have hinspect : S.inspect size (some visit) (.mapping t entries) =
      S.inspect size (some visit') (.mapping t entries) := by
    simp only [inspect, hfields]
  simp only [Survey.visit, hid, hinspect]

/-- **Of several keys with one name the first counts.**  A mapping is above the depth limit if there
is a level left to inspect. If the walk is not in it already, and unless it comes to a key that the
host does not write out, it gives an object with the distinct names of its keys in order of first
appearance, none of them optional, and under each the shape of the first value. In the order of the
entries, it adds the records of these values, and for each key that repeats a name one with the key
and the name, which is in the object. There are as many of these as there are more entries than
names. Other values are never visited: visits to them might do anything. -/
theorem first_key_counts (S : Survey) (o : Options) (levels depth : Nat) {entered : List NodeId}
    {id : NodeId} {t : String} {entries : List (Scalar × Value)}
    (hid : S.heap[id]? = some (.mapping t entries)) (hentered : id ∉ entered) :
    ∃ f : Value → Report,
      VisitYields (S.shapeAt o.sampleSize levels (depth + 1))
        (S.NamesKeys o.sampleSize levels (id :: entered)) f (id :: entered) S.refusal ∧
      ∃ fields : List (Field Shape),
        (S.shapeAt o.sampleSize (levels + 1) depth (.node id)).YieldsIf
          ((∀ key ∈ entries.map (·.1), key.NamedWithin S.digitLimit) ∧
            ∀ name v, first? entries name = some v →
              S.NamesKeys o.sampleSize levels (id :: entered) v)
          entered (.object ⟨fields, false⟩) (entries.zipIdx.flatMap (Report.recordsAt f entries))
          S.refusal ∧
        Field.names fields = (entries.map (·.1.label)).eraseDups ∧
        (∀ g ∈ fields, g.isOptional = false ∧
          ∃ v, first? entries g.name = some v ∧ g.shape = (f v).shape) ∧
        (entries.zipIdx.filter (Repeats entries ·)).length + fields.length = entries.length ∧
        (∀ x ∈ entries.zipIdx,
          (¬ Repeats entries x → first? entries x.1.1.label = some x.1.2 ∧
            Report.recordsAt f entries x = (f x.1.2).records) ∧
          (Repeats entries x → x.1.1.label ∈ Field.names fields ∧
            Report.recordsAt f entries x = [.keySkipped x.1.1 x.1.1.label])) ∧
        ∀ visit : Value → Walk Shape,
          (∀ name v, first? entries name = some v →
            visit v = S.shapeAt o.sampleSize levels (depth + 1) v) →
          S.visit o.sampleSize (some visit) depth (.node id) =
            S.shapeAt o.sampleSize (levels + 1) depth (.node id) := by
  obtain ⟨f, hf⟩ : ∃ f, f = S.report o.sampleSize levels (depth + 1) (id :: entered) := ⟨_, rfl⟩
  have hreport : S.report o.sampleSize (levels + 1) depth entered (.node id) =
      ⟨.object ⟨(Report.ofEntries f [] entries).1, false⟩, (Report.ofEntries f [] entries).2⟩ := by
    simp only [report, reportWith, hid, if_neg hentered, Option.map_some, reportContainer,
      Report.ofMapping, hf]
  have hnames : Field.names (Report.ofEntries f [] entries).1 =
      (entries.map (·.1.label)).eraseDups := by
    rw [fields_ofEntries, names_foldl_addField]
  have hwalk := yieldsIf_shapeAt (S := S) o.sampleSize_pos (levels + 1) depth entered (.node id)
  rw [hreport, Report.records_ofEntries] at hwalk
  refine ⟨f, hf ▸ yieldsIf_shapeAt o.sampleSize_pos levels (depth + 1) (id :: entered), _,
    hwalk.of_iff ?_, hnames, fun g hg => ?_, ?_, fun x hx => ⟨fun hx' => ?_, fun hx' => ?_⟩,
    fun visit hvisit => visit_eq_of_first? hid hvisit⟩
  · rw [namesKeys_node_iff hid hentered]
    refine and_congr_right fun _ => ⟨fun h v hv => ?_, fun h name v hv => h v ⟨name, hv⟩⟩
    obtain ⟨name, hv⟩ := hv
    exact h name v hv
  · rw [fields_ofEntries, foldl_addField_eq_filterMap] at hg
    obtain ⟨name, -, hname⟩ := List.mem_filterMap.mp hg
    obtain ⟨v, hv, rfl⟩ := Option.map_eq_some_iff.mp hname
    exact ⟨rfl, v, hv, rfl⟩
  · have hlength := length_filter_repeats entries
    rwa [← hnames, Field.names, List.length_map] at hlength
  · exact ⟨first?_of_not_repeats hx hx', if_neg hx'⟩
  · rw [hnames, List.mem_eraseDups]
    exact ⟨mem_labels_of_mem_zipIdx hx, if_pos hx'⟩

/-- The value of the key "1" is the mapping itself, and that of the key 1 repeats a name, too. The
host writes out integers of one digit. -/
theorem first_key_counts_twice :
    let entries : List (Scalar × Value) := [(.int 1, .node 1), (.text "1", .node 0),
      (.null, .scalar (.bool true)), (.text "None", .node 1), (.decimal "1", .node 0)]
    let h : Heap := #[.mapping "dict" entries,
      .mapping "dict" [(.int 2, .scalar .null), (.text "2", .node 0)]]
    let S : Survey := { heap := h, digitLimit := some 1 }
    ∃ fields : List (Field Shape),
      (S.shapeAt 100 8 0 (.node 0)).Yields [] (.object ⟨fields, false⟩)
        [.keySkipped (.text "2") "2", .keySkipped (.text "1") "1",
          .keySkipped (.text "None") "None", .keySkipped (.decimal "1") "1"] ∧
      Field.names fields = ["1", "None"] ∧ (∀ g ∈ fields, g.isOptional = false) ∧
      fields.length = 2 := by
  intro entries h S
  obtain ⟨f, hf, fields, hwalk, hnames, hfields, hlength, -, -⟩ :=
    @first_key_counts S {} 7 0 [] 0 "dict" entries rfl (by simp)
  have hkeys : ∀ c ∈ h.toList, ∀ key ∈ c.keys, key.NamedWithin (some 1) := by
    simp [h, entries, Container.keys, Scalar.NamedWithin, Scalar.labelWithin,
      Scalar.HasMoreDigits, Scalar.leastBeyond]
  have hnamed : ∀ ancestors v, S.NamesKeys 100 7 ancestors v := by
    intro ancestors v key hread
    obtain ⟨c, hc, hkey⟩ := hread.exists_mem
    exact hkeys c hc key hkey
  have hrecords : ∀ v, (f v).records = (S.report 100 7 1 [0] v).records := by
    intro v
    have hrun := ((hf v).yields (hnamed _ _) #[]).symm.trans
      (yields_shapeAt (hnamed [0] v) (by decide) 1 #[])
    injection hrun with _ hrecords
    simpa using congrArg Array.toList hrecords
  have hall : entries.zipIdx.flatMap (Report.recordsAt f entries) = (f (.node 1)).records ++
      (.keySkipped (.text "1") "1" :: (f (.scalar (.bool true))).records ++
        [.keySkipped (.text "None") "None", .keySkipped (.decimal "1") "1"]) := rfl
  have hthree : (entries.zipIdx.filter (Repeats entries ·)).length = 3 := rfl
  have hfive : entries.length = 5 := rfl
  have hroot : .mapping "dict" entries ∈ h.toList := List.mem_cons_self
  replace hwalk := hwalk.yields ⟨hkeys _ hroot, fun _ v _ => hnamed _ v⟩
  rw [hall, hrecords, hrecords] at hwalk
  exact ⟨fields, hwalk, hnames.trans (by decide), fun g hg => (hfields g hg).1, by omega⟩

end Survey

end JsonShape
