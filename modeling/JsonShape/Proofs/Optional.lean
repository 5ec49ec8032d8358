import JsonShape.Proofs.Report

/-!
# Which keys become optional

Merging two objects makes a key optional that only one of them has, and required again one that
both have and either requires. So the flag of a key after several merges depends on all the objects
that were merged, and on their order.

* `requires_merge`: which keys the merge of two objects requires;
* `requires_foldl_merge`: which keys are required after several merges, from where the key occurs;
* `merged_objects`: with the names, the shapes and the mark of the result.
-/

namespace JsonShape

/-! ## Required names -/

namespace Field

variable {σ : Type}

/-- The name is there and not optional. -/
def requires (fields : List (Field σ)) (name : String) : Bool :=
  (find? fields name).any (!·.isOptional)

theorem mem_names_of_requires {fields : List (Field σ)} {name : String}
    (h : requires fields name = true) : name ∈ names fields := by
  by_contra hn
  rw [requires, find?_eq_none_iff.mpr hn] at h
  cases h

theorem requires_of_forall {fields : List (Field σ)} {name : String}
    (h : ∀ f ∈ fields, f.isOptional = false) (hname : name ∈ names fields) :
    requires fields name = true := by
  cases hf : find? fields name with
  | none => exact absurd hname (find?_eq_none_iff.mp hf)
  | some f => simp [requires, hf, h f (mem_of_find? hf)]

theorem requires_of_mem {fields : List (Field σ)} (h : (names fields).Nodup) {f : Field σ}
    (hf : f ∈ fields) : requires fields f.name = !f.isOptional := by
  have hfind : find? fields f.name = some f := (Keyed.find?_eq_some_iff h).mpr ⟨hf, rfl⟩
  rw [requires, hfind, Option.any_some]

/-- Some object requires the name. Unless it is the first of all, one before it has the name too,
and all objects after it do. -/
def KeptRequired (os : List (ObjectOf σ)) (name : String) : Prop :=
  ∃ before o after, os = before ++ o :: after ∧ requires o.fields name = true ∧
    (before = [] ∨ ∃ o' ∈ before, name ∈ names o'.fields) ∧ ∀ o' ∈ after, name ∈ names o'.fields

theorem keptRequired_singleton {o : ObjectOf σ} {name : String} :
    KeptRequired [o] name ↔ requires o.fields name = true := by
  constructor
  · rintro ⟨before, o', after, hos, ho', -, -⟩
    cases before with
    | nil =>
      cases hos
      exact ho'
    | cons _ before => simp at hos
  · intro ho
    exact ⟨[], o, [], rfl, ho, .inl rfl, List.forall_mem_nil _⟩

/-- One object more: it has the name, and the name was kept required before, or the object requires
it anew. -/
theorem keptRequired_concat {os : List (ObjectOf σ)} {o : ObjectOf σ} {name : String}
    (hos : os ≠ []) : KeptRequired (os ++ [o]) name ↔ name ∈ names o.fields ∧
      (KeptRequired os name ∨
        requires o.fields name = true ∧ ∃ o' ∈ os, name ∈ names o'.fields) := by
  constructor
  · rintro ⟨before, p, after, hsplit, hp, hbefore, hafter⟩
    rcases List.eq_nil_or_concat after with rfl | ⟨after, q, rfl⟩
    · obtain ⟨rfl, hop⟩ := List.append_inj' hsplit rfl
      cases hop
      exact ⟨mem_names_of_requires hp, .inr ⟨hp, hbefore.resolve_left hos⟩⟩
    · rw [List.concat_eq_append, ← List.cons_append, ← List.append_assoc] at hsplit
      obtain ⟨rfl, hoq⟩ := List.append_inj' hsplit rfl
      cases hoq
      rw [List.concat_eq_append, List.forall_mem_append] at hafter
      exact ⟨hafter.2 o (List.mem_singleton_self o), .inl ⟨before, p, after, rfl, hp, hbefore,
        hafter.1⟩⟩
  · rintro ⟨ho, ⟨before, p, after, rfl, hp, hbefore, hafter⟩ | ⟨hp, hbefore⟩⟩
    · refine ⟨before, p, after ++ [o], by simp, hp, hbefore, ?_⟩
      exact List.forall_mem_append.mpr ⟨hafter, List.forall_mem_singleton.mpr ho⟩
    · exact ⟨os, o, [], rfl, hp, .inr hbefore, List.forall_mem_nil _⟩

end Field

/-! ## Merging objects from the left -/

namespace ObjectOf

variable {σ : Type} (m : σ → σ → σ) {o : ObjectOf σ} {os : List (ObjectOf σ)} {name : String}

theorem requires_merge (a b : ObjectOf σ) : Field.requires (a.merge m b).fields name = true ↔
    name ∈ Field.names b.fields ∧ (Field.requires a.fields name = true ∨
      Field.requires b.fields name = true ∧ name ∈ Field.names a.fields) := by
  unfold Field.requires
  rw [find?_merge]
  cases ha : Field.find? a.fields name with
  | none =>
    have hna := Field.find?_eq_none_iff.mp ha
    cases Field.find? b.fields name <;> simp [hna]
  | some f =>
    have hna : name ∈ Field.names a.fields := by
      by_contra h
      rw [Field.find?_eq_none_iff.mpr h] at ha
      cases ha
    have hname := Field.name_of_find? ha
    cases hb : Field.find? b.fields name with
    | none =>
      have hnb := Field.find?_eq_none_iff.mp hb
      simp [Field.mergeInto, hname, hb, hnb]
    | some g =>
      have hnb : name ∈ Field.names b.fields := by
        by_contra h
        rw [Field.find?_eq_none_iff.mpr h] at hb
        cases hb
      cases hf : f.isOptional <;> simp [Field.mergeInto, hname, hb, hna, hnb, hf]

theorem mem_names_foldl_merge : name ∈ Field.names (os.foldl (merge m) o).fields ↔
    ∃ o' ∈ o :: os, name ∈ Field.names o'.fields := by
  induction os using List.reverseRecOn with
  | nil => simp
  | append_singleton os p ih =>
    rw [List.foldl_concat, names_merge_eq_union, Keyed.mem_union,
      ih, ← List.cons_append]
    simp only [List.mem_append, List.mem_singleton, or_and_right, exists_or, exists_eq_left]

theorem names_foldl_merge (h : ∀ p ∈ o :: os, (Field.names p.fields).Nodup) :
    Field.names (os.foldl (merge m) o).fields =
      ((o :: os).flatMap fun p => Field.names p.fields).eraseDups := by
  induction os using List.reverseRecOn with
  | nil => simpa using (Keyed.eraseDups_of_nodup (h o List.mem_cons_self)).symm
  | append_singleton os p ih =>
    rw [← List.cons_append, List.forall_mem_append] at h
    have hp := h.2 p (List.mem_singleton_self p)
    rw [List.foldl_concat, names_merge_eq_union, ih h.1,
      ← List.cons_append, List.flatMap_append, Keyed.eraseDups_append, List.flatMap_singleton,
      Keyed.eraseDups_of_nodup hp]

theorem shape?_foldl_merge : Field.shape? (os.foldl (merge m) o).fields name =
    foldFirst? m ((o :: os).filterMap fun p => Field.shape? p.fields name) := by
  induction os using List.reverseRecOn with
  | nil => cases hs : Field.shape? o.fields name <;> simp [hs, foldFirst?]
  | append_singleton os p ih =>
    rw [List.foldl_concat, shape?_merge, ih, ← List.cons_append,
      List.filterMap_append]
    cases hs : Field.shape? p.fields name with
    | none => simp [hs]
    | some s => simp [hs, foldFirst?_concat]

/-- The induction is from the end of the list: the last merge is the one that decides. -/
theorem requires_foldl_merge : Field.requires (os.foldl (merge m) o).fields name = true ↔
    Field.KeptRequired (o :: os) name := by
  induction os using List.reverseRecOn with
  | nil => exact Field.keptRequired_singleton.symm
  | append_singleton os p ih =>
    rw [List.foldl_concat, requires_merge, ih,
      mem_names_foldl_merge, ← List.cons_append, Field.keptRequired_concat (List.cons_ne_nil o os)]

theorem isEmpty_fields_foldl_merge :
    (os.foldl (merge m) o).fields.isEmpty = (o :: os).all (·.fields.isEmpty) := by
  induction os using List.reverseRecOn with
  | nil => simp
  | append_singleton os p ih =>
    rw [List.foldl_concat, isEmpty_fields_merge, ih,
      ← List.cons_append, List.all_append]
    simp

/-- Objects without keys pass their mark on. With keys in some of them only a single object that was
not merged could be marked. -/
theorem collapsed_foldl_merge_of_isEmpty (h : (o :: os).all (·.fields.isEmpty) = true) :
    (os.foldl (merge m) o).collapsed = (o :: os).any (·.collapsed) := by
  induction os using List.reverseRecOn with
  | nil => simp
  | append_singleton os p ih =>
    rw [← List.cons_append, List.all_append, Bool.and_eq_true] at h
    have hp : p.fields.isEmpty = true := by simpa using h.2
    rw [List.foldl_concat, collapsed_merge,
      isEmpty_fields_foldl_merge, h.1, hp, ih h.1, ← List.cons_append, List.any_append]
    simp

theorem collapsed_foldl_merge (hos : os ≠ []) : (os.foldl (merge m) o).collapsed = true ↔
    (∀ p ∈ o :: os, p.fields = []) ∧ ∃ p ∈ o :: os, p.collapsed = true := by
  have hempty : (o :: os).all (·.fields.isEmpty) = true ↔ ∀ p ∈ o :: os, p.fields = [] := by
    simp
  have hany : (o :: os).any (·.collapsed) = true ↔ ∃ p ∈ o :: os, p.collapsed = true :=
    List.any_eq_true
  rw [← hempty, ← hany]
  constructor
  · intro hc
    have hall : (o :: os).all (·.fields.isEmpty) = true := by
      obtain ⟨os, p, rfl⟩ := (List.eq_nil_or_concat os).resolve_left hos
      rw [List.concat_eq_append] at hc ⊢
      rw [List.foldl_concat, collapsed_merge,
        ← isEmpty_fields_merge m, Bool.and_eq_true] at hc
      rw [← isEmpty_fields_foldl_merge m, List.foldl_append]
      exact hc.1
    exact ⟨hall, collapsed_foldl_merge_of_isEmpty m hall ▸ hc⟩
  · rintro ⟨hall, hc⟩
    rw [collapsed_foldl_merge_of_isEmpty m hall]
    exact hc

/-- Where no object has an optional key, the last one decides with the keys of the others: a key is
optional if one side lacks it. -/
theorem isOptional_foldl_merge_concat {p : ObjectOf σ}
    (hnodup : ∀ q ∈ o :: (os ++ [p]), (Field.names q.fields).Nodup)
    (hp : ∀ f ∈ p.fields, f.isOptional = false) {f : Field σ}
    (hf : f ∈ ((os ++ [p]).foldl (merge m) o).fields) : f.isOptional = true ↔
      f.name ∉ Field.names p.fields ∨ ∀ q ∈ o :: os, f.name ∉ Field.names q.fields := by
  have hnames : (Field.names ((os ++ [p]).foldl (merge m) o).fields).Nodup := by
    rw [names_foldl_merge m hnodup]
    exact Keyed.nodup_eraseDups _
  have hopt : f.isOptional = true ↔
      ¬ Field.requires ((os ++ [p]).foldl (merge m) o).fields f.name = true := by
    rw [Field.requires_of_mem hnames hf, Bool.not_eq_true', Bool.not_eq_false]
  have hreq : Field.requires ((os ++ [p]).foldl (merge m) o).fields f.name = true ↔
      f.name ∈ Field.names p.fields ∧ ∃ q ∈ o :: os, f.name ∈ Field.names q.fields := by
    rw [List.foldl_concat, requires_merge, mem_names_foldl_merge]
    constructor
    · rintro ⟨hpn, hr | ⟨-, hq⟩⟩
      · exact ⟨hpn, (mem_names_foldl_merge m).mp (Field.mem_names_of_requires hr)⟩
      · exact ⟨hpn, hq⟩
    · rintro ⟨hpn, hq⟩
      exact ⟨hpn, .inr ⟨Field.requires_of_forall hp hpn, hq⟩⟩
  rw [hopt, hreq, not_and_or]
  simp

end ObjectOf

/-! ## Objects in surveys -/

namespace Survey

open Shape

theorem isOptional_ofEntries {α : Type} {f : α → Report} {taken : List String}
    {es : List (Scalar × α)} : ∀ g ∈ (Report.ofEntries f taken es).1, g.isOptional = false := by
  induction es generalizing taken with
  | nil => exact List.forall_mem_nil _
  | cons e es ih =>
    rw [Report.ofEntries]
    split
    · exact ih
    · exact List.forall_mem_cons.mpr ⟨rfl, ih⟩

theorem isOptional_reportWith {S : Survey} {size depth : Nat} {ancestors : List NodeId}
    {inner : Option (List NodeId → Value → Report)} (v : Value) {o : ObjectOf Shape}
    (ho : (S.reportWith size inner depth ancestors v).shape = .object o) :
    ∀ f ∈ o.fields, f.isOptional = false := by
  revert ho
  refine shape_reportWith_cases (Q := fun s => s = .object o → ∀ f ∈ o.fields, f.isOptional = false)
    (fun name _ ho => by cases ho) (fun _ c _ _ _ ho => ?_) (fun _ c _ _ _ ho => ?_)
  · cases c <;> cases ho
    exact List.forall_mem_nil _
  · cases c with
    | sequence t items => cases ho
    | mapping t entries =>
      cases inner <;> cases ho
      · exact List.forall_mem_nil _
      · exact isOptional_ofEntries

/-- An object that a walk gives has no optional key. -/
theorem isOptional_shapeAt {S : Survey} {size : Nat} (hsize : 0 < size) {levels depth : Nat}
    {entered left : List NodeId} {v : Value} {o : ObjectOf Shape} {log log' : Array Record}
    (ho : ((S.shapeAt size levels depth v).run entered).run log = .ok (.object o, left) log') :
    ∀ f ∈ o.fields, f.isOptional = false := by
  have hwalk := yieldsIf_shapeAt (S := S) hsize levels depth entered v
  have hnamed : S.NamesKeys size levels entered v := by
    by_contra hrefused
    obtain ⟨log₁, hrun⟩ := hwalk.stops hrefused log
    cases hrun.symm.trans ho
  rw [hwalk.yields hnamed log] at ho
  injection ho with hpair
  have hshape : (S.report size levels depth entered v).shape = .object o := congrArg Prod.fst hpair
  cases levels with
  | zero => exact isOptional_reportWith v hshape
  | succ levels => exact isOptional_reportWith v hshape

end Survey

open Shape

/-- **Merging several objects.**  The merge of one or more objects from the left has all their names
in order of first appearance, under each the merge of the shapes that the objects have there, and
requires those names that are kept required. A merge of two or more is collapsed if one of them is
and none has a key. Objects come from a survey without optional keys; after merging two or more such
objects, those keys are optional which the last object lacks or none of the others has. -/
theorem merged_objects :
    (∀ os : List (ObjectOf Shape), os ≠ [] → (∀ o ∈ os, (Field.names o.fields).Nodup) →
      ∃ r, foldFirst? (ObjectOf.merge merge) os = some r ∧
        Field.names r.fields = (os.flatMap fun o => Field.names o.fields).eraseDups ∧
        (∀ name, Field.shape? r.fields name =
          foldFirst? merge (os.filterMap fun o => Field.shape? o.fields name)) ∧
        (∀ name, Field.requires r.fields name = true ↔ Field.KeptRequired os name) ∧
        (2 ≤ os.length → (r.collapsed = true ↔
          (∀ o ∈ os, o.fields = []) ∧ ∃ o ∈ os, o.collapsed = true)) ∧
        ∀ others last, os = others ++ [last] → others ≠ [] →
          (∀ o ∈ os, ∀ f ∈ o.fields, f.isOptional = false) →
          ∀ f ∈ r.fields, (f.isOptional = true ↔
            f.name ∉ Field.names last.fields ∨ ∀ o ∈ others, f.name ∉ Field.names o.fields)) ∧
    ∀ (S : Survey) (size levels depth : Nat) (entered left : List NodeId) (v : Value)
      (o : ObjectOf Shape) (log log' : Array Record), 0 < size →
      ((S.shapeAt size levels depth v).run entered).run log = .ok (.object o, left) log' →
      ∀ f ∈ o.fields, f.isOptional = false := by
  refine ⟨fun os hne hnodup => ?_, fun S size levels depth entered left v o log log' hsize ho =>
    Survey.isOptional_shapeAt hsize ho⟩
  obtain ⟨o, os, rfl⟩ := List.exists_cons_of_ne_nil hne
  refine ⟨_, rfl, ObjectOf.names_foldl_merge merge hnodup,
    fun name => ObjectOf.shape?_foldl_merge merge,
    fun name => ObjectOf.requires_foldl_merge merge, fun hlen => ?_, ?_⟩
  · refine ObjectOf.collapsed_foldl_merge merge ?_
    rintro rfl
    simp at hlen
  · intro others last hsplit hothers hall f hf
    obtain ⟨p, others, rfl⟩ := List.exists_cons_of_ne_nil hothers
    obtain ⟨rfl, rfl⟩ := List.cons.inj hsplit
    have hlast := hall last (List.mem_append_right (o :: others) (List.mem_singleton_self last))
    exact ObjectOf.isOptional_foldl_merge_concat merge hnodup hlast hf

/-- The second object lacks the key "a" and the first one "c", but the last object has both. -/
theorem merged_objects_again :
    let o₁ : ObjectOf Shape := ⟨[⟨"a", .number, false⟩, ⟨"b", .null, false⟩], false⟩
    let o₂ : ObjectOf Shape := ⟨[⟨"c", .null, false⟩], true⟩
    let o₃ : ObjectOf Shape := ⟨[⟨"a", .string, false⟩, ⟨"c", .null, false⟩], false⟩
    let h : Heap := #[.mapping "dict" [(.text "a", .scalar .null)]]
    let a : ObjectOf Shape := ⟨[⟨"a", .null, false⟩], false⟩
    (∃ r, foldFirst? (ObjectOf.merge merge) [o₁, o₂, o₃] = some r ∧
      Field.names r.fields = ["a", "b", "c"] ∧
      Field.shape? r.fields "a" = some (.choice [.number, .string]) ∧
      Field.requires r.fields "a" = true ∧ r.collapsed = false ∧
      ∀ f ∈ r.fields, (f.isOptional = true ↔ f.name = "b")) ∧
    ((({ heap := h } : Survey).shapeAt 100 8 0 (.node 0)).run []).run #[] =
      .ok (.object a, []) #[] ∧ ∀ f ∈ a.fields, f.isOptional = false := by
  intro o₁ o₂ o₃ h a
  obtain ⟨hmerge, hsurvey⟩ := merged_objects
  obtain ⟨r, hr, hnames, hshape, hrequires, hcollapsed, hoptional⟩ :=
    hmerge [o₁, o₂, o₃] (by decide) (by decide)
  have hwalk : ((({ heap := h } : Survey).shapeAt 100 8 0 (.node 0)).run []).run #[] =
      .ok (.object a, []) #[] := Survey.yields_shapeAt
        (Survey.namesKeys_of_unlimited rfl) (by decide) 0 #[]
  refine ⟨⟨r, hr, hnames.trans (by decide), (hshape "a").trans rfl, (hrequires "a").mpr ?_, ?_,
    fun f hf => ?_⟩, hwalk, hsurvey _ 100 8 0 [] [] _ a #[] #[] (by decide) hwalk⟩
  · exact ⟨[o₁, o₂], o₃, [], rfl, by decide, .inr ⟨o₁, by simp, by decide⟩, List.forall_mem_nil _⟩
  · have hkeys : ¬ ∀ o ∈ [o₁, o₂, o₃], o.fields = [] := fun hall => by
      cases hall o₁ List.mem_cons_self
    rw [← Bool.not_eq_true, hcollapsed (by decide)]
    exact fun hc => hkeys hc.1
  · have hname : f.name ∈ ["a", "b", "c"] := by
      rw [show ["a", "b", "c"] = Field.names r.fields from (hnames.trans (by decide)).symm]
      exact List.mem_map_of_mem hf
    rw [hoptional [o₁, o₂] o₃ rfl (by decide) (by decide) f hf]
    revert hname
    generalize f.name = name
    intro hname
    simp only [List.mem_cons, List.not_mem_nil, or_false] at hname
    rcases hname with rfl | rfl | rfl <;> decide

end JsonShape
