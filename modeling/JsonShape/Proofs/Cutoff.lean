import JsonShape.Proofs.Layout

/-!
# Where rendering stops

`Meets limit depth s k t` says that rendering `s` comes to `t`, a number of containers further down.
From an array it goes on to the element only above the depth limit, but from an object to its keys
at any depth.

* `infix_of_meets`, `infix_of_mem_fields`: what is met is in the text, and so are all keys of an
  object that is met;
* `exists_keys_of_limit_lt`: what is met below the limit lies in an object with keys at the limit;
* `keyless_of_meets`: inferred shapes have no such object at the limit of the survey;
* `stopsAt_iff`: so rendering stops at the limit exactly for shapes without such an object, and
  thumbnails are cut off at the limit.
-/

namespace JsonShape

open Shape

namespace Shape

/-- Rendering `s` at `depth` comes to the second shape, which is at depth `k`. -/
inductive Meets (limit : Nat) : Nat → Shape → Nat → Shape → Prop
  | here (depth : Nat) (s : Shape) : Meets limit depth s depth s
  | element {depth k : Nat} {a : ArrayOf Shape} {t : Shape} (ha : a.hasElement = true)
    (hlt : depth < limit) (h : Meets limit (depth + 1) a.element k t) :
    Meets limit depth (.array a) k t
  | field {depth k : Nat} {o : ObjectOf Shape} {f : Field Shape} {t : Shape} (hf : f ∈ o.fields)
    (h : Meets limit (depth + 1) f.shape k t) : Meets limit depth (.object o) k t
  | alternative {depth k : Nat} {vs : List Shape} {v t : Shape} (hv : v ∈ vs)
    (h : Meets limit depth v k t) : Meets limit depth (.choice vs) k t

/-- At the limit and below it rendering meets nothing but objects without keys, which it cuts off,
and what has no containers to go on to. -/
structure StopsAt (limit : Nat) (s : Shape) : Prop where
  cutOff : ∀ k o, Meets limit 0 s k (.object o) → limit ≤ k → ∀ indent,
    renderAt limit k indent (.object o) = "\x7b...\x7d"
  keys : ∀ k o, Meets limit 0 s k (.object o) → o.fields ≠ [] → k < limit
  depth : ∀ k t, Meets limit 0 s k t → k ≤ limit

variable {limit depth k : Nat} {s t : Shape}

/-! ## What is met is written -/

theorem renderAt_array_below {a : ArrayOf Shape} (hle : limit ≤ depth) (ha : a.isEmpty = false)
    (indent : Nat) :
    renderAt limit depth indent (.array a) = "Array(" ++ a.extent.text ++ ") of ..." := by
  rw [renderAt, if_neg (by simp [ha]), if_pos (.inr hle)]

/-- Every key of an object is written, whatever the depth. -/
theorem infix_of_mem_fields (limit depth indent : Nat) {o : ObjectOf Shape} {f : Field Shape}
    (hf : f ∈ o.fields) : ∃ indent', fieldChars limit (depth + 1) indent' f <:+:
      chars limit depth indent (.object o) := by
  have ho : o.fields ≠ [] := List.ne_nil_of_mem hf
  by_cases hc : Compact o
  · refine ⟨indent, ?_⟩
    rw [chars_object_compact ho hc]
    have hjoined : fieldChars limit (depth + 1) indent f <:+:
        ", ".toList.intercalate (o.fields.map (fieldChars limit (depth + 1) indent)) :=
      infix_joined_of_mem (List.mem_map_of_mem hf)
    exact (hjoined.trans (List.prefix_append _ _).isInfix).trans (List.suffix_cons _ _).isInfix
  · refine ⟨indent + 2, ?_⟩
    rw [chars_object_block ho hc]
    have hjoined : (spaces (indent + 2)).toList ++ fieldChars limit (depth + 1) (indent + 2) f <:+:
        ",\n".toList.intercalate (o.fields.map fun f =>
          (spaces (indent + 2)).toList ++ fieldChars limit (depth + 1) (indent + 2) f) :=
      infix_joined_of_mem (List.mem_map_of_mem hf)
    have hfield := (List.suffix_append _ _).isInfix.trans hjoined
    exact ((hfield.trans (List.prefix_append _ _).isInfix).trans
      (List.suffix_cons _ _).isInfix).trans (List.suffix_cons _ _).isInfix

theorem infix_of_meets (h : Meets limit depth s k t) (indent : Nat) :
    ∃ indent', chars limit k indent' t <:+: chars limit depth indent s := by
  induction h generalizing indent with
  | here depth s => exact ⟨indent, List.infix_rfl⟩
  | element ha hlt h ih =>
    rename_i depth k a t
    obtain ⟨indent', htext⟩ := ih indent
    obtain ⟨hempty, hcollapsed⟩ : a.isEmpty = false ∧ a.collapsed = false := by
      simpa [ArrayOf.hasElement] using ha
    refine ⟨indent', htext.trans ?_⟩
    have hle : ¬ limit ≤ depth := by omega
    rw [chars, chars, renderAt]
    simp only [hempty, hcollapsed, hle, Bool.false_eq_true, or_false, if_false,
      String.toList_append]
    exact (List.suffix_append _ _).isInfix
  | field hf h ih =>
    obtain ⟨indent', hfield⟩ := infix_of_mem_fields _ _ indent hf
    obtain ⟨indent'', htext⟩ := ih indent'
    refine ⟨indent'', (htext.trans ?_).trans hfield⟩
    rw [fieldChars]
    exact ((List.suffix_append _ _).isInfix.trans (List.suffix_cons _ _).isInfix).trans
      (List.suffix_append _ _).isInfix
  | alternative hv h ih =>
    obtain ⟨indent', htext⟩ := ih indent
    refine ⟨indent', htext.trans ?_⟩
    rw [chars_eq_joined (.choice _)]
    exact infix_joined_of_mem (List.mem_map_of_mem hv)

/-! ## Below the limit -/

/-- The way down passes the limit at an object, since it does not at an array. -/
theorem exists_keys_of_limit_lt (h : Meets limit depth s k t) (hle : depth ≤ limit)
    (hlt : limit < k) : ∃ o, Meets limit depth s limit (.object o) ∧ o.fields ≠ [] := by
  induction h with
  | here depth s => omega
  | element ha hdepth h ih =>
    obtain ⟨o, hmet, ho⟩ := ih hdepth hlt
    exact ⟨o, .element ha hdepth hmet, ho⟩
  | field hf h ih =>
    rename_i depth k o f t
    rcases Nat.eq_or_lt_of_le hle with rfl | hdepth
    · exact ⟨o, .here depth _, List.ne_nil_of_mem hf⟩
    · obtain ⟨o', hmet, ho⟩ := ih hdepth hlt
      exact ⟨o', .field hf hmet, ho⟩
  | alternative hv h ih =>
    obtain ⟨o, hmet, ho⟩ := ih hle hlt
    exact ⟨o, .alternative hv hmet, ho⟩

/-- What is met is found on a path through the shape, which has a step for each container. -/
theorem exists_at?_of_meets (h : Meets limit depth s k t) (hs : s.Regular) (ht : t.kind ≠ .choice) :
    ∃ path u, s.at? path = some u ∧ t ∈ u.alternatives ∧ depth + path.length = k := by
  induction h with
  | here depth s =>
    exact ⟨[], s, rfl, by rw [alternatives_eq_singleton ht]; exact List.mem_singleton_self s, rfl⟩
  | element ha hlt h ih =>
    rename_i depth k a t
    obtain ⟨path, u, hu, ht, hk⟩ := ih (everywhere_array.mp hs).2 ht
    refine ⟨.element :: path, u, ?_, ht, by rw [List.length_cons]; omega⟩
    have hstep : (array a).step? .element = some a.element := by
      rw [step?_of_mem hs.self.flat (List.mem_singleton_self _) rfl, part?, if_pos ha]
    rw [at?, hstep, Option.bind_some, hu]
  | field hf h ih =>
    rename_i depth k o f t
    obtain ⟨path, u, hu, ht, hk⟩ := ih ((everywhere_object.mp hs).2 f hf) ht
    refine ⟨.field f.name :: path, u, ?_, ht, by rw [List.length_cons]; omega⟩
    have hstep : (object o).step? (.field f.name) = some f.shape := by
      rw [step?_of_mem hs.self.flat (List.mem_singleton_self _) rfl, part?,
        Field.shape?_of_mem hs.self.1 hf]
    rw [at?, hstep, Option.bind_some, hu]
  | alternative hv h ih =>
    rename_i depth k vs v t
    obtain ⟨path, u, hu, ht, hk⟩ := ih ((everywhere_choice.mp hs).2 v hv) ht
    have hflat : Flat (choice vs).alternatives := hs.self.flat
    have hvk := hflat.kind_ne_choice hv
    cases path with
    | nil =>
      cases hu
      rw [alternatives_eq_singleton hvk, List.mem_singleton] at ht
      exact ⟨[], choice vs, rfl, ht ▸ hv, hk⟩
    | cons d path =>
      refine ⟨d :: path, u, ?_, ht, hk⟩
      have hkind : v.kind = d.kind := by
        by_contra hne
        rw [at?, step?_of_kind_ne_choice hvk, part?_of_kind_ne hne] at hu
        cases hu
      rw [at?, step?_of_kind_ne_choice hvk] at hu
      rw [at?, step?_of_mem hflat hv hkind, hu]

/-! ## What is cut off -/

/-- The text of an object with keys has a colon. -/
theorem renderAt_object_below {o : ObjectOf Shape} (hle : limit ≤ depth) (indent : Nat) :
    renderAt limit depth indent (.object o) = "\x7b...\x7d" ↔ o.fields = [] := by
  constructor
  · intro htext
    by_contra ho
    obtain ⟨f, hf⟩ := List.exists_mem_of_ne_nil _ ho
    obtain ⟨indent', hfield⟩ := infix_of_mem_fields limit depth indent hf
    have hcolon : ':' ∈ fieldChars limit (depth + 1) indent' f := by
      cases hmark : f.isOptional <;> simp [fieldChars, markOf, hmark]
    have hmem := hfield.subset hcolon
    rw [chars, htext] at hmem
    exact absurd hmem (by decide)
  · intro ho
    rw [renderAt, if_pos (by simp [ho]), if_pos (.inr hle)]

theorem stopsAt_of_keyless (h : ∀ o, Meets limit 0 s limit (.object o) → o.fields = []) :
    StopsAt limit s := by
  have hdepth : ∀ k t, Meets limit 0 s k t → k ≤ limit := by
    intro k t hmet
    by_contra hlt
    obtain ⟨o, hmet, ho⟩ := exists_keys_of_limit_lt hmet (Nat.zero_le _) (by omega)
    exact ho (h o hmet)
  have hkeys : ∀ k o, Meets limit 0 s k (.object o) → limit ≤ k → o.fields = [] := by
    intro k o hmet hle
    obtain rfl := Nat.le_antisymm (hdepth k _ hmet) hle
    exact h o hmet
  refine ⟨fun k o hmet hle indent => ?_, fun k o hmet ho => ?_, hdepth⟩
  · exact (renderAt_object_below hle indent).mpr (hkeys k o hmet hle)
  · by_contra hle
    exact ho (hkeys k o hmet (by omega))

theorem stopsAt_iff_keyless :
    StopsAt limit s ↔ ∀ o, Meets limit 0 s limit (.object o) → o.fields = [] := by
  refine ⟨fun h o hmet => ?_, stopsAt_of_keyless⟩
  exact (renderAt_object_below (Nat.le_refl _) 0).mp (h.cutOff limit o hmet (Nat.le_refl _) 0)

end Shape

namespace Survey

/-- The keys of a reported shape lie above the last level that was inspected. -/
theorem stopsAt_report {S : Survey} {size : Nat} (hS : S.uninspected = .null) (hsize : 0 < size)
    (levels depth : Nat) (x : Visit) :
    StopsAt levels (S.report size levels depth x.ancestors x.value).shape := by
  refine stopsAt_of_keyless fun o hmet => ?_
  obtain ⟨path, u, hu, ho, hlen⟩ := exists_at?_of_meets hmet (regular_report hS _ _ _ _ _) nofun
  by_contra hne
  obtain ⟨f, hf⟩ := List.exists_mem_of_ne_nil _ hne
  obtain ⟨hlt, -⟩ := inspected_of_mem_fields hS hsize hu ho hf
  omega

end Survey

/-- **Where rendering stops.**  All that rendering meets is in the text, with all keys of objects,
and arrays at the depth limit or below it are cut off, whatever they contain. Rendering stops there
altogether exactly for shapes without an object with keys at the limit: then it meets nothing below
the limit, objects at the limit are cut off, and the keys in the text are those of objects above it.
Thumbnails stop at the limit of their survey. -/
theorem stopsAt_iff (s : Shape) (limit maxDepth : Int) :
    let D := (min maxDepth (greatestDepth limit)).toNat
    (∀ log, ∃ log', (s.renderWithin limit maxDepth).run log = .ok (s.render D) log') ∧
    (∀ k t, Meets D 0 s k t → ∃ indent,
      (renderAt D k indent t).toList <:+: (s.render D).toList) ∧
    (∀ k o, Meets D 0 s k (.object o) → ∀ f ∈ o.fields, ∃ indent,
      fieldChars D (k + 1) indent f <:+: (s.render D).toList) ∧
    (∀ k a, D ≤ k → a.isEmpty = false → ∀ indent,
      renderAt D k indent (.array a) = "Array(" ++ a.extent.text ++ ") of ...") ∧
    (StopsAt D s ↔ ∀ o, Meets D 0 s D (.object o) → o.fields = []) ∧
    ∀ (h : Heap) (base : Option Options) (sampleSize maxDepth : Option Int) (v : Value),
      let S : Survey := { heap := h, recursionLimit := limit }
      let r : Request := .ofIntegers base sampleSize maxDepth
      ∃ o t, (∀ log, ∃ log', r.options.run log = .ok o log') ∧
        S.Answers r v t (t.render (S.deepest o)) ∧ StopsAt (S.deepest o) t := by
  intro D
  refine ⟨fun log => ?_, fun k t hmet => infix_of_meets hmet 0, fun k o hmet f hf => ?_,
    fun k a hle ha => renderAt_array_below hle ha, stopsAt_iff_keyless, ?_⟩
  · obtain ⟨log', hlog⟩ := allowedDepth_int_run limit maxDepth log
    exact ⟨log', Survey.renderWithin_run hlog s⟩
  · obtain ⟨indent, hobject⟩ := infix_of_meets hmet 0
    obtain ⟨indent', hfield⟩ := infix_of_mem_fields _ _ indent hf
    exact ⟨indent', hfield.trans hobject⟩
  · intro h base sampleSize maxDepth v S r
    have ho := Request.options_ofIntegers_run base sampleSize maxDepth
    exact ⟨_, _, ho, Survey.answers_of_options ho rfl (Survey.namesKeys_of_unlimited rfl),
      Survey.stopsAt_report rfl (Options.sampleSize_pos _) _ 0 ⟨[], v⟩⟩

/-- The array at the limit is cut off, though its element has keys. -/
theorem stopsAt_iff_array :
    let s : Shape := .object ⟨[⟨"a", .array ⟨.exact 2,
      .object ⟨[⟨"b", .number, false⟩], false⟩, false⟩, false⟩], false⟩
    s.render 1 = "\x7ba: Array(2) of ...\x7d" ∧
      (∀ o, Meets 1 0 s 1 (.object o) → o.fields = []) ∧ StopsAt 1 s := by
  intro s
  have hkeyless : ∀ o, Meets 1 0 s 1 (.object o) → o.fields = [] := by
    intro o hmet
    simp only [s] at hmet
    cases hmet with
    | field hf h =>
      cases List.mem_singleton.mp hf
      cases h with
      | element _ hlt _ => exact absurd hlt (by decide)
  obtain ⟨-, -, -, -, hstops, -⟩ := stopsAt_iff s 1000 1
  exact ⟨by decide +kernel, hkeyless, hstops.mpr hkeyless⟩

/-- An object with keys at the limit, and one in it. Both are written with their keys. -/
theorem not_stopsAt_keys :
    let inner : ObjectOf Shape := ⟨[⟨"b", .number, false⟩], false⟩
    let s : Shape := .object ⟨[⟨"a", .object inner, false⟩], false⟩
    (s.renderWithin 1000 0).run #[] = .ok "\x7ba: \x7bb: number\x7d\x7d" #[] ∧
      Meets 0 0 s 0 s ∧ Meets 0 0 s 1 (.object inner) ∧ ¬ StopsAt 0 s := by
  intro inner s
  have hinner : Meets 0 0 s 1 (.object inner) :=
    .field (List.mem_singleton_self _) (.here 1 (.object inner))
  have htext : s.render 0 = "\x7ba: \x7bb: number\x7d\x7d" := by decide +kernel
  refine ⟨?_, .here 0 s, hinner, fun hstops => ?_⟩
  · exact (Survey.renderWithin_run rfl s).trans (congrArg (EStateM.Result.ok · #[]) htext)
  · exact absurd (hstops.depth 1 _ hinner) (by decide)

end JsonShape
