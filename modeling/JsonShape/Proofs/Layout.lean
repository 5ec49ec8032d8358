import JsonShape.Proofs.Inspected
import JsonShape.Proofs.Reading
import JsonShape.Proofs.Total

/-!
# Shapes on one line

Whether a shape is on one line is decided on the shape alone. Its text also depends on the depth
limit, which may leave out what takes several lines.

* `newline_notMem_chars`: the text of a shape on one line has no newline, at any limit, if its words
  have none;
* `newline_mem_chars`: the text of a regular shape on several lines has a newline, if the limit is
  not more than one level above the bottom of the shape. What is left out there is on one line;
* `wordsAre_report`: the words of a reported shape are names of scalars, and the names of keys that
  were inspected;
* `oneLine_iff_onOneLine`: so thumbnails are on one line exactly where their shapes are.
-/

namespace JsonShape

open Shape

/-! ## Joined texts -/

section Joined

variable {sep : List Char} {ts : List (List Char)} {c : Char}

theorem notMem_joined (hsep : c ∉ sep) (hts : ∀ t ∈ ts, c ∉ t) : c ∉ sep.intercalate ts := by
  induction ts with
  | nil => exact List.not_mem_nil
  | cons t ts ih =>
    obtain ⟨ht, hts⟩ := List.forall_mem_cons.mp hts
    cases ts with
    | nil => rwa [List.intercalate_singleton]
    | cons t' ts =>
      rw [List.intercalate_cons_cons, List.mem_append, List.mem_append]
      rintro ((h | h) | h)
      · exact ht h
      · exact hsep h
      · exact ih hts h

theorem infix_joined_of_mem {t : List Char} (ht : t ∈ ts) : t <:+: sep.intercalate ts := by
  induction ts with
  | nil => cases ht
  | cons t' ts ih =>
    cases ts with
    | nil =>
      simp only [List.intercalate_singleton, List.mem_singleton.mp ht, List.infix_rfl]
    | cons t'' ts =>
      rw [List.intercalate_cons_cons, List.append_assoc]
      rcases List.mem_cons.mp ht with rfl | ht
      · exact (List.prefix_append t _).isInfix
      · have hrest := (List.suffix_append sep (sep.intercalate (t'' :: ts))).isInfix
        exact ((ih ht).trans hrest).trans (List.suffix_append t' _).isInfix

end Joined

/-! ## Words -/

theorem isDigit_or_eq_of_mem_toString {n : Int} {c : Char} (h : c ∈ (toString n).toList) :
    c.isDigit = true ∨ c = '-' := by
  have digits : ∀ m : Nat, c ∈ (Nat.repr m).toList → c.isDigit = true := by
    intro m hc
    rw [Nat.toList_repr] at hc
    exact Nat.isDigit_of_mem_toDigits (by decide) (by decide) hc
  cases n with
  | ofNat m => exact .inl (digits m h)
  | negSucc m =>
    have h : c ∈ ("-" ++ Nat.repr (m + 1)).toList := h
    rw [String.toList_append, List.mem_append] at h
    rcases h with h | h
    · exact .inr (List.mem_singleton.mp h)
    · exact .inl (digits _ h)

theorem Extent.isDigit_or_eq_of_mem_text {e : Extent} {c : Char} (h : c ∈ e.text.toList) :
    c.isDigit = true ∨ c = '-' := by
  rw [text] at h
  split at h
  · exact isDigit_or_eq_of_mem_toString h
  · rw [String.toList_append, String.toList_append, List.mem_append, List.mem_append] at h
    rcases h with (h | h) | h
    · exact isDigit_or_eq_of_mem_toString h
    · exact .inr (List.mem_singleton.mp h)
    · exact isDigit_or_eq_of_mem_toString h

theorem Extent.newline_notMem_text (e : Extent) : '\n' ∉ e.text.toList :=
  fun h => absurd (isDigit_or_eq_of_mem_text h) (by decide)

/-- The text has no newline. -/
def OneLine (text : String) : Prop := '\n' ∉ text.toList

instance : DecidablePred OneLine := fun text => inferInstanceAs (Decidable ('\n' ∉ text.toList))

namespace Shape

/-- The name of a scalar, and the names of the keys of an object, have the property. -/
def WordsAre (P : String → Prop) : Shape → Prop
  | .scalar name => P name
  | .object o => ∀ f ∈ o.fields, P f.name
  | _ => True

instance (P : String → Prop) [DecidablePred P] : DecidablePred (WordsAre P)
  | .scalar name => inferInstanceAs (Decidable (P name))
  | .object o => inferInstanceAs (Decidable (∀ f ∈ o.fields, P f.name))
  | .array _ => inferInstanceAs (Decidable True)
  | .choice _ => inferInstanceAs (Decidable True)

theorem WordsAre.mono {P Q : String → Prop} {s : Shape} (h : WordsAre P s)
    (hPQ : ∀ name, P name → Q name) : WordsAre Q s := by
  cases s with
  | scalar name => exact hPQ name h
  | object o => exact fun f hf => hPQ f.name (h f hf)
  | _ => trivial

variable {limit depth indent : Nat} {s : Shape}

/-! ## Shapes on one line -/

theorem newline_notMem_fieldChars {f : Field Shape} (hname : OneLine f.name)
    (hshape : '\n' ∉ chars limit depth indent f.shape) :
    '\n' ∉ fieldChars limit depth indent f := by
  have hname : '\n' ∉ f.name.toList := hname
  cases hf : f.isOptional <;> simp [fieldChars, markOf, hf, hname, hshape]

/-- The depth only decides what is left out of a line. -/
theorem newline_notMem_chars (hs : Everywhere (WordsAre OneLine) s) (hline : s.onOneLine = true) :
    '\n' ∉ chars limit depth indent s := by
  induction s using Shape.induction generalizing depth indent with
  | scalar name =>
    rw [chars, renderAt]
    exact hs.self
  | array a ih =>
    obtain ⟨-, hs⟩ := everywhere_array.mp hs
    have htext := a.extent.newline_notMem_text
    rw [chars, renderAt]
    split
    · decide
    · rename_i hempty
      rw [onOneLine, Bool.or_eq_true] at hline
      have helement : '\n' ∉ chars limit (depth + 1) indent a.element :=
        ih hs (hline.resolve_left hempty)
      rw [chars] at helement
      split <;> simp [htext, helement]
  | object o ih =>
    obtain ⟨hwords, hs⟩ := everywhere_object.mp hs
    rw [onOneLine, Bool.and_eq_true, decide_eq_true_iff] at hline
    by_cases ho : o.fields = []
    · rw [chars, renderAt, if_pos (List.isEmpty_iff.mpr ho)]
      split <;> decide
    · have hfields := fieldsOnOneLine_eq_true_iff.mp hline.2
      have hjoined : '\n' ∉ ", ".toList.intercalate
          (o.fields.map (fieldChars limit (depth + 1) indent)) := by
        refine notMem_joined (by decide) (List.forall_mem_map.mpr fun f hf => ?_)
        exact newline_notMem_fieldChars (hwords f hf) (ih f hf (hs f hf) (hfields f hf))
      rw [chars_object_compact ho hline, List.mem_cons, List.mem_append]
      rintro (h | h | h)
      · exact absurd h (by decide)
      · exact hjoined h
      · exact absurd h (by decide)
  | choice vs ih =>
    obtain ⟨-, hs⟩ := everywhere_choice.mp hs
    rw [onOneLine, alternativesOnOneLine_eq_true_iff] at hline
    rw [chars_eq_joined]
    exact notMem_joined (by decide)
      (List.forall_mem_map.mpr fun v hv => ih v hv (hs v hv) (hline v hv))

/-! ## Shapes on several lines -/

theorem onOneLine_of_level_eq_zero (h : s.level = 0) : s.onOneLine = true := by
  induction s using Shape.induction with
  | scalar name => rfl
  | array a _ => cases h
  | object o _ => cases h
  | choice vs ih =>
    refine alternativesOnOneLine_eq_true_iff.mpr fun v hv => ih v hv ?_
    exact Nat.le_zero.mp (levelOfAlternatives_le.mp (Nat.le_of_eq h) v hv)

/-- The induction stops at the first object, which takes a line for each key. What is left out of
arrays on the way, for their depth or because they are collapsed, is on one line. -/
theorem newline_mem_chars (hs : s.Regular) (hle : depth + s.level ≤ limit + 1)
    (hline : s.onOneLine = false) : '\n' ∈ chars limit depth indent s := by
  induction s using Shape.induction generalizing depth indent with
  | scalar name => cases hline
  | array a ih =>
    obtain ⟨⟨-, hplaceholder⟩, hs⟩ := everywhere_array.mp hs
    rw [onOneLine, Bool.or_eq_false_iff] at hline
    obtain ⟨hempty, hline⟩ := hline
    -- neither way to leave out the element applies: both leave out scalars only
    have hcollapsed : a.collapsed = false := by
      by_contra hc
      have helement : a.element = .null := hplaceholder (by simp_all [ArrayOf.hasElement])
      rw [helement] at hline
      cases hline
    have hlt : ¬ limit ≤ depth := by
      intro hlimit
      have hlevel : a.element.level = 0 := by
        simp only [level] at hle
        omega
      rw [onOneLine_of_level_eq_zero hlevel] at hline
      cases hline
    have helement : '\n' ∈ chars limit (depth + 1) indent a.element := by
      refine ih hs ?_ hline
      simp only [level] at hle
      omega
    rw [chars] at helement
    rw [chars, renderAt]
    simp [hempty, hcollapsed, hlt, helement]
  | object o _ =>
    have hcompact : ¬ Compact o := by
      rintro ⟨hlen, hfields⟩
      rw [onOneLine, decide_eq_true hlen, hfields] at hline
      cases hline
    have ho : o.fields ≠ [] := by
      intro ho
      exact hcompact (by simp [Compact, ho, fieldsOnOneLine])
    rw [chars_object_block ho hcompact]
    exact List.mem_cons_of_mem _ List.mem_cons_self
  | choice vs ih =>
    obtain ⟨-, hs⟩ := everywhere_choice.mp hs
    obtain ⟨v, hv, hline⟩ : ∃ v ∈ vs, v.onOneLine = false := by
      by_contra hall
      simp only [not_exists, not_and, Bool.not_eq_false] at hall
      rw [onOneLine, alternativesOnOneLine_eq_true_iff.mpr hall] at hline
      cases hline
    have hlevel : v.level ≤ levelOfAlternatives vs :=
      levelOfAlternatives_le.mp (Nat.le_refl _) v hv
    rw [chars_eq_joined]
    refine (infix_joined_of_mem (List.mem_map_of_mem hv)).subset (ih v hv (hs v hv) ?_ hline)
    simp only [level] at hle
    omega

/-! ## The words of inferred shapes -/

/-- What all alternatives have that are found on a path, all nodes have but choices and
placeholders. -/
theorem everywhere_of_at? {P : Shape → Prop} (hs : s.Regular) (hnull : P .null)
    (hchoice : ∀ vs, P (.choice vs))
    (h : ∀ path t v, s.at? path = some t → v ∈ t.alternatives → P v) : Everywhere P s := by
  induction s using inside_induction with
  | step s ih =>
    have hflat : Flat s.alternatives := hs.self.flat
    have inside : ∀ d t, s.step? d = some t → Everywhere P t := by
      intro d t ht
      refine ih t (inside_of_step? ht) (hs.inside (inside_of_step? ht)) fun path u v hu hv => ?_
      exact h (d :: path) u v (by rw [at?, ht, Option.bind_some, hu]) hv
    have halternatives : ∀ v ∈ s.alternatives, Everywhere P v := by
      intro v hv
      have hself : P v := h [] s v rfl hv
      have hreg : v.Regular := hs.alternative hv
      cases v with
      | scalar name => exact everywhere_scalar.mpr hself
      | array a =>
        refine everywhere_array.mpr ⟨hself, ?_⟩
        cases ha : a.hasElement with
        | true =>
          refine inside .element _ ((step?_of_mem hflat hv rfl).trans ?_)
          rw [part?, if_pos ha]
        | false =>
          have helement : a.element = .null := hreg.self.2 ha
          rw [helement]
          exact everywhere_scalar.mpr hnull
      | object o =>
        refine everywhere_object.mpr ⟨hself, fun f hf => inside (.field f.name) _ ?_⟩
        exact (step?_of_mem hflat hv rfl).trans (Field.shape?_of_mem hreg.self.1 hf)
      | choice vs => exact absurd rfl (hflat.kind_ne_choice hv)
    cases s with
    | choice vs => exact everywhere_choice.mpr ⟨hchoice vs, halternatives⟩
    | _ => exact halternatives _ (List.mem_singleton_self _)

end Shape

namespace Survey

variable {S : Survey} {size levels depth : Nat} {x : Visit}

/-- The words of a report are the names of scalars, and those of the keys that are inspected. -/
theorem wordsAre_report {P : String → Prop} (hS : S.uninspected = .null) (hsize : 0 < size)
    (hscalar : ∀ name ∈ scalarTypes, P name)
    (hkey : ∀ path name, path.length < levels →
      S.heap.reached size (path ++ [.field name]) x ≠ [] → P name) :
    Everywhere (WordsAre P) (S.report size levels depth x.ancestors x.value).shape := by
  have hnull : P "null" := hscalar "null" (by decide)
  have hreg := regular_report hS size levels depth x.ancestors x.value
  refine everywhere_of_at? hreg hnull (fun _ => trivial) fun path t v ht hv => ?_
  cases v with
  | scalar name =>
    have hkind : (scalar name).kind ∈
        kindsAt path (S.report size levels depth x.ancestors x.value).shape := by
      rw [kindsAt, ht]
      exact List.mem_map_of_mem hv
    rcases (mem_kindsAt_report hS hsize).mp hkind with ⟨-, y, -, hy⟩ | ⟨hname, -⟩
    · cases hview : S.heap.view y.value <;> rw [hview] at hy <;> cases hy
      exact hscalar name (Heap.mem_scalarTypes_of_view hview)
    · cases hname
      exact hnull
  | object o =>
    intro f hf
    obtain ⟨hlen, hreached⟩ := inspected_of_mem_fields hS hsize ht hv hf
    exact hkey path f.name hlen hreached
  | _ => trivial

end Survey

/-- **A thumbnail is on one line exactly if its shape is.**  Whatever the depth limit, the text of a
shape on one line has no newline unless one of its words has. Conversely, the thumbnail of a value
has a newline where the inferred shape is not on one line, and only there if the keys that are
inspected have none. -/
theorem oneLine_iff_onOneLine :
    (∀ (s : Shape) (limit maxDepth : Int), Everywhere (WordsAre OneLine) s → s.onOneLine = true →
      ∃ text, (∀ log, ∃ log', (s.renderWithin limit maxDepth).run log = .ok text log') ∧
        OneLine text) ∧
    ∀ (h : Heap) (limit : Int) (base : Option Options) (sampleSize maxDepth : Option Int)
      (v : Value),
      let S : Survey := { heap := h, recursionLimit := limit }
      let r : Request := .ofIntegers base sampleSize maxDepth
      ∃ o s text, (∀ log, ∃ log', r.options.run log = .ok o log') ∧ S.Answers r v s text ∧
        (s.onOneLine = false → ¬ OneLine text) ∧
        ((∀ path name, path.length < S.deepest o →
          h.reached o.sampleSize (path ++ [.field name]) ⟨[], v⟩ ≠ [] → OneLine name) →
            (OneLine text ↔ s.onOneLine = true)) := by
  constructor
  · intro s limit maxDepth hs hline
    have hlimit := allowedDepth_int_run limit maxDepth
    refine ⟨s.render (min maxDepth (greatestDepth limit)).toNat, fun log => ?_,
      newline_notMem_chars hs hline⟩
    obtain ⟨log', hlog⟩ := hlimit log
    exact ⟨log', Survey.renderWithin_run hlog s⟩
  · intro h limit base sampleSize maxDepth v S r
    let o : Options := .clamp (sampleSize.getD (base.getD {}).sampleSize)
      (maxDepth.getD (base.getD {}).maxDepth)
    have ho := Request.options_ofIntegers_run base sampleSize maxDepth
    let s := (S.report o.sampleSize (S.deepest o) 0 [] v).shape
    have hseveral : s.onOneLine = false → ¬ OneLine (s.render (S.deepest o)) := by
      intro hline hone
      have hlevel : s.level ≤ S.deepest o + 1 := Survey.level_report_le rfl _ _ _ v
      exact hone (newline_mem_chars (Survey.regular_report rfl _ _ _ _ v) (by omega) hline)
    have hanswers : S.Answers r v s (s.render (S.deepest o)) :=
      Survey.answers_of_options ho rfl (Survey.namesKeys_of_unlimited rfl)
    refine ⟨o, s, s.render (S.deepest o), ho, hanswers, hseveral,
      fun hkeys => ⟨fun hone => ?_, fun hline => ?_⟩⟩
    · by_contra hline
      exact hseveral (by simpa using hline) hone
    · have hwords : Everywhere (WordsAre OneLine) s :=
        Survey.wordsAre_report (x := ⟨[], v⟩) rfl o.sampleSize_pos (by decide) hkeys
      exact newline_notMem_chars hwords hline

/-- The shape on one line is cut off at its elements. The list contains itself, and its other
element is an object with too many keys for one line. -/
theorem oneLine_iff_onOneLine_cycle :
    let s : Shape := .array ⟨.range 0 2, .object ⟨[⟨"a", .number, true⟩], false⟩, false⟩
    let h : Heap := #[.sequence "list" #[.node 0, .node 1],
      .mapping "dict" (["a", "b", "c", "d"].map fun name => (.text name, .scalar .null))]
    let S : Survey := { heap := h }
    let r : Request := .ofIntegers none none (some 2)
    (Everywhere (WordsAre OneLine) s ∧ s.onOneLine = true ∧
      ∃ text, (∀ log, ∃ log', (s.renderWithin 1000 0).run log = .ok text log') ∧ OneLine text) ∧
    ∃ o t text, S.Answers r (.node 0) t text ∧ t.onOneLine = false ∧ ¬ OneLine text ∧
      (∀ path name, path.length < S.deepest o →
        h.reached o.sampleSize (path ++ [.field name]) ⟨[], .node 0⟩ ≠ [] → OneLine name) ∧
      (OneLine text ↔ t.onOneLine = true) := by
  intro s h S r
  obtain ⟨hshapes, hvalues⟩ := oneLine_iff_onOneLine
  have hs : Everywhere (WordsAre OneLine) s := by decide
  obtain ⟨o, t, text, -, hanswers, hseveral, hiff⟩ := hvalues h 1000 none none (some 2) (.node 0)
  have hline : t.onOneLine = false := by
    obtain ⟨⟨_, hrun⟩, -⟩ := hanswers #[]
    have hinfer : ∃ log, (S.infer r (.node 0)).run #[] = .ok (.array ⟨.exact 2, .choice [
        .array ⟨.exact 2, .null, true⟩,
        .object ⟨["a", "b", "c", "d"].map fun name => ⟨name, .null, false⟩, false⟩], false⟩) log :=
      ⟨_, by with_unfolding_all rfl⟩
    obtain ⟨_, hinfer⟩ := hinfer
    cases hinfer.symm.trans hrun
    rfl
  have hkeys : ∀ path name, path.length < S.deepest o →
      h.reached o.sampleSize (path ++ [.field name]) ⟨[], .node 0⟩ ≠ [] → OneLine name := by
    intro path name _ hreached
    obtain ⟨t, entries, hc, hname⟩ := Heap.exists_label_of_reached hreached
    have hlabels : entries.map (·.1.label) = ["a", "b", "c", "d"] := by
      simp only [h, List.mem_cons, Container.mapping.injEq, reduceCtorEq, List.not_mem_nil,
        false_or, or_false] at hc
      rw [hc.2]
      rfl
    have hwords : ∀ name ∈ ["a", "b", "c", "d"], OneLine name := by decide
    exact hwords name (hlabels ▸ hname)
  exact ⟨⟨hs, rfl, hshapes s 1000 0 hs rfl⟩, o, t, text, hanswers, hline, hseveral hline, hkeys,
    hiff hkeys⟩

end JsonShape
