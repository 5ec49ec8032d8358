import JsonShape.Proofs.Layout

/-!
# Braces and indentation

The text of an object on several lines is indented by two spaces for each brace that is open. A text
is read with the number of braces that are open where it starts: `Takes m n cs` says that it never
closes a brace that is not open, leaves `n` of them open, and begins each new line with two spaces
for each open brace, not counting one that the line closes before anything else.

* `Takes.append`, `takes_newline`: texts in succession, and the start of a line;
* `takes_chars`: the text of a shape leaves open what was open, where its indentation has two spaces
  for each open brace;
* `balanced_and_indented`: so rendered texts are balanced, and each line of them is indented.
-/

namespace JsonShape

open Shape

/-! ## Open braces -/

/-- How many braces the text leaves open. -/
def openBraces (cs : List Char) : Int := cs.count '\x7b' - cs.count '\x7d'

theorem openBraces_append (cs cs' : List Char) :
    openBraces (cs ++ cs') = openBraces cs + openBraces cs' := by
  simp only [openBraces, List.count_append]
  omega

theorem openBraces_of_avoids {cs : List Char} (h : Avoids ['\x7b', '\x7d'] cs) :
    openBraces cs = 0 := by
  have hopen : '\x7b' ∉ cs := fun hc => h _ hc (by decide)
  have hclose : '\x7d' ∉ cs := fun hc => h _ hc (by decide)
  rw [openBraces, List.count_eq_zero.mpr hopen, List.count_eq_zero.mpr hclose]
  rfl

/-- No beginning of the text closes more braces than it opens, and the text closes all of them. -/
def Balanced (cs : List Char) : Prop := (∀ p, p <+: cs → 0 ≤ openBraces p) ∧ openBraces cs = 0

/-! ## Lines -/

/-- The number of spaces that the text starts with. -/
def indentation (cs : List Char) : Nat := (cs.takeWhile (· = ' ')).length

/-- Whether the first character of the text that is no space is a closing brace. -/
def ClosesFirst (cs : List Char) : Prop := (cs.dropWhile (· = ' ')).head? = some '\x7d'

instance : DecidablePred ClosesFirst := fun _ => inferInstanceAs (Decidable (_ = _))

/-- Each line after the first has two spaces for each brace that is open where it starts, without
the one that it closes first. -/
def Indented (cs : List Char) : Prop :=
  ∀ before after, cs = before ++ '\n' :: after →
    (indentation after : Int) = 2 * (openBraces before - if ClosesFirst after then 1 else 0)

/-- The text starts with the indentation for a number of open braces, and goes on. -/
def StartsLine (n : Int) (cs : List Char) : Prop :=
  ∃ (k : Nat) (c : Char) (rest : List Char), cs = List.replicate (2 * k) ' ' ++ c :: rest ∧
    c ≠ ' ' ∧ (k : Int) = n - if c = '\x7d' then 1 else 0

theorem StartsLine.append {n : Int} {cs : List Char} (h : StartsLine n cs) (cs' : List Char) :
    StartsLine n (cs ++ cs') := by
  obtain ⟨k, c, rest, rfl, hc, hk⟩ := h
  exact ⟨k, c, rest ++ cs', by simp, hc, hk⟩

theorem StartsLine.indentation_eq {n : Int} {cs : List Char} (h : StartsLine n cs) :
    (indentation cs : Int) = 2 * (n - if ClosesFirst cs then 1 else 0) := by
  obtain ⟨k, c, rest, rfl, hc, hk⟩ := h
  have htake : indentation (List.replicate (2 * k) ' ' ++ c :: rest) = 2 * k := by
    simp [indentation, hc]
  have hdrop : ClosesFirst (List.replicate (2 * k) ' ' ++ c :: rest) ↔ c = '\x7d' := by
    simp [ClosesFirst, hc]
  rw [htake]
  simp only [hdrop]
  omega

/-! ## Texts that start with open braces -/

/-- With `m` open braces before it, the text leaves `n` of them open, and closes and indents only
what is open. -/
structure Takes (m n : Int) (cs : List Char) : Prop where
  braces : n = m + openBraces cs
  nonneg : ∀ p q, cs = p ++ q → 0 ≤ m + openBraces p
  lines : ∀ before after, cs = before ++ '\n' :: after → StartsLine (m + openBraces before) after

section Takes

variable {m n k : Int} {cs cs' sep : List Char} {ts : List (List Char)}

theorem Takes.append (h : Takes m n cs) (h' : Takes n k cs') : Takes m k (cs ++ cs') where
  braces := by
    rw [openBraces_append, h'.braces, h.braces]
    omega
  nonneg p q hpq := by
    rcases List.append_eq_append_iff.mp hpq with ⟨r, rfl, hr⟩ | ⟨r, hr, -⟩
    · have := h'.nonneg r q hr
      rw [openBraces_append, ← Int.add_assoc, ← h.braces]
      exact this
    · exact h.nonneg p r hr
  lines before after hsplit := by
    rcases List.append_eq_append_iff.mp hsplit with ⟨r, rfl, hr⟩ | ⟨r, hr, hafter⟩
    · have := h'.lines r after hr
      rw [openBraces_append, ← Int.add_assoc, ← h.braces]
      exact this
    · cases r with
      | nil =>
        rw [List.append_nil] at hr
        subst hr
        have := h'.lines [] after hafter.symm
        rw [← h.braces]
        simpa [openBraces] using this
      | cons c r =>
        obtain ⟨rfl, rfl⟩ := List.cons.inj hafter
        exact (h.lines before r hr).append cs'

/-- Without braces and new lines nothing happens. -/
theorem takes_of_avoids (hm : 0 ≤ m) (h : Avoids ['\n', '\x7b', '\x7d'] cs) : Takes m m cs := by
  have hbraces : ∀ p q, cs = p ++ q → openBraces p = 0 := by
    rintro p q rfl
    have hp : Avoids ['\n', '\x7b', '\x7d'] p := fun c hc => h c (List.mem_append_left q hc)
    exact openBraces_of_avoids (hp.mono (by simp))
  constructor
  · rw [hbraces cs [] (List.append_nil cs).symm, Int.add_zero]
  · intro p q hpq
    rw [hbraces p q hpq, Int.add_zero]
    exact hm
  · rintro before after rfl
    exact absurd (h '\n' (by simp)) (by decide)

theorem takes_openBrace (hm : 0 ≤ m) : Takes m (m + 1) ['\x7b'] where
  braces := rfl
  nonneg p q hpq := by
    rcases List.append_eq_singleton_iff.mp hpq.symm with ⟨rfl, -⟩ | ⟨rfl, -⟩ <;>
      simp [openBraces] <;> omega
  lines before after hsplit := by
    rcases List.append_eq_singleton_iff.mp hsplit.symm with ⟨-, h⟩ | ⟨-, h⟩ <;> cases h

theorem takes_closeBrace (hm : 0 ≤ m) : Takes (m + 1) m ['\x7d'] where
  braces := by
    rw [show openBraces ['\x7d'] = -1 from rfl]
    omega
  nonneg p q hpq := by
    rcases List.append_eq_singleton_iff.mp hpq.symm with ⟨rfl, -⟩ | ⟨rfl, -⟩ <;>
      simp [openBraces] <;> omega
  lines before after hsplit := by
    rcases List.append_eq_singleton_iff.mp hsplit.symm with ⟨-, h⟩ | ⟨-, h⟩ <;> cases h

/-- A text on one line can stand behind any number of further open braces. -/
theorem Takes.raise (h : Takes m m cs) (hline : '\n' ∉ cs) (hle : m ≤ n) : Takes n n cs where
  braces := by
    have := h.braces
    omega
  nonneg p q hpq := by
    have := h.nonneg p q hpq
    omega
  lines before after hsplit := by
    subst hsplit
    exact absurd (by simp) hline

theorem takes_joined (hsep : Takes m m sep) (hts : ∀ t ∈ ts, Takes m m t) :
    Takes m m (sep.intercalate ts) := by
  induction ts with
  | nil =>
    have hm : 0 ≤ m := by simpa [openBraces] using hsep.nonneg [] sep rfl
    exact takes_of_avoids hm (by simp [Avoids])
  | cons t ts ih =>
    obtain ⟨ht, hts⟩ := List.forall_mem_cons.mp hts
    cases ts with
    | nil => rwa [List.intercalate_singleton]
    | cons t' ts =>
      rw [List.intercalate_cons_cons]
      exact (ht.append hsep).append (ih hts)

/-- The text goes on in a new line. -/
theorem takes_newline {k : Nat} {c : Char} {rest : List Char} (hm : 0 ≤ m) (hc : c ≠ ' ')
    (hk : (k : Int) = m - if c = '\x7d' then 1 else 0) (h : Takes m n (c :: rest)) :
    Takes m n ('\n' :: (List.replicate (2 * k) ' ' ++ c :: rest)) := by
  have hspaces : Takes m m (List.replicate (2 * k) ' ') :=
    takes_of_avoids hm fun c hc => by simp [List.eq_of_mem_replicate hc]
  have hline := hspaces.append h
  have hnewline : ∀ l, openBraces ('\n' :: l) = openBraces l := by
    intro l
    simp [openBraces]
  constructor
  · rw [hnewline, hline.braces]
  · intro p q hpq
    cases p with
    | nil => simpa [openBraces] using hm
    | cons d p =>
      obtain ⟨rfl, htail⟩ := List.cons.inj hpq
      rw [hnewline]
      exact hline.nonneg p q htail
  · intro before after hsplit
    cases before with
    | nil =>
      obtain ⟨-, rfl⟩ := List.cons.inj hsplit
      exact ⟨k, c, rest, rfl, hc, by simpa [openBraces] using hk⟩
    | cons d before =>
      obtain ⟨rfl, htail⟩ := List.cons.inj hsplit
      rw [hnewline]
      exact hline.lines before after htail

/-- New lines between texts may be taken for the beginnings of the texts. -/
theorem newline_cons_joined (hts : ts ≠ []) :
    '\n' :: ",\n".toList.intercalate ts = ",".toList.intercalate (ts.map ('\n' :: ·)) := by
  induction ts with
  | nil => exact absurd rfl hts
  | cons t ts ih =>
    cases ts with
    | nil => rw [List.map_singleton, List.intercalate_singleton, List.intercalate_singleton]
    | cons t' ts =>
      have hrest := ih (List.cons_ne_nil t' ts)
      rw [List.map_cons] at hrest
      rw [List.map_cons, List.map_cons, List.intercalate_cons_cons, List.intercalate_cons_cons,
        ← hrest]
      simp

end Takes

/-! ## Texts of shapes -/

/-- No character of the word is a new line, a brace or a space. -/
abbrev Unbroken (word : String) : Prop := Avoids ['\n', '\x7b', '\x7d', ' '] word.toList

theorem Unbroken.oneLine {word : String} (h : Unbroken word) : OneLine word :=
  fun hmem => h _ hmem (by decide)

section Word

variable {m : Int} {word : String}

theorem takes_word (hm : 0 ≤ m) (h : Unbroken word) : Takes m m word.toList :=
  takes_of_avoids hm (h.mono (by simp))

theorem takes_extent (hm : 0 ≤ m) (e : Extent) : Takes m m e.text.toList := by
  refine takes_of_avoids hm fun c hc hc' => ?_
  simp only [List.mem_cons, List.not_mem_nil, or_false] at hc'
  rcases hc' with rfl | rfl | rfl <;>
    exact absurd (Extent.isDigit_or_eq_of_mem_text hc) (by decide)

end Word

namespace Shape

variable {limit depth indent : Nat} {m : Int}

theorem takes_fieldChars {f : Field Shape} (hm : 0 ≤ m) (hname : Unbroken f.name)
    (hshape : Takes m m (chars limit depth indent f.shape)) :
    Takes m m (fieldChars limit depth indent f) := by
  have hmark : Takes m m (markOf f :: if f.isOptional then [':', ' '] else [' ']) := by
    refine takes_of_avoids hm ?_
    cases hf : f.isOptional <;> simp [Avoids, markOf, hf]
  have h := (takes_word hm hname).append (hmark.append hshape)
  rwa [List.cons_append] at h

theorem exists_fieldChars_eq_cons (limit depth indent : Nat) {f : Field Shape}
    (hname : Unbroken f.name) :
    ∃ c rest, fieldChars limit depth indent f = c :: rest ∧ c ≠ ' ' ∧ c ≠ '\x7d' := by
  rw [fieldChars]
  cases hf : f.name.toList with
  | nil => exact ⟨_, _, rfl, by cases h : f.isOptional <;> simp [markOf, h]⟩
  | cons c rest =>
    have hc := hname c (hf ▸ List.mem_cons_self)
    exact ⟨c, _, rfl, fun h => hc (by simp [h]), fun h => hc (by simp [h])⟩

/-- The fields of an object on one line open no line. -/
theorem takes_object_compact {o : ObjectOf Shape} (ho : o.fields ≠ []) (hc : Compact o)
    (hm : 0 ≤ m) (hwords : ∀ f ∈ o.fields, Unbroken f.name)
    (hline : ∀ f ∈ o.fields, '\n' ∉ chars limit (depth + 1) indent f.shape)
    (h : ∀ f ∈ o.fields, Takes m m (chars limit (depth + 1) indent f.shape)) :
    Takes m m (chars limit depth indent (.object o)) := by
  have hfields : Takes (m + 1) (m + 1)
      (", ".toList.intercalate (o.fields.map (fieldChars limit (depth + 1) indent))) := by
    refine takes_joined (takes_of_avoids (by omega) (by decide))
      (List.forall_mem_map.mpr fun f hf => ?_)
    have hfield := takes_fieldChars hm (hwords f hf) (h f hf)
    exact hfield.raise (newline_notMem_fieldChars (hwords f hf).oneLine (hline f hf)) (by omega)
  rw [chars_object_compact ho hc]
  exact (takes_openBrace hm).append (hfields.append (takes_closeBrace hm))

/-- Each field of an object on several lines opens a line, and so does the brace that closes the
object. -/
theorem takes_object_block {o : ObjectOf Shape} (ho : o.fields ≠ []) (hc : ¬ Compact o) (k : Nat)
    (hwords : ∀ f ∈ o.fields, Unbroken f.name)
    (h : ∀ f ∈ o.fields,
      Takes (k + 1) (k + 1) (chars limit (depth + 1) (2 * (k + 1)) f.shape)) :
    Takes k k (chars limit depth (2 * k) (.object o)) := by
  have hfields : ∀ f ∈ o.fields, Takes (k + 1) (k + 1) ('\n' ::
      (List.replicate (2 * (k + 1)) ' ' ++ fieldChars limit (depth + 1) (2 * (k + 1)) f)) := by
    intro f hf
    have hfield := takes_fieldChars (by omega) (hwords f hf) (h f hf)
    obtain ⟨c, rest, hchars, hspace, hbrace⟩ :=
      exists_fieldChars_eq_cons limit (depth + 1) (2 * (k + 1)) (hwords f hf)
    rw [hchars] at hfield ⊢
    refine takes_newline (by omega) hspace ?_ hfield
    rw [if_neg hbrace]
    omega
  have hclose : Takes (k + 1) k ('\n' :: (List.replicate (2 * k) ' ' ++ ['\x7d'])) :=
    takes_newline (by omega) (by decide) (by simp) (takes_closeBrace (by omega))
  have hjoined : Takes (k + 1) (k + 1) ('\n' :: ",\n".toList.intercalate (o.fields.map fun f =>
      List.replicate (2 * (k + 1)) ' ' ++ fieldChars limit (depth + 1) (2 * (k + 1)) f)) := by
    rw [newline_cons_joined (by simpa using ho), List.map_map]
    exact takes_joined (takes_of_avoids (by omega) (by decide)) (List.forall_mem_map.mpr hfields)
  have hspaces : ∀ n, (spaces n).toList = List.replicate n ' ' := by
    intro n
    simp [spaces]
  rw [chars_object_block ho hc, hspaces]
  simp only [hspaces]
  exact (takes_openBrace (by omega)).append (hjoined.append hclose)

/-- The induction passes the number of open braces down together with the indentation. -/
theorem takes_chars {s : Shape} (hs : Everywhere (WordsAre Unbroken) s) (k : Nat) :
    Takes k k (chars limit depth (2 * k) s) := by
  have hk : (0 : Int) ≤ k := by omega
  induction s using Shape.induction generalizing depth k with
  | scalar name =>
    rw [chars, renderAt]
    exact takes_word hk hs.self
  | array a ih =>
    obtain ⟨-, hs⟩ := everywhere_array.mp hs
    have hlength : ∀ tail : String, Takes k k tail.toList →
        Takes k k ("Array(" ++ a.extent.text ++ tail).toList := by
      intro tail htail
      rw [String.toList_append, String.toList_append]
      exact ((takes_of_avoids hk (by decide)).append (takes_extent hk _)).append htail
    rw [chars, renderAt]
    split
    · exact takes_of_avoids hk (by decide)
    · split
      · exact hlength _ (takes_of_avoids hk (by decide))
      · rw [String.toList_append]
        exact (hlength _ (takes_of_avoids hk (by decide))).append (ih hs k hk)
  | object o ih =>
    obtain ⟨hwords, hs⟩ := everywhere_object.mp hs
    by_cases ho : o.fields = []
    · have hbraces : ∀ dots : List Char, Avoids ['\n', '\x7b', '\x7d'] dots →
          Takes k k (['\x7b'] ++ (dots ++ ['\x7d'])) := fun dots hdots =>
        (takes_openBrace hk).append
          ((takes_of_avoids (by omega) hdots).append (takes_closeBrace hk))
      rw [chars, renderAt, if_pos (List.isEmpty_iff.mpr ho)]
      split
      · exact hbraces ['.', '.', '.'] (by decide)
      · exact hbraces [] (by decide)
    · by_cases hc : Compact o
      · have hline := fieldsOnOneLine_eq_true_iff.mp hc.2
        refine takes_object_compact ho hc hk hwords (fun f hf => ?_)
          fun f hf => ih f hf (hs f hf) k hk
        exact newline_notMem_chars (fun t ht => (hs f hf t ht).mono fun _ => Unbroken.oneLine)
          (hline f hf)
      · refine takes_object_block ho hc k hwords fun f hf => ?_
        exact ih f hf (hs f hf) (k + 1) (by omega)
  | choice vs ih =>
    obtain ⟨-, hs⟩ := everywhere_choice.mp hs
    rw [chars_eq_joined]
    exact takes_joined (takes_of_avoids hk (by decide))
      (List.forall_mem_map.mpr fun v hv => ih v hv (hs v hv) k hk)

end Shape

theorem Takes.balanced {cs : List Char} (h : Takes 0 0 cs) : Balanced cs := by
  refine ⟨fun p hp => ?_, by have := h.braces; omega⟩
  obtain ⟨q, rfl⟩ := hp
  have := h.nonneg p q rfl
  omega

theorem Takes.indented {cs : List Char} (h : Takes 0 0 cs) : Indented cs := by
  intro before after hsplit
  rw [(h.lines before after hsplit).indentation_eq, Int.zero_add]

/-- **Rendered texts are balanced and indented.**  If no word of a shape has a new line, a brace or
a space, the text closes the braces that it opens and no others, at any depth limit. Each line after
the first is indented by two spaces for each brace that is open where the line starts, without the
one that the line closes first. -/
theorem balanced_and_indented (s : Shape) (limit maxDepth : Int)
    (hs : Everywhere (WordsAre Unbroken) s) :
    ∃ text, (∀ log, ∃ log', (s.renderWithin limit maxDepth).run log = .ok text log') ∧
      Balanced text.toList ∧ Indented text.toList := by
  have htakes : Takes 0 0 (s.render (min maxDepth (greatestDepth limit)).toNat).toList :=
    takes_chars hs 0
  refine ⟨_, fun log => ?_, htakes.balanced, htakes.indented⟩
  obtain ⟨log', hlog⟩ := allowedDepth_int_run limit maxDepth log
  exact ⟨log', Survey.renderWithin_run hlog s⟩

/-- An object on one line, and one on several lines among alternatives, in an array. -/
theorem balanced_and_indented_nested :
    let fields := ["b", "c", "d"].map fun name => (⟨name, .number, false⟩ : Field Shape)
    let s : Shape := .object ⟨[⟨"x", .object ⟨[⟨"y", .string, true⟩], false⟩, false⟩,
      ⟨"z", .array ⟨.exact 2, .choice [.null, .object ⟨⟨"a", .null, false⟩ :: fields, false⟩],
        false⟩, false⟩], false⟩
    Everywhere (WordsAre Unbroken) s ∧ ∃ text,
      text = "\x7b\n  x: \x7by?: string\x7d,\n  z: Array(2) of null | \x7b\n    a: null,\n" ++
        "    b: number,\n    c: number,\n    d: number\n  \x7d\n\x7d" ∧
      (∀ log, ∃ log', (s.renderWithin 1000 8).run log = .ok text log') ∧
      Balanced text.toList ∧ Indented text.toList := by
  intro fields s
  have hs : Everywhere (WordsAre Unbroken) s := by decide
  obtain ⟨text, hrun, hbalanced, hindented⟩ := balanced_and_indented s 1000 8 hs
  obtain ⟨log, hlog⟩ := hrun #[]
  refine ⟨hs, text, ?_, hrun, hbalanced, hindented⟩
  cases (Survey.renderWithin_run rfl s).symm.trans hlog
  decide +kernel

end JsonShape
