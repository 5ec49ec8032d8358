import JsonShape.Proofs.Commuting
import JsonShape.Proofs.Regular

/-!
# Reading thumbnails

The text of a shape tells all of it that can be told, if no array with an element stands before
another alternative: nothing in a text marks where the elements of an array end, so that such an
array would claim the alternatives that follow (`renderAt_choice_array`). The names of keys must not
contain what ends them; words of letters, digits and underscores do not (`plainName_of_word`).

`shown` is what a text can tell: the lengths of an array as a range, without the shape that only
holds the place of an element. Texts are read from the left, with any text that may follow.

* `joined_inj`: joined texts can be told apart if their items can, and if no separator is taken for
  the end;
* `Told`: equal texts come from shapes that are shown alike, and end in the same place;
* `told_alternative`, `told`: what is inside being told, so are the alternatives and then the shape;
* `shown_eq_of_text_eq`: hence shapes with the same text are shown alike.
-/

namespace JsonShape

open Shape

/-! ## Words and joined texts -/

section Reading

/-- No character of the text is one of the given ones. -/
def Avoids (stops text : List Char) : Prop := ∀ c ∈ text, c ∉ stops

/-- Found by search, the instance could be one that runs through all characters. -/
instance (stops : List Char) : DecidablePred (Avoids stops) := List.decidableBAll (· ∉ stops)

theorem Avoids.mono {stops stops' text : List Char} (h : Avoids stops text)
    (hsub : ∀ c ∈ stops', c ∈ stops) : Avoids stops' text :=
  fun c hc hc' => h c hc (hsub c hc')

/-- A word is read up to the first character that is not in it. -/
theorem word_inj {stops : List Char} {xs ys r r' : List Char} {c c' : Char}
    (hxs : Avoids stops xs) (hys : Avoids stops ys) (hc : c ∈ stops) (hc' : c' ∈ stops)
    (h : xs ++ c :: r = ys ++ c' :: r') : xs = ys ∧ c = c' ∧ r = r' := by
  induction xs generalizing ys with
  | nil =>
    cases ys with
    | nil =>
      cases h
      exact ⟨rfl, rfl, rfl⟩
    | cons y ys =>
      cases h
      exact absurd hc (hys _ List.mem_cons_self)
  | cons x xs ih =>
    cases ys with
    | nil =>
      cases h
      exact absurd hc' (hxs _ List.mem_cons_self)
    | cons y ys =>
      obtain ⟨rfl, htail⟩ := List.cons.inj h
      obtain ⟨-, hxs⟩ := List.forall_mem_cons.mp hxs
      obtain ⟨-, hys⟩ := List.forall_mem_cons.mp hys
      obtain ⟨rfl, hrest⟩ := ih hxs hys htail
      exact ⟨rfl, hrest⟩

variable {α β : Type}

theorem joined_append (text : α → List Char) (sep : List Char) (x x' : α) (xs : List α)
    (r : List Char) :
    sep.intercalate ((x :: x' :: xs).map text) ++ r =
      text x ++ (sep ++ (sep.intercalate ((x' :: xs).map text) ++ r)) := by
  rw [List.map_cons, List.map_cons, List.intercalate_cons_cons, List.append_assoc,
    List.append_assoc]

theorem exists_joined_eq_append (text : α → List Char) (sep : List Char) (x : α) (xs : List α) :
    ∃ r, sep.intercalate ((x :: xs).map text) = text x ++ r := by
  cases xs with
  | nil =>
    rw [List.map_singleton, List.intercalate_singleton]
    exact ⟨[], (List.append_nil _).symm⟩
  | cons x' xs =>
    have hjoined := joined_append text sep x x' xs []
    rw [List.append_nil] at hjoined
    exact ⟨_, hjoined⟩

/-- The induction takes off an item from both sides. If only one of them goes on, its separator is
where the other one stops. -/
theorem joined_inj {text : α → List Char} {sep : List Char} (key : α → β)
    (before : α → List Char → Prop) (stop : List Char → Prop) (hstop : ∀ r, ¬ stop (sep ++ r))
    (hlast : ∀ x r, stop r → before x r) {xs ys : List α} (hxs : xs ≠ []) (hys : ys ≠ [])
    (hitem : ∀ x ∈ xs, ∀ y ∈ ys, ∀ r r', before x r → before y r' → text x ++ r = text y ++ r' →
      key x = key y ∧ r = r')
    (hbefore : ∀ x ∈ xs.dropLast, ∀ r, before x (sep ++ r))
    (hbefore' : ∀ y ∈ ys.dropLast, ∀ r, before y (sep ++ r)) {r r' : List Char} (hr : stop r)
    (hr' : stop r')
    (h : sep.intercalate (xs.map text) ++ r = sep.intercalate (ys.map text) ++ r') :
    xs.map key = ys.map key ∧ r = r' := by
  induction xs generalizing ys with
  | nil => exact absurd rfl hxs
  | cons x xs ih =>
    cases ys with
    | nil => exact absurd rfl hys
    | cons y ys =>
      have hread := hitem x List.mem_cons_self y List.mem_cons_self
      cases xs with
      | nil =>
        cases ys with
        | nil =>
          obtain ⟨hkey, rfl⟩ := hread r r' (hlast x r hr) (hlast y r' hr') (by simpa using h)
          exact ⟨congrArg (fun k => [k]) hkey, rfl⟩
        | cons y' ys =>
          rw [List.map_singleton, List.intercalate_singleton, joined_append] at h
          have hsep := (hread r _ (hlast x r hr) (hbefore' y (by simp) _) h).2
          exact absurd (hsep ▸ hr) (hstop _)
      | cons x' xs =>
        rw [joined_append] at h
        cases ys with
        | nil =>
          rw [List.map_singleton, List.intercalate_singleton] at h
          have hsep := (hread _ r' (hbefore x (by simp) _) (hlast y r' hr') h).2
          exact absurd (hsep ▸ hr') (hstop _)
        | cons y' ys =>
          rw [joined_append] at h
          obtain ⟨hkey, hrest⟩ := hread _ _ (hbefore x (by simp) _) (hbefore' y (by simp) _) h
          obtain ⟨hkeys, rfl⟩ := ih (List.cons_ne_nil _ _) (List.cons_ne_nil _ _)
            (fun a ha b hb => hitem a (List.mem_cons_of_mem _ ha) b (List.mem_cons_of_mem _ hb))
            (fun a ha => hbefore a (List.mem_cons_of_mem _ ha))
            (fun b hb => hbefore' b (List.mem_cons_of_mem _ hb)) (List.append_cancel_left hrest)
          exact ⟨congrArg₂ List.cons hkey hkeys, rfl⟩

end Reading

/-! ## Extents -/

theorem toList_toString_of_nonneg {n : Int} (hn : 0 ≤ n) :
    (toString n).toList = Nat.toDigits 10 n.toNat := by
  obtain ⟨m, rfl⟩ := Int.eq_ofNat_of_zero_le hn
  exact Nat.toList_repr

/-- A number that is not negative is read up to the first character that is no digit. -/
theorem number_inj {m n : Int} (hm : 0 ≤ m) (hn : 0 ≤ n) {c c' : Char} {r r' : List Char}
    (hc : c ∈ [')', '-']) (hc' : c' ∈ [')', '-'])
    (h : (toString m).toList ++ c :: r = (toString n).toList ++ c' :: r') :
    m = n ∧ c = c' ∧ r = r' := by
  have hdigits : ∀ k : Nat, ∀ x ∈ Nat.toDigits 10 k, x ∉ [')', '-'] := by
    intro k x hx hx'
    have hdigit := Nat.isDigit_of_mem_toDigits (by decide) (by decide) hx
    simp only [List.mem_cons, List.not_mem_nil, or_false] at hx'
    rcases hx' with rfl | rfl <;> exact absurd hdigit (by decide)
  rw [toList_toString_of_nonneg hm, toList_toString_of_nonneg hn] at h
  obtain ⟨hwords, hrest⟩ := word_inj (hdigits _) (hdigits _) hc hc' h
  have hvalues := congrArg (Nat.ofDigitChars 10 · 0) hwords
  simp only [Nat.ofDigitChars_toDigits (Nat.lt_add_of_pos_left (by decide)) (Nat.le_refl 10)]
    at hvalues
  exact ⟨by omega, hrest⟩

/-- The least and the greatest length, in order. -/
def Extent.Ordered (e : Extent) : Prop := 0 ≤ e.bounds.1 ∧ e.bounds.1 ≤ e.bounds.2

instance : DecidablePred Extent.Ordered := fun _ => inferInstanceAs (Decidable (_ ∧ _))

theorem Extent.text_inj {e e' : Extent} (he : e.Ordered) (he' : e'.Ordered) {r r' : List Char}
    (h : e.text.toList ++ ')' :: r = e'.text.toList ++ ')' :: r') :
    e.bounds = e'.bounds ∧ r = r' := by
  have hread : ∀ {c c' : Char} {s s' : List Char}, c ∈ [')', '-'] → c' ∈ [')', '-'] →
      (toString e.bounds.1).toList ++ c :: s = (toString e'.bounds.1).toList ++ c' :: s' →
        e.bounds.1 = e'.bounds.1 ∧ c = c' ∧ s = s' := number_inj he.1 he'.1
  have htwo : ∀ (a b : String) (s : List Char),
      (a ++ "-" ++ b).toList ++ s = a.toList ++ '-' :: (b.toList ++ s) := by
    intro a b s
    simp
  unfold text at h
  split at h
  · rename_i hsame
    split at h
    · rename_i hsame'
      obtain ⟨hleast, -, rfl⟩ := hread (by decide) (by decide) h
      exact ⟨Prod.ext hleast (by rw [← hsame, hleast, hsame']), rfl⟩
    · rw [htwo] at h
      obtain ⟨-, hc, -⟩ := hread (by decide) (by decide) h
      exact absurd hc (by decide)
  · rw [htwo] at h
    split at h
    · obtain ⟨-, hc, -⟩ := hread (by decide) (by decide) h
      exact absurd hc (by decide)
    · rw [htwo] at h
      obtain ⟨hleast, -, hrest⟩ := hread (by decide) (by decide) h
      obtain ⟨hgreatest, -, rfl⟩ := number_inj (Int.le_trans he.1 he.2) (Int.le_trans he'.1 he'.2)
        (by decide) (by decide) hrest
      exact ⟨Prod.ext hleast hgreatest, rfl⟩

namespace Shape

/-! ## What texts show -/

mutual

/-- What a text can tell of the shape: each length as a range, `null` in place of what is no
element, and whether an array is collapsed only if it is not empty. -/
def shown : Shape → Shape
  | .scalar name => .scalar name
  | .array a =>
    .array ⟨a.extent.ranged, if a.hasElement then shown a.element else .null,
      !a.isEmpty && a.collapsed⟩
  | .object o => .object ⟨shownFields o.fields, o.collapsed⟩
  | .choice vs => .choice (shownAlternatives vs)

def shownFields : List (Field Shape) → List (Field Shape)
  | [] => []
  | f :: fs => ⟨f.name, shown f.shape, f.isOptional⟩ :: shownFields fs

def shownAlternatives : List Shape → List Shape
  | [] => []
  | v :: vs => shown v :: shownAlternatives vs

end

theorem shownFields_eq_map (fs : List (Field Shape)) :
    shownFields fs = fs.map (Field.map shown) := by
  induction fs with
  | nil => rw [shownFields, List.map_nil]
  | cons f fs ih => rw [shownFields, ih, List.map_cons, Field.map]

theorem shownAlternatives_eq_map (vs : List Shape) : shownAlternatives vs = vs.map shown := by
  induction vs with
  | nil => rw [shownAlternatives, List.map_nil]
  | cons v vs ih => rw [shownAlternatives, ih, List.map_cons]

theorem shown_object (o : ObjectOf Shape) : (object o).shown = object (o.map shown) := by
  rw [shown, shownFields_eq_map, ObjectOf.map]

theorem keepsKinds_shown : KeepsKinds shown where
  kind s := by cases s <;> rfl
  choice vs := by rw [shown, shownAlternatives_eq_map]

/-! ## Legible shapes -/

/-- Whether the text of the shape ends with that of an element. -/
def endsOpen : Shape → Bool
  | .array a => a.hasElement
  | _ => false

/-- The characters that end the name of a key in a text. -/
def nameStops : List Char := ['?', ':', '\x7d', '\n']

/-- No character of the name is taken for its end. -/
abbrev PlainName (name : String) : Prop := Avoids nameStops name.toList

/-- What is asked of one node, so that its text can be read. -/
def PlainNode : Shape → Prop
  | .scalar name => name ∈ scalarTypes
  | .array a => a.extent.Ordered
  | .object o => ∀ f ∈ o.fields, PlainName f.name
  | .choice vs => 2 ≤ vs.length ∧ ∀ v ∈ vs.dropLast, v.endsOpen = false

instance : DecidablePred PlainNode
  | .scalar name => inferInstanceAs (Decidable (name ∈ scalarTypes))
  | .array a => inferInstanceAs (Decidable a.extent.Ordered)
  | .object o => inferInstanceAs (Decidable (∀ f ∈ o.fields, PlainName f.name))
  | .choice _ => inferInstanceAs (Decidable (_ ∧ _))

theorem PlainNode.plural {s : Shape} (h : PlainNode s) : Plural s := by
  cases s with
  | choice vs => exact h.1
  | _ => trivial

/-- The shape can be read from a text that is cut off no earlier than below `n` containers. -/
structure Legible (n : Nat) (s : Shape) : Prop where
  wellFormed : s.WellFormed
  plain : Everywhere PlainNode s
  level_le : s.level ≤ n

theorem plainName_of_word {name : String}
    (h : ∀ c ∈ name.toList, c.isAlphanum = true ∨ c = '_') : PlainName name := by
  intro c hc hstop
  have hword := h c hc
  simp only [nameStops, List.mem_cons, List.not_mem_nil, or_false] at hstop
  rcases hstop with rfl | rfl | rfl | rfl <;> exact absurd hword (by decide)

namespace Legible

variable {n : Nat} {s t v : Shape}

theorem alternative (h : s.Legible n) (hv : v ∈ s.alternatives) : v.Legible n where
  wellFormed := h.wellFormed.alternative hv
  plain := h.plain.alternative hv
  level_le := level_le_iff_alternatives.mp h.level_le v hv

theorem inside (h : s.Legible (n + 1)) (ht : Inside s t) : t.Legible n where
  wellFormed := h.wellFormed.inside ht
  plain := h.plain.inside ht
  level_le := by
    have hlt := ht.level_lt
    have hle := h.level_le
    omega

theorem ofAlternatives_alternatives (h : s.Legible n) : ofAlternatives s.alternatives = s :=
  Shape.ofAlternatives_alternatives fun _ hs => h.plain.self.plural.two_le_length hs

theorem alternatives_ne_nil (h : s.Legible n) : s.alternatives ≠ [] :=
  h.plain.self.plural.alternatives_ne_nil

theorem collapsed_eq_false {o : ObjectOf Shape} (h : (object o).Legible n) (ho : o.fields ≠ []) :
    o.collapsed = false := by
  by_contra hc
  exact ho (h.wellFormed.self.2 (by simpa using hc))

theorem endsOpen_of_mem_dropLast (h : s.Legible n) (hv : v ∈ s.alternatives.dropLast) :
    v.endsOpen = false := by
  cases s with
  | choice vs => exact h.plain.self.2 v hv
  | _ => cases hv

end Legible

/-! ## Texts as lists of characters -/

section Texts

variable {limit depth indent : Nat}

def chars (limit depth indent : Nat) (s : Shape) : List Char :=
  (renderAt limit depth indent s).toList

/-- The character after the name of a key. -/
def markOf (f : Field Shape) : Char := if f.isOptional then '?' else ':'

def fieldChars (limit depth indent : Nat) (f : Field Shape) : List Char :=
  f.name.toList ++ markOf f ::
    ((if f.isOptional then [':', ' '] else [' ']) ++ chars limit depth indent f.shape)

theorem chars_eq_joined (s : Shape) : chars limit depth indent s =
    " | ".toList.intercalate (s.alternatives.map (chars limit depth indent)) := by
  cases s with
  | choice vs =>
    rw [chars, renderAt, renderAlternatives_eq_map, String.toList_intercalate, List.map_map]
    rfl
  | _ => exact List.intercalate_singleton.symm

/-- What follows the lengths of an array. -/
def elementChars (limit depth indent : Nat) (a : ArrayOf Shape) : List Char :=
  if a.isEmpty then []
  else " of ".toList ++ if a.collapsed then "...".toList else chars limit depth indent a.element

theorem chars_array {a : ArrayOf Shape} (ha : a.extent.Ordered) (hlt : depth < limit) :
    chars limit depth indent (.array a) = "Array(".toList ++
      (a.extent.text.toList ++ ')' :: elementChars limit (depth + 1) indent a) := by
  have hle : ¬ limit ≤ depth := by omega
  rw [chars, renderAt, elementChars]
  by_cases hempty : a.isEmpty = true
  · have hgreatest : a.extent.bounds.2 = 0 := by
      simpa [ArrayOf.isEmpty, Extent.isEmpty] using hempty
    have hleast : a.extent.bounds.1 = 0 := by
      have := ha.1
      have := ha.2
      omega
    have htext : a.extent.text = "0" := by
      rw [Extent.text, hleast, hgreatest]
      rfl
    rw [if_pos hempty, if_pos hempty, htext]
    rfl
  · rw [if_neg hempty, if_neg hempty]
    by_cases hcollapsed : a.collapsed = true
    · simp [hcollapsed]
    · simp [hcollapsed, hle, chars]

theorem chars_object_keyless {o : ObjectOf Shape} (ho : o.fields = []) (hlt : depth < limit) :
    chars limit depth indent (.object o) =
      '\x7b' :: (if o.collapsed then "...".toList else []) ++ ['\x7d'] := by
  have hle : ¬ limit ≤ depth := by omega
  rw [chars, renderAt, ho]
  by_cases hcollapsed : o.collapsed = true
  · simp [hcollapsed]
  · simp [hcollapsed, hle]

theorem toList_renderFields (limit depth indent : Nat) (fs : List (Field Shape)) :
    (renderFields limit depth indent fs).map String.toList =
      fs.map (fieldChars limit depth indent) := by
  rw [renderFields_eq_map, List.map_map]
  refine List.map_congr_left fun f _ => ?_
  cases hf : f.isOptional <;> simp [fieldChars, markOf, chars, hf]

/-- Whether the fields of an object are on one line. -/
def Compact (o : ObjectOf Shape) : Prop := o.fields.length ≤ 3 ∧ fieldsOnOneLine o.fields = true

instance (o : ObjectOf Shape) : Decidable (Compact o) := inferInstanceAs (Decidable (_ ∧ _))

theorem chars_object_compact {o : ObjectOf Shape} (ho : o.fields ≠ []) (hc : Compact o) :
    chars limit depth indent (.object o) = '\x7b' :: (", ".toList.intercalate
      (o.fields.map (fieldChars limit (depth + 1) indent)) ++ ['\x7d']) := by
  rw [Compact] at hc
  rw [chars, renderAt, if_neg (by simpa using ho), if_pos hc, ← toList_renderFields]
  simp [String.toList_intercalate]

theorem chars_object_block {o : ObjectOf Shape} (ho : o.fields ≠ []) (hc : ¬ Compact o) :
    chars limit depth indent (.object o) = '\x7b' :: '\n' :: (",\n".toList.intercalate
      (o.fields.map fun f => (spaces (indent + 2)).toList ++
        fieldChars limit (depth + 1) (indent + 2) f) ++
      '\n' :: ((spaces indent).toList ++ ['\x7d'])) := by
  rw [Compact] at hc
  rw [chars, renderAt, if_neg (by simpa using ho), if_neg hc]
  have hfields : (renderFields limit (depth + 1) (indent + 2) o.fields).map
      (String.toList ∘ (spaces (indent + 2) ++ ·)) =
      o.fields.map fun f => (spaces (indent + 2)).toList ++
        fieldChars limit (depth + 1) (indent + 2) f := by
    have := congrArg (List.map ((spaces (indent + 2)).toList ++ ·))
      (toList_renderFields limit (depth + 1) (indent + 2) o.fields)
    simpa [List.map_map, Function.comp_def] using this
  simp [block, String.toList_intercalate, List.map_map, hfields]

end Texts

/-! ## How texts begin -/

/-- The characters that the text of an alternative can begin with. -/
def initials : Shape → List Char
  | .scalar _ => ['n', 'b', 's']
  | .array _ => ['A']
  | .object _ => ['\x7b']
  | .choice _ => []

/-- The text of an object up to the first character that ends a name, after the brace. -/
def opening (o : ObjectOf Shape) : List Char × Char :=
  match o.fields with
  | [] => (if o.collapsed then "...".toList else [], '\x7d')
  | f :: _ => if Compact o then (f.name.toList, markOf f) else ([], '\n')

section Begin

variable {limit depth indent n : Nat} {s v : Shape} {o : ObjectOf Shape}

theorem markOf_mem_nameStops (f : Field Shape) : markOf f ∈ nameStops := by
  cases hf : f.isOptional <;> simp [markOf, nameStops, hf]

theorem exists_chars_object (indent : Nat) (o : ObjectOf Shape) (hlt : depth < limit) :
    ∃ cs, chars limit depth indent (.object o) =
      '\x7b' :: ((opening o).1 ++ (opening o).2 :: cs) := by
  cases hfields : o.fields with
  | nil =>
    refine ⟨[], ?_⟩
    rw [chars_object_keyless hfields hlt, opening, hfields]
    rfl
  | cons f fs =>
    have hne : o.fields ≠ [] := hfields ▸ List.cons_ne_nil f fs
    by_cases hc : Compact o
    · have hopening : opening o = (f.name.toList, markOf f) := by
        rw [opening, hfields]
        exact if_pos hc
      obtain ⟨r, hr⟩ := exists_joined_eq_append (fieldChars limit (depth + 1) indent)
        ", ".toList f fs
      rw [chars_object_compact hne hc, hopening, hfields, hr, fieldChars, List.append_assoc,
        List.append_assoc, List.cons_append]
      exact ⟨_, rfl⟩
    · have hopening : opening o = ([], '\n') := by
        rw [opening, hfields]
        exact if_neg hc
      rw [chars_object_block hne hc, hopening]
      exact ⟨_, rfl⟩

/-- From how the texts of two objects begin, one can tell whether they have keys, and whether these
are on one line. -/
theorem layout_of_opening_eq {a b : ObjectOf Shape} (h : opening a = opening b) :
    a.fields = [] ∧ b.fields = [] ∧ a.collapsed = b.collapsed ∨
      a.fields ≠ [] ∧ b.fields ≠ [] ∧ (Compact a ↔ Compact b) := by
  have hmark : ∀ f : Field Shape, markOf f ≠ '\x7d' ∧ markOf f ≠ '\n' := by
    intro f
    cases hf : f.isOptional <;> simp [markOf, hf]
  rw [opening, opening] at h
  cases hfa : a.fields with
  | nil =>
    cases hfb : b.fields with
    | nil =>
      rw [hfa, hfb] at h
      refine .inl ⟨rfl, rfl, ?_⟩
      revert h
      cases a.collapsed <;> cases b.collapsed <;> simp
    | cons g gs =>
      rw [hfa, hfb] at h
      by_cases hcb : Compact b
      · simp [hcb, (hmark g).1.symm] at h
      · simp [hcb] at h
  | cons f fs =>
    cases hfb : b.fields with
    | nil =>
      rw [hfa, hfb] at h
      by_cases hca : Compact a
      · simp [hca, (hmark f).1] at h
      · simp [hca] at h
    | cons g gs =>
      rw [hfa, hfb] at h
      refine .inr ⟨nofun, nofun, ?_⟩
      by_cases hca : Compact a <;> by_cases hcb : Compact b
      · exact iff_of_true hca hcb
      · simp [hca, hcb, (hmark f).2] at h
      · simp [hca, hcb, (hmark g).2.symm] at h
      · exact iff_of_false hca hcb

theorem opening_plain (ho : PlainNode (.object o)) :
    Avoids nameStops (opening o).1 ∧ (opening o).2 ∈ nameStops := by
  rw [opening]
  split
  · refine ⟨?_, show '\x7d' ∈ nameStops by decide⟩
    split
    · exact (by decide : PlainName "...")
    · exact List.forall_mem_nil _
  · rename_i f fs hfields
    split
    · exact ⟨ho f (hfields ▸ List.mem_cons_self), markOf_mem_nameStops f⟩
    · exact ⟨List.forall_mem_nil _, by decide⟩

namespace Legible

theorem lt_of_level_pos (h : v.Legible n) (hle : depth + n ≤ limit) (hv : 0 < v.level) :
    depth < limit := by
  have := h.level_le
  omega

theorem exists_initial (indent : Nat) (h : v.Legible n) (hle : depth + n ≤ limit)
    (hk : v.kind ≠ .choice) : ∃ c ∈ v.initials, ∃ cs, chars limit depth indent v = c :: cs := by
  cases v with
  | scalar name =>
    have hfirst : ∀ name ∈ scalarTypes, name.toList.head? ∈ ['n', 'b', 's'].map some := by decide
    obtain ⟨c, hc, hname⟩ := List.mem_map.mp (hfirst name h.plain.self)
    obtain ⟨cs, hcs⟩ := List.head?_eq_some_iff.mp hname.symm
    exact ⟨c, hc, cs, by rw [chars, renderAt, hcs]⟩
  | array a =>
    have hlt := h.lt_of_level_pos hle (Nat.succ_pos _)
    rw [chars_array h.plain.self hlt]
    exact ⟨'A', List.mem_cons_self, _, rfl⟩
  | object o =>
    have hlt := h.lt_of_level_pos hle (Nat.succ_pos _)
    obtain ⟨cs, hcs⟩ := exists_chars_object indent o hlt
    exact ⟨'\x7b', List.mem_cons_self, _, hcs⟩
  | choice vs => exact absurd rfl hk

/-- The text of an element is not taken for the dots in its place. -/
theorem chars_ne_dots (h : s.Legible n) (hle : depth + n ≤ limit) (r r' : List Char) :
    chars limit depth indent s ++ r ≠ "...".toList ++ r' := by
  obtain ⟨v, vs, hvs⟩ := List.exists_cons_of_ne_nil h.alternatives_ne_nil
  have hv : v ∈ s.alternatives := hvs ▸ List.mem_cons_self
  have hk := h.wellFormed.flat.kind_ne_choice hv
  obtain ⟨c, hc, cs, hcs⟩ := (h.alternative hv).exists_initial indent hle hk
  obtain ⟨cs', hcs'⟩ := exists_joined_eq_append (chars limit depth indent) " | ".toList v vs
  rw [chars_eq_joined, hvs, hcs', hcs]
  intro heq
  have hdot : c = '.' := by simpa using congrArg List.head? heq
  subst hdot
  revert hc
  cases v <;> simp only [initials] <;> decide

end Legible

end Begin

/-! ## Reading shapes -/

/-- The text goes on with what is no separator of alternatives. -/
def Ends (r : List Char) : Prop := r.head? ≠ some ' '

/-- Text that may follow an alternative. -/
def Follows (v : Shape) (r : List Char) : Prop := v.endsOpen = true → Ends r

/-- Equal texts come from shapes that are shown alike, and end in the same place. -/
def Told (limit depth : Nat) (s t : Shape) : Prop :=
  ∀ indent r r', Ends r → Ends r' →
    chars limit depth indent s ++ r = chars limit depth indent t ++ r' → s.shown = t.shown ∧ r = r'

section Told

variable {limit depth indent n : Nat} {r r' : List Char}

theorem told_field {f g : Field Shape} (hf : PlainName f.name) (hg : PlainName g.name)
    (hfg : Told limit depth f.shape g.shape) (hr : Ends r) (hr' : Ends r')
    (h : fieldChars limit depth indent f ++ r = fieldChars limit depth indent g ++ r') :
    f.map shown = g.map shown ∧ r = r' := by
  rw [fieldChars, fieldChars, List.append_assoc, List.append_assoc, List.cons_append,
    List.cons_append, List.append_assoc, List.append_assoc] at h
  obtain ⟨hname, hmark, hrest⟩ :=
    word_inj hf hg (markOf_mem_nameStops f) (markOf_mem_nameStops g) h
  have hoptional : f.isOptional = g.isOptional := by
    cases hf : f.isOptional <;> cases hg : g.isOptional <;> simp [markOf, hf, hg] at hmark <;> rfl
  rw [hoptional] at hrest
  obtain ⟨hshape, rfl⟩ := hfg indent r r' hr hr' (List.append_cancel_left hrest)
  exact ⟨by rw [Field.map, Field.map, hshape, hoptional, String.toList_inj.mp hname], rfl⟩

/-- The fields of objects are told, both on one line and in blocks. -/
theorem told_fields {fs gs : List (Field Shape)} (hfs : fs ≠ []) (hgs : gs ≠ [])
    (hplain : ∀ f ∈ fs, PlainName f.name) (hplain' : ∀ g ∈ gs, PlainName g.name)
    (hfg : ∀ f ∈ fs, ∀ g ∈ gs, Told limit depth f.shape g.shape) (pad gap : List Char) {c : Char}
    (hc : c ∈ ['\x7d', '\n'])
    (h :
      (',' :: gap).intercalate (fs.map (pad ++ fieldChars limit depth indent ·)) ++ c :: r =
        (',' :: gap).intercalate (gs.map (pad ++ fieldChars limit depth indent ·)) ++ c :: r') :
    fs.map (Field.map shown) = gs.map (Field.map shown) ∧ r = r' := by
  have hends : ∀ r, r.head? = some c → Ends r := by
    intro r hr
    rw [Ends, hr]
    rintro ⟨⟩
    revert hc
    decide
  have hcomma : ∀ r, ¬ (',' :: gap ++ r).head? = some c := by
    rintro r ⟨⟩
    revert hc
    decide
  have hread := joined_inj (Field.map shown) (fun _ => Ends) (fun r => r.head? = some c) hcomma
    (fun _ => hends) hfs hgs
    (fun f hf g hg r r' hr hr' heq => by
      rw [List.append_assoc, List.append_assoc] at heq
      exact told_field (hplain f hf) (hplain' g hg) (hfg f hf g hg) hr hr'
        (List.append_cancel_left heq))
    (fun _ _ r => by simp [Ends]) (fun _ _ r => by simp [Ends]) rfl rfl h
  exact ⟨hread.1, (List.cons.inj hread.2).2⟩

/-- None of the types begins with another one. -/
theorem scalarType_inj {name name' : String} (hname : name ∈ scalarTypes)
    (hname' : name' ∈ scalarTypes) (h : name.toList ++ r = name'.toList ++ r') :
    name = name' ∧ r = r' := by
  have hprefixFree : ∀ x ∈ scalarTypes, ∀ y ∈ scalarTypes,
      x.toList <+: y.toList ∨ y.toList <+: x.toList → x = y := by decide
  have hprefix' : name'.toList <+: name.toList ++ r := h ▸ List.prefix_append _ _
  have hsame : name = name' := hprefixFree name hname name' hname'
    (List.prefix_or_prefix_of_prefix (List.prefix_append _ _) hprefix')
  subst hsame
  exact ⟨rfl, List.append_cancel_left h⟩

theorem isEmpty_congr {a b : ArrayOf Shape} (h : a.extent.bounds = b.extent.bounds) :
    a.isEmpty = b.isEmpty := by
  rw [ArrayOf.isEmpty, ArrayOf.isEmpty, Extent.isEmpty, Extent.isEmpty, h]

theorem elementChars_of_isEmpty {a : ArrayOf Shape} (ha : a.isEmpty = true) :
    elementChars limit depth indent a = [] := by
  rw [elementChars, if_pos ha]

theorem elementChars_of_collapsed {a : ArrayOf Shape} (ha : a.isEmpty = false)
    (hc : a.collapsed = true) :
    elementChars limit depth indent a = " of ".toList ++ "...".toList := by
  rw [elementChars, if_neg (by simp [ha]), if_pos hc]

theorem elementChars_of_hasElement {a : ArrayOf Shape} (ha : a.isEmpty = false)
    (hc : a.collapsed = false) : elementChars limit depth indent a =
      " of ".toList ++ chars limit depth indent a.element := by
  rw [elementChars, if_neg (by simp [ha]), if_neg (by simp [hc])]

/-- After equal lengths, the elements are told. -/
theorem told_element {a b : ArrayOf Shape} (ha : a.element.Legible n) (hb : b.element.Legible n)
    (hle : depth + n ≤ limit) (hab : Told limit depth a.element b.element)
    (hempty : a.isEmpty = b.isEmpty) (hr : Follows (.array a) r) (hr' : Follows (.array b) r')
    (h : elementChars limit depth indent a ++ r = elementChars limit depth indent b ++ r') :
    (a.isEmpty = false → a.collapsed = b.collapsed ∧
      (a.collapsed = false → a.element.shown = b.element.shown)) ∧ r = r' := by
  cases hae : a.isEmpty with
  | true =>
    rw [elementChars_of_isEmpty hae, elementChars_of_isEmpty (hempty ▸ hae)] at h
    exact ⟨nofun, h⟩
  | false =>
    have hbe : b.isEmpty = false := hempty ▸ hae
    cases hac : a.collapsed <;> cases hbc : b.collapsed
    · rw [elementChars_of_hasElement hae hac, elementChars_of_hasElement hbe hbc,
        List.append_assoc, List.append_assoc] at h
      have hra := hr (by simp [endsOpen, ArrayOf.hasElement, hae, hac])
      have hrb := hr' (by simp [endsOpen, ArrayOf.hasElement, hbe, hbc])
      obtain ⟨hshown, hrest⟩ := hab indent r r' hra hrb (List.append_cancel_left h)
      exact ⟨fun _ => ⟨rfl, fun _ => hshown⟩, hrest⟩
    · rw [elementChars_of_hasElement hae hac, elementChars_of_collapsed hbe hbc,
        List.append_assoc, List.append_assoc] at h
      exact absurd (List.append_cancel_left h) (ha.chars_ne_dots hle _ _)
    · rw [elementChars_of_collapsed hae hac, elementChars_of_hasElement hbe hbc,
        List.append_assoc, List.append_assoc] at h
      exact absurd (List.append_cancel_left h).symm (hb.chars_ne_dots hle _ _)
    · rw [elementChars_of_collapsed hae hac, elementChars_of_collapsed hbe hbc] at h
      exact ⟨fun _ => ⟨rfl, nofun⟩, List.append_cancel_left h⟩

theorem shown_array_eq {a b : ArrayOf Shape} (hbounds : a.extent.bounds = b.extent.bounds)
    (h : a.isEmpty = false → a.collapsed = b.collapsed ∧
      (a.collapsed = false → a.element.shown = b.element.shown)) :
    (array a).shown = (array b).shown := by
  rw [shown, shown, Extent.ranged_eq_ranged hbounds, ArrayOf.hasElement, ArrayOf.hasElement,
    ← isEmpty_congr hbounds]
  cases hae : a.isEmpty with
  | true => rfl
  | false =>
    obtain ⟨hcollapsed, hshown⟩ := h hae
    rw [← hcollapsed]
    cases hac : a.collapsed with
    | true => rfl
    | false =>
      rw [hshown hac]

theorem told_array {a b : ArrayOf Shape} (ha : (array a).Legible (n + 1))
    (hb : (array b).Legible (n + 1)) (hle : depth + (n + 1) ≤ limit)
    (hab : Told limit (depth + 1) a.element b.element) (hr : Follows (.array a) r)
    (hr' : Follows (.array b) r')
    (h : chars limit depth indent (.array a) ++ r = chars limit depth indent (.array b) ++ r') :
    (array a).shown = (array b).shown ∧ r = r' := by
  rw [chars_array ha.plain.self (by omega), chars_array hb.plain.self (by omega), List.append_assoc,
    List.append_assoc, List.append_assoc, List.append_assoc, List.cons_append,
    List.cons_append] at h
  obtain ⟨hbounds, hrest⟩ :=
    Extent.text_inj ha.plain.self hb.plain.self (List.append_cancel_left h)
  obtain ⟨hsame, hrest⟩ := told_element (ha.inside (.element List.mem_cons_self))
    (hb.inside (.element List.mem_cons_self)) (by omega) hab (isEmpty_congr hbounds) hr hr' hrest
  exact ⟨shown_array_eq hbounds hsame, hrest⟩

theorem map_shown_eq {a b : ObjectOf Shape} (ha : (object a).Legible n) (hb : (object b).Legible n)
    (hfa : a.fields ≠ []) (hfb : b.fields ≠ [])
    (h : a.fields.map (Field.map shown) = b.fields.map (Field.map shown)) :
    a.map shown = b.map shown := by
  rw [ObjectOf.map, ObjectOf.map, h, ha.collapsed_eq_false hfa, hb.collapsed_eq_false hfb]

theorem told_object {a b : ObjectOf Shape} (ha : (object a).Legible n) (hb : (object b).Legible n)
    (hlt : depth < limit)
    (hab : ∀ f ∈ a.fields, ∀ g ∈ b.fields, Told limit (depth + 1) f.shape g.shape)
    (h : chars limit depth indent (.object a) ++ r = chars limit depth indent (.object b) ++ r') :
    (object a).shown = (object b).shown ∧ r = r' := by
  have hopening : opening a = opening b := by
    obtain ⟨cs, hcs⟩ := exists_chars_object indent a hlt
    obtain ⟨cs', hcs'⟩ := exists_chars_object indent b hlt
    rw [hcs, hcs', List.cons_append, List.cons_append, List.append_assoc, List.append_assoc] at h
    obtain ⟨hword, hstop⟩ := opening_plain ha.plain.self
    obtain ⟨hword', hstop'⟩ := opening_plain hb.plain.self
    obtain ⟨hfst, hsnd, -⟩ := word_inj hword hword' hstop hstop' (List.cons.inj h).2
    exact Prod.ext hfst hsnd
  rw [shown_object, shown_object]
  rcases layout_of_opening_eq hopening with ⟨hfa, hfb, hcollapsed⟩ | ⟨hfa, hfb, hc⟩
  · rw [chars_object_keyless hfa hlt, chars_object_keyless hfb hlt, hcollapsed] at h
    exact ⟨by rw [ObjectOf.map, ObjectOf.map, hfa, hfb, hcollapsed], List.append_cancel_left h⟩
  · by_cases hca : Compact a
    · rw [chars_object_compact hfa hca, chars_object_compact hfb (hc.mp hca), List.cons_append,
        List.cons_append, List.append_assoc, List.append_assoc] at h
      obtain ⟨hfields, rfl⟩ := told_fields hfa hfb ha.plain.self hb.plain.self hab [] [' ']
        (by decide) (List.cons.inj h).2
      exact ⟨congrArg object (map_shown_eq ha hb hfa hfb hfields), rfl⟩
    · have hcb : ¬ Compact b := fun hcb => hca (hc.mpr hcb)
      rw [chars_object_block hfa hca, chars_object_block hfb hcb] at h
      simp only [List.cons_append, List.append_assoc] at h
      obtain ⟨hfields, hrest⟩ := told_fields hfa hfb ha.plain.self hb.plain.self hab
        (spaces (indent + 2)).toList ['\n'] (by decide) (List.cons.inj (List.cons.inj h).2).2
      have hrest := List.append_cancel_left hrest
      exact ⟨congrArg object (map_shown_eq ha hb hfa hfb hfields), (List.cons.inj hrest).2⟩

/-- Alternatives of different kinds begin differently. -/
theorem told_alternative {v w : Shape} (hv : v.Legible n) (hw : w.Legible n)
    (hle : depth + n ≤ limit) (hkv : v.kind ≠ .choice) (hkw : w.kind ≠ .choice)
    (hvw : ∀ s t, Inside v s → Inside w t → Told limit (depth + 1) s t) (hr : Follows v r)
    (hr' : Follows w r')
    (h : chars limit depth indent v ++ r = chars limit depth indent w ++ r') :
    v.shown = w.shown ∧ r = r' := by
  have hinitial : v.initials.filter (· ∈ w.initials) ≠ [] := by
    obtain ⟨c, hc, cs, hcs⟩ := hv.exists_initial indent hle hkv
    obtain ⟨c', hc', cs', hcs'⟩ := hw.exists_initial indent hle hkw
    rw [hcs, hcs'] at h
    rw [← (List.cons.inj h).1] at hc'
    exact List.ne_nil_of_mem (List.mem_filter.mpr ⟨hc, decide_eq_true hc'⟩)
  match v, w with
  | .scalar name, .scalar name' =>
    rw [chars, chars, renderAt, renderAt] at h
    obtain ⟨rfl, hrest⟩ := scalarType_inj hv.plain.self hw.plain.self h
    exact ⟨rfl, hrest⟩
  | .array a, .array b =>
    have hpos : 0 < n := Nat.lt_of_lt_of_le (Nat.succ_pos _) hv.level_le
    obtain ⟨n, rfl⟩ := Nat.exists_eq_succ_of_ne_zero (by omega : n ≠ 0)
    exact told_array hv hw hle
      (hvw _ _ (.element List.mem_cons_self) (.element List.mem_cons_self)) hr hr' h
  | .object a, .object b =>
    refine told_object hv hw (hv.lt_of_level_pos hle (Nat.succ_pos _)) (fun f hf g hg => ?_) h
    exact hvw _ _ (.field List.mem_cons_self hf) (.field List.mem_cons_self hg)
  | .choice vs, _ => exact absurd rfl hkv
  | .scalar _, .choice ws | .array _, .choice ws | .object _, .choice ws => exact absurd rfl hkw
  | .scalar _, .array _ | .scalar _, .object _ | .array _, .scalar _ | .array _, .object _
  | .object _, .scalar _ | .object _, .array _ =>
    exact absurd rfl hinitial

theorem told_of_inside {a b : Shape} (ha : a.Legible n) (hb : b.Legible n)
    (hle : depth + n ≤ limit)
    (hab : ∀ s t, Inside a s → Inside b t → Told limit (depth + 1) s t) :
    Told limit depth a b := by
  intro indent r r' hr hr' h
  have hfa := ha.wellFormed.flat
  have hfb := hb.wellFormed.flat
  have hfollows : ∀ {s : Shape}, s.Legible n → ∀ v ∈ s.alternatives.dropLast, ∀ r,
      Follows v (" | ".toList ++ r) := by
    intro s hs v hv r hopen
    rw [hs.endsOpen_of_mem_dropLast hv] at hopen
    cases hopen
  have hstop : ∀ r, ¬ Ends (" | ".toList ++ r) := fun r hends => hends rfl
  rw [chars_eq_joined, chars_eq_joined b] at h
  obtain ⟨halternatives, hrest⟩ := joined_inj shown Follows Ends hstop
    (fun v r hr _ => hr) ha.alternatives_ne_nil hb.alternatives_ne_nil
    (fun v hv w hw r r' hr hr' h => told_alternative (ha.alternative hv) (hb.alternative hw) hle
      (hfa.kind_ne_choice hv) (hfb.kind_ne_choice hw)
      (fun s t hs ht => hab s t (hfa.inside hv hs) (hfb.inside hw ht)) hr hr' h)
    (hfollows ha) (hfollows hb) hr hr' h
  refine ⟨?_, hrest⟩
  rw [← ha.ofAlternatives_alternatives, ← hb.ofAlternatives_alternatives,
    keepsKinds_shown.ofAlternatives, keepsKinds_shown.ofAlternatives, halternatives]

/-- The induction is on the containers that the shapes may have below each other. -/
theorem told {a b : Shape} (ha : a.Legible n) (hb : b.Legible n) (hle : depth + n ≤ limit) :
    Told limit depth a b := by
  induction n generalizing a b depth with
  | zero =>
    refine told_of_inside ha hb hle fun s t hs _ => ?_
    have hlt := hs.level_lt
    have hlevel := ha.level_le
    omega
  | succ n ih =>
    exact told_of_inside ha hb hle fun s t hs ht => ih (ha.inside hs) (hb.inside ht) (by omega)

end Told

/-- Where an array with an element stands before another alternative, the text is also that of an
array whose elements have the alternatives. -/
theorem renderAt_choice_array {limit depth : Nat} (hlt : depth < limit) (indent : Nat) {e : Extent}
    (he : e.isEmpty = false) (v : Shape) (name : String) :
    renderAt limit depth indent (.choice [.array ⟨e, v, false⟩, .scalar name]) =
      renderAt limit depth indent (.array ⟨e, .choice [v, .scalar name], false⟩) := by
  have hopen : ∀ w, renderAt limit depth indent (.array ⟨e, w, false⟩) =
      "Array(" ++ e.text ++ ") of " ++ renderAt limit (depth + 1) indent w := by
    intro w
    have hle : ¬ limit ≤ depth := by omega
    have hempty : ¬ (⟨e, w, false⟩ : ArrayOf Shape).isEmpty = true := by simp [ArrayOf.isEmpty, he]
    rw [renderAt, if_neg hempty, if_neg (by simp [hle])]
  have hchoice : ∀ depth w, renderAt limit depth indent (.choice [w, .scalar name]) =
      renderAt limit depth indent w ++ " | " ++ name := by
    intro depth w
    rw [renderAt, renderAlternatives_eq_map, List.map_cons, List.map_singleton, renderAt]
    rfl
  rw [hopen, hchoice, hchoice, hopen]
  simp only [String.append_assoc]

end Shape

/-- **The notation is unambiguous.**  Legible shapes have a text for each depth limit and on each
host. If they are not cut off and their texts are the same, then they are shown alike: they have the
same kinds, keys in the same order, optional and not, the same alternatives in the same order, the
same lengths, and the same arrays and objects are collapsed. -/
theorem shown_eq_of_text_eq (limit maxDepth : Int) {a b : Shape}
    (ha : a.Legible (min maxDepth (greatestDepth limit)).toNat)
    (hb : b.Legible (min maxDepth (greatestDepth limit)).toNat) :
    ∃ text text', (∀ log, ∃ log', (a.renderWithin limit maxDepth).run log = .ok text log') ∧
      (∀ log, ∃ log', (b.renderWithin limit maxDepth).run log = .ok text' log') ∧
      (text = text' → a.shown = b.shown) := by
  let levels := (min maxDepth (greatestDepth limit)).toNat
  have hruns : ∀ (s : Shape) log, ∃ log',
      (s.renderWithin limit maxDepth).run log = .ok (s.render levels) log' := by
    intro s log
    obtain ⟨log', hlimit⟩ := allowedDepth_int_run limit maxDepth log
    exact ⟨log', Survey.renderWithin_run hlimit s⟩
  refine ⟨a.render levels, b.render levels, hruns a, hruns b, fun htext => ?_⟩
  have hchars : chars levels 0 0 a ++ [] = chars levels 0 0 b ++ [] := by
    rw [List.append_nil, List.append_nil]
    exact congrArg String.toList htext
  exact (told ha hb (by omega) 0 [] [] nofun nofun hchars).1

/-- The lengths are given by a range on one side, and an empty array is collapsed on the other. -/
theorem shown_eq_of_text_eq_ranges :
    let a : Shape := .object ⟨[⟨"user_1", .choice [.string, .array ⟨.exact 2, .number, false⟩],
      true⟩, ⟨"tags", .array ⟨.exact 0, .null, true⟩, false⟩], false⟩
    let b : Shape := .object ⟨[⟨"user_1", .choice [.string, .array ⟨.range 2 2, .number, false⟩],
      true⟩, ⟨"tags", .array ⟨.range 0 0, .boolean, false⟩, false⟩], false⟩
    a.Legible 3 ∧ b.Legible 3 ∧ a.shown = b.shown ∧
      (a.renderWithin 1000 3).run #[] =
        .ok "\x7buser_1?: string | Array(2) of number, tags: Array(0)\x7d" #[] := by
  intro a b
  have ha : a.Legible 3 := ⟨by decide, by decide, by decide⟩
  have hb : b.Legible 3 := ⟨by decide, by decide, by decide⟩
  have hruns : (a.renderWithin 1000 3).run #[] = (b.renderWithin 1000 3).run #[] := rfl
  obtain ⟨text, text', htext, htext', hshown⟩ := shown_eq_of_text_eq 1000 3 ha hb
  obtain ⟨log, htext⟩ := htext #[]
  obtain ⟨log', htext'⟩ := htext' #[]
  have hsame := htext.symm.trans (hruns.trans htext')
  cases hsame
  exact ⟨ha, hb, hshown rfl, rfl⟩

end JsonShape
