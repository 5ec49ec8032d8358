import JsonShape.Proofs.Merging

/-!
# Which arrays describe elements

Whether an array describes an element is read off its lengths and its mark, also after merging.

* `hasElement_foldl_merge`: several merges keep that some array described an element, for lengths
  that are not negative;
* `element_foldl_merge`: the result merges the elements of those arrays that describe one, and of no
  others;
* `merged_arrays`: with the lengths and the mark of the result.
-/

namespace JsonShape

namespace ArrayOf

variable {σ : Type}

/-- The elements that the arrays describe. What only holds the place of one is not among them. -/
def elements (as : List (ArrayOf σ)) : List σ := (as.filter (·.hasElement)).map (·.element)

theorem elements_append (as bs : List (ArrayOf σ)) :
    elements (as ++ bs) = elements as ++ elements bs := by
  rw [elements, List.filter_append, List.map_append]
  rfl

theorem elements_singleton (a : ArrayOf σ) :
    elements [a] = if a.hasElement then [a.element] else [] := by
  cases h : a.hasElement <;> simp [elements, h]

theorem elements_ne_nil_iff {as : List (ArrayOf σ)} :
    elements as ≠ [] ↔ ∃ a ∈ as, a.hasElement = true := by
  simp [elements]

/-! ## Merging arrays from the left -/

variable (m : σ → σ → σ) {a : ArrayOf σ} {as : List (ArrayOf σ)}

theorem bounds_foldl_merge (as : List (ArrayOf σ)) : (as.foldl (merge m) a).extent.bounds =
    ((as.map (·.extent.bounds.1)).foldl min a.extent.bounds.1,
      (as.map (·.extent.bounds.2)).foldl max a.extent.bounds.2) := by
  induction as using List.reverseRecOn with
  | nil => rfl
  | append_singleton as b ih =>
    rw [List.foldl_concat, extent_merge, Extent.bounds_hull, ih, List.map_append, List.map_append,
      List.map_singleton, List.map_singleton, List.foldl_concat, List.foldl_concat]

/-- The lengths of a merge are always given by a range. -/
theorem extent_foldl_merge (has : as ≠ []) : (as.foldl (merge m) a).extent =
    .range ((as.map (·.extent.bounds.1)).foldl min a.extent.bounds.1)
      ((as.map (·.extent.bounds.2)).foldl max a.extent.bounds.2) := by
  have hbounds := bounds_foldl_merge m (a := a) as
  obtain ⟨as, b, rfl⟩ := (List.eq_nil_or_concat as).resolve_left has
  rw [List.concat_eq_append, List.foldl_concat] at hbounds ⊢
  obtain ⟨hleast, hgreatest⟩ := Prod.mk.inj hbounds
  rw [← hleast, ← hgreatest]
  rfl

section Nonneg

variable (h : ∀ b ∈ a :: as, 0 ≤ b.extent.bounds.2)
include h

theorem nonneg_foldl_merge : 0 ≤ (as.foldl (merge m) a).extent.bounds.2 := by
  induction as using List.reverseRecOn with
  | nil => exact h a List.mem_cons_self
  | append_singleton as b ih =>
    rw [← List.cons_append, List.forall_mem_append] at h
    rw [List.foldl_concat, extent_merge, Extent.bounds_hull]
    exact Int.le_trans (ih h.1) (Int.le_max_left _ _)

/-- The induction is from the end of the list: the last merge reads off what all merges before it
have come to. -/
theorem hasElement_foldl_merge :
    (as.foldl (merge m) a).hasElement = true ↔ elements (a :: as) ≠ [] := by
  induction as using List.reverseRecOn with
  | nil => simp [elements_ne_nil_iff]
  | append_singleton as b ih =>
    rw [← List.cons_append, List.forall_mem_append, List.forall_mem_singleton] at h
    rw [List.foldl_concat, hasElement_merge (nonneg_foldl_merge m h.1) h.2, Bool.or_eq_true,
      ih h.1, ← List.cons_append, elements_append, elements_singleton]
    cases b.hasElement <;> simp

/-- Where no array describes an element, what holds the place in the first array still does. -/
theorem element_foldl_merge : (as.foldl (merge m) a).element =
    (foldFirst? m (elements (a :: as))).getD a.element := by
  induction as using List.reverseRecOn with
  | nil => cases ha : a.hasElement <;> simp [elements_singleton, ha, foldFirst?]
  | append_singleton as b ih =>
    rw [← List.cons_append, List.forall_mem_append, List.forall_mem_singleton] at h
    have hdescribes := hasElement_foldl_merge m h.1
    rw [ne_eq, ← foldFirst?_eq_none_iff (f := m)] at hdescribes
    rw [List.foldl_concat, element_merge, ih h.1, ← List.cons_append, elements_append,
      elements_singleton]
    cases b.hasElement with
    | false => simp
    | true =>
      simp only [if_true, foldFirst?_concat]
      cases hfold : foldFirst? m (elements (a :: as)) with
      | none => simp [hfold] at hdescribes; simp [hdescribes]
      | some s => simp [hdescribes, hfold]

/-- Without an element in any array, marks are passed on. -/
theorem collapsed_foldl_merge_of_elements_eq_nil (hnil : elements (a :: as) = []) :
    (as.foldl (merge m) a).collapsed = (a :: as).any (·.collapsed) := by
  induction as using List.reverseRecOn with
  | nil => simp
  | append_singleton as b ih =>
    rw [← List.cons_append, List.forall_mem_append] at h
    rw [← List.cons_append, elements_append, List.append_eq_nil_iff, elements_singleton] at hnil
    have hleft : (as.foldl (merge m) a).hasElement = false := by
      rw [Bool.eq_false_iff, ne_eq, hasElement_foldl_merge m h.1, not_not]
      exact hnil.1
    have hright : b.hasElement = false := by simpa using hnil.2
    rw [List.foldl_concat, collapsed_merge, hleft, hright, ih h.1 hnil.1, ← List.cons_append,
      List.any_append]
    simp

end Nonneg

/-- The element of the result depends on nothing but the elements that are described. -/
theorem exists_foldFirst?_merge (h : ∀ b ∈ as, 0 ≤ b.extent.bounds.2) (hne : elements as ≠ []) :
    ∃ r, foldFirst? (merge m) as = some r ∧ r.hasElement = true ∧
      foldFirst? m (elements as) = some r.element := by
  cases as with
  | nil => exact absurd rfl hne
  | cons a as =>
    obtain ⟨s, hs⟩ := Option.ne_none_iff_exists'.mp (mt (foldFirst?_eq_none_iff (f := m)).mp hne)
    refine ⟨_, rfl, (hasElement_foldl_merge m h).mpr hne, ?_⟩
    rw [element_foldl_merge m h, hs, Option.getD_some]

end ArrayOf

open Shape

/-- **Merging several arrays.**  The merge of two or more arrays from the left has no single length:
its range is from the least to the greatest length of all. It describes an element if one of the
arrays does, and then the element merges the elements of just these arrays, in order, and the result
is not collapsed. Otherwise the first array gives what holds the place of an element, and the result
is collapsed if one of the arrays is. So an array that is empty or collapsed, in whichever place,
leaves the element as it would be without it. -/
theorem merged_arrays (as : List (ArrayOf Shape)) (hlen : 2 ≤ as.length)
    (hnonneg : ∀ a ∈ as, 0 ≤ a.extent.bounds.2) :
    ∃ r, foldFirst? (ArrayOf.merge merge) as = some r ∧
      (∃ least greatest, (as.map (·.extent.bounds.1)).min? = some least ∧
        (as.map (·.extent.bounds.2)).max? = some greatest ∧ r.extent = .range least greatest) ∧
      (r.hasElement = true ↔ ∃ a ∈ as, a.hasElement = true) ∧
      (r.hasElement = true → r.collapsed = false ∧
        foldFirst? merge ((as.filter (·.hasElement)).map (·.element)) = some r.element) ∧
      (r.hasElement = false → as.head?.map (·.element) = some r.element ∧
        (r.collapsed = true ↔ ∃ a ∈ as, a.collapsed = true)) ∧
      ∀ before a after, as = before ++ a :: after → a.isEmpty = true ∨ a.collapsed = true →
        r.hasElement = true → ∃ r', foldFirst? (ArrayOf.merge merge) (before ++ after) = some r' ∧
          r'.hasElement = true ∧ r'.element = r.element := by
  obtain ⟨a, as, rfl⟩ := List.exists_cons_of_length_pos (Nat.lt_of_lt_of_le Nat.zero_lt_two hlen)
  have has : as ≠ [] := by
    rintro rfl
    simp at hlen
  have hdescribes := ArrayOf.hasElement_foldl_merge merge hnonneg
  have helements : (as.foldl (ArrayOf.merge merge) a).hasElement = true →
      foldFirst? merge (ArrayOf.elements (a :: as)) =
        some (as.foldl (ArrayOf.merge merge) a).element := by
    intro hr
    obtain ⟨r, hfold, -, hs⟩ := ArrayOf.exists_foldFirst?_merge merge hnonneg (hdescribes.mp hr)
    cases hfold
    exact hs
  refine ⟨_, rfl, ⟨_, _, List.min?_cons', List.max?_cons', ArrayOf.extent_foldl_merge merge has⟩,
    hdescribes.trans ArrayOf.elements_ne_nil_iff,
    fun hr => ⟨(ArrayOf.hasElement_eq_true_iff.mp hr).2, helements hr⟩, fun hr => ?_,
    fun before b after hsplit hb hr => ?_⟩
  · have hnil : ArrayOf.elements (a :: as) = [] := by
      rwa [Bool.eq_false_iff, ne_eq, hdescribes, not_not] at hr
    rw [ArrayOf.element_foldl_merge merge hnonneg, hnil,
      ArrayOf.collapsed_foldl_merge_of_elements_eq_nil merge hnonneg hnil]
    exact ⟨rfl, List.any_eq_true⟩
  · have hnone : b.hasElement = false := by
      rwa [ArrayOf.hasElement, Bool.not_eq_false', Bool.or_eq_true]
    have hsame : ArrayOf.elements (a :: as) = ArrayOf.elements (before ++ after) := by
      rw [hsplit, List.append_cons, ArrayOf.elements_append, ArrayOf.elements_append,
        ArrayOf.elements_append, ArrayOf.elements_singleton]
      simp [hnone]
    have hsub : ∀ c ∈ before ++ after, c ∈ a :: as := by
      rw [hsplit]
      simp only [List.mem_append, List.mem_cons]
      exact fun c hc => hc.imp_right .inr
    obtain ⟨r', hfold, hr', hs⟩ := ArrayOf.exists_foldFirst?_merge merge
      (fun c hc => hnonneg c (hsub c hc)) (hsame ▸ hdescribes.mp hr)
    rw [← hsame, helements hr] at hs
    exact ⟨r', hfold, hr', (Option.some.inj hs).symm⟩

/-- The first array is collapsed, the second is a merge of empty ones, and of the others one is
empty. -/
theorem merged_arrays_withheld :
    let looped : ArrayOf Shape := ⟨.exact 9, .null, true⟩
    let empties : ArrayOf Shape := ⟨.range 0 0, .null, false⟩
    let words : ArrayOf Shape := ⟨.exact 2, .string, false⟩
    let empty : ArrayOf Shape := ⟨.exact 0, .null, false⟩
    let numbers : ArrayOf Shape := ⟨.range 3 5, .number, false⟩
    let as := [looped, empties, words, empty, numbers]
    ∃ r, foldFirst? (ArrayOf.merge merge) as = some r ∧ r.extent = .range 0 9 ∧
      r.hasElement = true ∧ r.collapsed = false ∧ r.element = .choice [.string, .number] ∧
      ∃ r', foldFirst? (ArrayOf.merge merge) [looped, empties, words, numbers] = some r' ∧
        r'.element = .choice [.string, .number] := by
  intro looped empties words empty numbers as
  obtain ⟨r, hr, ⟨least, greatest, hleast, hgreatest, hextent⟩, hdescribes, helement, -, hdrop⟩ :=
    merged_arrays as (by decide) (by decide)
  cases hleast
  cases hgreatest
  have hsome : r.hasElement = true := hdescribes.mpr ⟨words, by simp [as], by decide⟩
  obtain ⟨hcollapsed, hs⟩ := helement hsome
  have hmerged : r.element = .choice [.string, .number] := Option.some.inj (hs.symm.trans rfl)
  obtain ⟨r', hr', -, hsame⟩ := hdrop [looped, empties, words] empty [numbers] rfl (.inl rfl) hsome
  exact ⟨r, hr, hextent, hsome, hcollapsed, hmerged, r', hr', hsame.trans hmerged⟩

end JsonShape
