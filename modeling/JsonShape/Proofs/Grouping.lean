import JsonShape.Proofs.Merging

/-!
# Merging groups alternatives by kind

`grouped vs` has one alternative for each kind among `vs`, in order of first appearance: a scalar
type as it is, and all arrays, or all objects, folded into one.

* `foldl_addAlternative_eq_grouped`: adding alternatives one by one groups them;
* `mergeAll_eq_grouped`: merging several shapes from the left groups the alternatives of all of them
  at once, so that no kind has a say in what becomes of another.

Alternatives may repeat here, and a choice may have none or only one: what merging adds to is always
grouped already, and to group it again changes nothing.
-/

namespace JsonShape

namespace Shape

/-! ## Groups -/

def array? : Shape → Option (ArrayOf Shape)
  | .array a => some a
  | _ => none

def object? : Shape → Option (ObjectOf Shape)
  | .object o => some o
  | _ => none

/-- The one alternative for all alternatives of a kind, if there are any. Choices have none. -/
def group? (vs : List Shape) : Kind → Option Shape
  | .scalar name => if .scalar name ∈ kinds vs then some (.scalar name) else none
  | .array => (foldFirst? (ArrayOf.merge merge) (vs.filterMap array?)).map .array
  | .object => (foldFirst? (ObjectOf.merge merge) (vs.filterMap object?)).map .object
  | .choice => none

/-- One alternative for each kind, in order of first appearance. -/
def grouped (vs : List Shape) : List Shape :=
  (kinds vs).eraseDups.filterMap (group? vs)

theorem group?_concat {vs : List Shape} {s : Shape} (hs : s.kind ≠ .choice) (k : Kind) :
    group? (vs ++ [s]) k =
      if s.kind = k then (group? vs k).merge (unite merge) (some s) else group? vs k := by
  cases k with
  | scalar name =>
    by_cases h : s.kind = .scalar name
    · obtain rfl : s = .scalar name := by
        cases s <;> simp_all [kind]
      by_cases hv : .scalar name ∈ kinds vs <;> simp [group?, kinds_append, kind, unite, hv]
    · have hne : .scalar name ≠ s.kind := Ne.symm h
      simp [group?, kinds_append, h, hne]
  | array =>
    cases s with
    | array a =>
      simp only [group?, List.filterMap_append, List.filterMap_cons, List.filterMap_nil, array?,
        foldFirst?_concat, kind, if_true]
      cases foldFirst? (ArrayOf.merge merge) (vs.filterMap array?) <;> rfl
    | _ => simp [group?, List.filterMap_cons, array?, kind]
  | object =>
    cases s with
    | object o =>
      simp only [group?, List.filterMap_append, List.filterMap_cons, List.filterMap_nil, object?,
        foldFirst?_concat, kind, if_true]
      cases foldFirst? (ObjectOf.merge merge) (vs.filterMap object?) <;> rfl
    | _ => simp [group?, List.filterMap_cons, object?, kind]
  | choice => simp [group?, hs]

theorem filterMap_filter_kind {α : Type} {f : Shape → Option α} {k : Kind}
    (hf : ∀ v, v.kind ≠ k → f v = none) (vs : List Shape) :
    (vs.filter (·.kind = k)).filterMap f = vs.filterMap f := by
  rw [List.filterMap_filter]
  apply List.filterMap_congr
  intro v _
  by_cases h : v.kind = k
  · simp [h]
  · simp [h, hf v h]

/-- Alternatives of other kinds have no say in a group. -/
theorem group?_filter (vs : List Shape) (k : Kind) :
    group? (vs.filter (·.kind = k)) k = group? vs k := by
  cases k with
  | scalar name => simp [group?, kinds]
  | array =>
    have harray : ∀ v : Shape, v.kind ≠ .array → v.array? = none := by
      intro v h
      cases v <;> first | rfl | exact absurd rfl h
    rw [group?, group?, filterMap_filter_kind harray]
  | object =>
    have hobject : ∀ v : Shape, v.kind ≠ .object → v.object? = none := by
      intro v h
      cases v <;> first | rfl | exact absurd rfl h
    rw [group?, group?, filterMap_filter_kind hobject]
  | choice => rfl

/-! ## Adding alternatives groups them -/

section Add

variable {vs ss : List Shape}

theorem findKind?_foldl_addAlternative_nil (hvs : .choice ∉ kinds vs) (k : Kind) :
    findKind? (vs.foldl (addAlternative merge) []) k = group? vs k := by
  induction vs using List.reverseRecOn with
  | nil => cases k <;> rfl
  | append_singleton vs s ih =>
    rw [kinds_append, List.mem_append, not_or] at hvs
    have hs : s.kind ≠ .choice := fun h => hvs.2 (h ▸ List.mem_singleton_self _)
    rw [List.foldl_concat, findKind?_addAlternative hs, ih hvs.1,
      group?_concat hs]

theorem foldl_addAlternative_eq_grouped (hvs : .choice ∉ kinds vs) :
    vs.foldl (addAlternative merge) [] = grouped vs := by
  have hflat := flat_foldl_addAlternative (m := merge) hvs
  calc vs.foldl (addAlternative merge) []
      = (kinds (vs.foldl (addAlternative merge) [])).filterMap
          (findKind? (vs.foldl (addAlternative merge) [])) := (Keyed.filterMap_find? hflat.1).symm
    _ = (kinds vs).eraseDups.filterMap (group? vs) := by
      rw [kinds_foldl_addAlternative_nil hvs]
      exact List.filterMap_congr fun k _ => findKind?_foldl_addAlternative_nil hvs k

theorem addAlternative_of_notMem {m : Shape → Shape → Shape} {s : Shape} (hs : s.kind ∉ kinds vs) :
    addAlternative m vs s = vs ++ [s] := by
  induction vs with
  | nil => rfl
  | cons v vs ih =>
    rw [kinds_cons, List.mem_cons, not_or] at hs
    rw [addAlternative, unite?_eq_none (Ne.symm hs.1), ih hs.2, List.cons_append]

/-- Adding alternatives that are grouped already only lists them. -/
theorem foldl_addAlternative_of_nodup {m : Shape → Shape → Shape}
    (h : (kinds (vs ++ ss)).Nodup) : ss.foldl (addAlternative m) vs = vs ++ ss := by
  induction ss generalizing vs with
  | nil => simp
  | cons s ss ih =>
    have hnodup : (kinds vs ++ s.kind :: kinds ss).Nodup := by
      rw [← kinds_cons, ← kinds_append]
      exact h
    have hs : s.kind ∉ kinds vs := fun hmem =>
      (List.disjoint_of_nodup_append hnodup) hmem List.mem_cons_self
    rw [List.append_cons] at h
    rw [List.foldl_cons, addAlternative_of_notMem hs, ih h, List.append_assoc,
      List.singleton_append]

end Add

/-! ## Merging groups alternatives -/

/-- One step of merging from the left: to alternatives that are grouped already more are added. -/
theorem merge_ofAlternatives_grouped {vs : List Shape} {s : Shape} (hvs : .choice ∉ kinds vs)
    (hs : .choice ∉ kinds s.alternatives) :
    merge (ofAlternatives (grouped vs)) s = ofAlternatives (grouped (vs ++ s.alternatives)) := by
  have hboth : .choice ∉ kinds (vs ++ s.alternatives) := by
    rw [kinds_append, List.mem_append]
    exact fun h => h.elim hvs hs
  have hflat : Flat (grouped vs) := by
    rw [← foldl_addAlternative_eq_grouped hvs]
    exact flat_foldl_addAlternative hvs
  have hagain : (grouped vs).foldl (addAlternative merge) [] = grouped vs := by
    apply foldl_addAlternative_of_nodup
    rw [List.nil_append]
    exact hflat.1
  rw [merge_eq_ofAlternatives, united, alternatives_ofAlternatives hflat.2, List.foldl_append,
    hagain, ← foldl_addAlternative_eq_grouped hboth, List.foldl_append,
    foldl_addAlternative_eq_grouped hvs]

theorem foldl_merge_eq_grouped {vs : List Shape} {ss : List Shape} (hvs : .choice ∉ kinds vs)
    (hss : ∀ s ∈ ss, .choice ∉ kinds s.alternatives) :
    ss.foldl merge (ofAlternatives (grouped vs)) =
      ofAlternatives (grouped (vs ++ ss.flatMap alternatives)) := by
  induction ss generalizing vs with
  | nil => simp
  | cons s ss ih =>
    obtain ⟨hs, hss⟩ := List.forall_mem_cons.mp hss
    have hboth : .choice ∉ kinds (vs ++ s.alternatives) := by
      rw [kinds_append, List.mem_append]
      exact fun h => h.elim hvs hs
    rw [List.foldl_cons, merge_ofAlternatives_grouped hvs hs, ih hboth hss, List.flatMap_cons,
      List.append_assoc]

/-- **Merging groups alternatives.**  Merging two or more shapes from the left gives the groups of
all their alternatives. The group of a kind depends on the alternatives of this kind only. -/
theorem mergeAll_eq_grouped (ss : List Shape) (hlen : 2 ≤ ss.length)
    (hss : ∀ s ∈ ss, .choice ∉ kinds s.alternatives) :
    mergeAll ss = .ok (ofAlternatives (grouped (ss.flatMap alternatives))) ∧
      ∀ k, findKind? (grouped (ss.flatMap alternatives)) k =
        group? ((ss.flatMap alternatives).filter (·.kind = k)) k := by
  have hall : .choice ∉ kinds (ss.flatMap alternatives) := by
    rw [kinds, List.map_flatMap, List.mem_flatMap]
    rintro ⟨s, hs, hmem⟩
    exact hss s hs hmem
  constructor
  · match ss, hlen with
    | s :: t :: ss, _ =>
      obtain ⟨hs, hss⟩ := List.forall_mem_cons.mp hss
      obtain ⟨ht, hss⟩ := List.forall_mem_cons.mp hss
      have htwo : .choice ∉ kinds (s.alternatives ++ t.alternatives) := by
        rw [kinds_append, List.mem_append]
        exact fun h => h.elim hs ht
      rw [mergeAll, List.foldl_cons, merge_eq_ofAlternatives, united,
        foldl_addAlternative_eq_grouped htwo, foldl_merge_eq_grouped htwo hss]
      simp [List.flatMap_cons]
  · intro k
    rw [group?_filter, ← foldl_addAlternative_eq_grouped hall]
    exact findKind?_foldl_addAlternative_nil hall k

/-- Repeated alternatives, a choice among none and a single one, in between other kinds. -/
theorem mergeAll_eq_grouped_interleaved :
    let a := ArrayOf.mk (.exact 1) Shape.number false
    let b := ArrayOf.mk (.exact 3) Shape.string false
    let ss := [.choice [.null, .array a, .null], .choice [], .object ⟨[], true⟩,
      .choice [.array b], .null]
    mergeAll ss = .ok (.choice [.null, .array (a.merge merge b), .object ⟨[], true⟩]) := by
  intro a b ss
  exact (mergeAll_eq_grouped ss (by decide) (by decide)).1.trans rfl

end Shape

end JsonShape
