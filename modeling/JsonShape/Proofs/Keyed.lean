import Mathlib.Data.List.Induction
import Mathlib.Data.List.Nodup
import Mathlib.Data.List.Perm.Basic

/-!
# Lists with keys

Fields have names and alternatives have kinds; in both lists the entry of a key is the first one
that has it. Where keys do not repeat:

* `find?_eq_some_iff`: the entry of a key is the member that has it, and the entries of all keys
  make up the list (`filterMap_find?`);
* `forall₂_of_find?`: lists with the same keys in the same order are related position by position if
  the entries of each key are;
* `exists_perm_forall₂`: lists with the same keys in any order are so related after reordering one.

`union` is the order of keys that merging produces. It is associative (`union_assoc`), and it is
what taking the keys of two lists in order of first appearance amounts to (`eraseDups_append`).
-/

namespace JsonShape.Keyed

section Find

variable {α κ : Type} {key : α → κ} {l l' : List α} {R : α → α → Prop}

theorem forall₂_of_mem (hk : l.map key = l'.map key)
    (h : ∀ x ∈ l, ∀ y ∈ l', key x = key y → R x y) : List.Forall₂ R l l' := by
  induction l generalizing l' with
  | nil =>
    cases l' with
    | nil => exact .nil
    | cons y l' => cases hk
  | cons x l ih =>
    cases l' with
    | nil => cases hk
    | cons y l' =>
      obtain ⟨hxy, hk⟩ := List.cons.inj hk
      have hR := h x List.mem_cons_self y List.mem_cons_self hxy
      exact .cons hR (ih hk fun x' hx' y' hy' =>
        h x' (List.mem_cons_of_mem _ hx') y' (List.mem_cons_of_mem _ hy'))

variable [BEq κ] [LawfulBEq κ]

theorem key_of_find? {k : κ} {x : α} (h : l.find? (key · == k) = some x) : key x = k := by
  simpa using List.find?_some h

theorem find?_eq_none_iff {k : κ} : l.find? (key · == k) = none ↔ k ∉ l.map key := by
  simp

theorem find?_eq_some_iff (hl : (l.map key).Nodup) {k : κ} {x : α} :
    l.find? (key · == k) = some x ↔ x ∈ l ∧ key x = k := by
  constructor
  · intro h
    exact ⟨List.mem_of_find?_eq_some h, key_of_find? h⟩
  · rintro ⟨hx, rfl⟩
    cases h : l.find? (key · == key x) with
    | none => exact absurd (List.mem_map_of_mem hx) (find?_eq_none_iff.mp h)
    | some y =>
      have hy := List.mem_of_find?_eq_some h
      rw [List.inj_on_of_nodup_map hl hy hx (key_of_find? h)]

/-- A list is the list of the entries of its keys. -/
theorem filterMap_find? (hl : (l.map key).Nodup) :
    (l.map key).filterMap (fun k => l.find? (key · == k)) = l := by
  rw [List.filterMap_map]
  refine (List.filterMap_congr fun x hx => ?_).trans List.filterMap_some
  exact (find?_eq_some_iff hl).mpr ⟨hx, rfl⟩

theorem forall₂_of_find? (hk : l.map key = l'.map key) (hl : (l.map key).Nodup)
    (h : ∀ k x y, l.find? (key · == k) = some x → l'.find? (key · == k) = some y → R x y) :
    List.Forall₂ R l l' := by
  refine forall₂_of_mem hk fun x hx y hy hxy => h (key y) x y ?_ ?_
  · exact (find?_eq_some_iff hl).mpr ⟨hx, hxy⟩
  · exact (find?_eq_some_iff (hk ▸ hl)).mpr ⟨hy, rfl⟩

theorem exists_perm_forall₂ (hk : (l.map key).Perm (l'.map key)) (hl : (l.map key).Nodup)
    (h : ∀ k x y, l.find? (key · == k) = some x → l'.find? (key · == k) = some y → R x y) :
    ∃ l'', l''.Perm l' ∧ List.Forall₂ R l l'' := by
  have heq : List.Forall₂ (fun k y => k = key y) (l'.map key) l' := by
    rw [List.forall₂_map_left_iff]
    exact List.forall₂_same.mpr fun _ _ => rfl
  obtain ⟨l'', hf, hp⟩ := List.perm_comp_forall₂ hk heq
  have hk'' : l.map key = l''.map key := by
    rw [← List.forall₂_eq_eq_eq, List.forall₂_map_right_iff]
    exact hf
  refine ⟨l'', hp, forall₂_of_mem hk'' fun x hx y hy hxy => h (key y) x y ?_ ?_⟩
  · exact (find?_eq_some_iff hl).mpr ⟨hx, hxy⟩
  · exact (find?_eq_some_iff (hk.nodup_iff.mp hl)).mpr ⟨hp.mem_iff.mp hy, rfl⟩

theorem find?_map_of_key {entry : κ → α} {ks : List κ} (h : ∀ k ∈ ks, key (entry k) = k) (k : κ) :
    (ks.map entry).find? (key · == k) = if k ∈ ks then some (entry k) else none := by
  induction ks with
  | nil => rfl
  | cons k' ks ih =>
    obtain ⟨hk', hks⟩ := List.forall_mem_cons.mp h
    rw [List.map_cons, List.find?_cons, ih hks, hk']
    by_cases hk : k' = k
    · subst hk
      simp
    · have hne : k ≠ k' := Ne.symm hk
      have hbeq : (k' == k) = false := beq_eq_false_iff_ne.mpr hk
      simp [hbeq, hne]

end Find

/-! The entry of a key in a merged list combines the entries of the key in both lists, where there
are any. What relates two such entries then follows from what relates two combinations. -/

section Merge

variable {α : Type} {R : α → α → Prop} {f g : α → α → α} {o p q : Option α} {x y : α}

theorem rel_merge_map {r : α → α} (hx : o.merge f p = some x)
    (hy : (o.map r).merge g (p.map r) = some y) (hr : ∀ x, R x (r x))
    (hfg : ∀ x y, o = some x → p = some y → R (f x y) (g (r x) (r y))) : R x y := by
  cases o <;> cases p <;> simp at hx hy
  case none.some => exact hx ▸ hy ▸ hr _
  case some.none => exact hx ▸ hy ▸ hr _
  case some.some => exact hx ▸ hy ▸ hfg _ _ rfl rfl

theorem rel_merge_assoc (hx : (o.merge f p).merge f q = some x)
    (hy : o.merge f (p.merge f q) = some y) (hr : ∀ x, R x x)
    (hf : ∀ x y z, o = some x → p = some y → q = some z → R (f (f x y) z) (f x (f y z))) :
    R x y := by
  cases o <;> cases p <;> cases q <;> simp at hx hy
  case some.some.some => exact hx ▸ hy ▸ hf _ _ _ rfl rfl rfl
  all_goals exact hx ▸ hy ▸ hr _

theorem rel_merge_comm (hx : o.merge f p = some x) (hy : p.merge g o = some y)
    (hr : ∀ x, R x x) (hfg : ∀ x y, o = some x → p = some y → R (f x y) (g y x)) : R x y := by
  cases o <;> cases p <;> simp at hx hy
  case some.some => exact hx ▸ hy ▸ hfg _ _ rfl rfl
  all_goals exact hx ▸ hy ▸ hr _

theorem rel_merge_left (hx : o.merge f p = some x) (hy : o = some y) (hr : ∀ x, R x x)
    (hf : ∀ z, p = some z → R (f y z) y) : R x y := by
  subst hy
  cases p <;> simp at hx
  case none => exact hx ▸ hr _
  case some z => exact hx ▸ hf z rfl

theorem rel_merge_ite {P Q : Prop} [Decidable P] [Decidable Q] {z u v : α}
    (hx : (if P ∨ Q then some z else none) = some x)
    (hy : (if P then some u else none).merge g (if Q then some v else none) = some y)
    (hl : ¬ Q → R z u) (hr : ¬ P → R z v) (hg : P → Q → R z (g u v)) : R x y := by
  by_cases hP : P <;> by_cases hQ : Q <;> simp [hP, hQ] at hx hy
  · exact hx ▸ hy ▸ hg hP hQ
  · exact hx ▸ hy ▸ hl hQ
  · exact hx ▸ hy ▸ hr hP

end Merge

section Union

variable {κ : Type} [DecidableEq κ]

/-- The keys of one list, then those that only the other has. -/
def union (ks ks' : List κ) : List κ := ks ++ ks'.filter (· ∉ ks)

theorem mem_union {ks ks' : List κ} {k : κ} : k ∈ union ks ks' ↔ k ∈ ks ∨ k ∈ ks' := by
  by_cases h : k ∈ ks <;> simp [union, h]

theorem union_cons_of_mem {ks ks' : List κ} {k : κ} (h : k ∈ ks) :
    union ks (k :: ks') = union ks ks' := by
  simp [union, h]

theorem union_cons_of_notMem {ks ks' : List κ} {k : κ} (h : k ∉ ks) (h' : k ∉ ks') :
    union ks (k :: ks') = union (ks ++ [k]) ks' := by
  have hf : ks'.filter (· ∉ ks ++ [k]) = ks'.filter (· ∉ ks) := by
    apply List.filter_congr
    intro x hx
    have hxk : x ≠ k := fun e => h' (e ▸ hx)
    simp [hxk]
  rw [union, union, hf]
  simp [h]

theorem nodup_union {ks ks' : List κ} (h : ks.Nodup) (h' : ks'.Nodup) : (union ks ks').Nodup := by
  refine List.nodup_append.mpr ⟨h, h'.filter _, ?_⟩
  rintro k hk k' hk' rfl
  simp [hk] at hk'

theorem union_eq_left {ks ks' : List κ} (h : ks' ⊆ ks) : union ks ks' = ks := by
  have hnone : ks'.filter (· ∉ ks) = [] := by
    rw [List.filter_eq_nil_iff]
    intro k hk
    simp [h hk]
  rw [union, hnone, List.append_nil]

theorem union_assoc (ks ks' ks'' : List κ) :
    union (union ks ks') ks'' = union ks (union ks' ks'') := by
  simp only [union, List.filter_append, List.append_assoc, List.filter_filter]
  congr 2
  apply List.filter_congr
  intro k _
  by_cases h : k ∈ ks <;> simp [h]

theorem union_perm_comm {ks ks' : List κ} (h : ks.Nodup) (h' : ks'.Nodup) :
    (union ks ks').Perm (union ks' ks) := by
  rw [List.perm_ext_iff_of_nodup (nodup_union h h') (nodup_union h' h)]
  intro k
  rw [mem_union, mem_union, or_comm]

/-! The keys of a list in order of first appearance are what `List.eraseDups` leaves. -/

theorem eraseDups_concat (ks : List κ) (k : κ) :
    (ks ++ [k]).eraseDups = if k ∈ ks then ks.eraseDups else ks.eraseDups ++ [k] := by
  rw [List.eraseDups_append]
  by_cases h : k ∈ ks <;> simp [List.removeAll, List.eraseDups_cons, h]

theorem nodup_eraseDups (ks : List κ) : ks.eraseDups.Nodup := by
  induction ks using List.reverseRecOn with
  | nil => exact List.nodup_nil
  | append_singleton ks k ih =>
    rw [eraseDups_concat]
    split
    · exact ih
    · rename_i h
      refine List.nodup_append.mpr ⟨ih, List.nodup_singleton k, ?_⟩
      rintro x hx y hy rfl
      exact h (List.mem_singleton.mp hy ▸ List.mem_eraseDups.mp hx)

theorem eraseDups_of_nodup {ks : List κ} (h : ks.Nodup) : ks.eraseDups = ks := by
  induction ks using List.reverseRecOn with
  | nil => rfl
  | append_singleton ks k ih =>
    rw [List.nodup_append_comm, List.singleton_append, List.nodup_cons] at h
    rw [eraseDups_concat, if_neg h.1, ih h.2]

theorem eraseDups_perm {ks ks' : List κ} (h : ks.Perm ks') : ks.eraseDups.Perm ks'.eraseDups := by
  rw [List.perm_ext_iff_of_nodup (nodup_eraseDups _) (nodup_eraseDups _)]
  intro k
  rw [List.mem_eraseDups, List.mem_eraseDups, h.mem_iff]

theorem eraseDups_append (ks ks' : List κ) :
    (ks ++ ks').eraseDups = union ks.eraseDups ks'.eraseDups := by
  induction ks' using List.reverseRecOn with
  | nil => simp [union]
  | append_singleton ks' k ih =>
    rw [← List.append_assoc, eraseDups_concat, eraseDups_concat, ih]
    by_cases h : k ∈ ks <;> by_cases h' : k ∈ ks' <;> simp [union, h, h']

end Union

end JsonShape.Keyed
