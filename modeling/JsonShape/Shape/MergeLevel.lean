import JsonShape.Shape.Merge

/-!
# Merging and levels

* `level_merge_le`: merging does not raise the level.
* `mergeWithin_eq_merge`: any level that the shapes do not exceed gives the same merge.
* `merge_eq`: merging is one step of merging, with merging itself for the shapes inside containers.
-/

namespace JsonShape.Shape

/-! ## Merging does not raise the level -/

section Level

variable {m m' : Shape → Shape → Shape} {n : Nat}

theorem level_unite?_le (hm : ∀ x y, x.level < n → y.level < n → (m x y).level < n)
    {v s u : Shape} (hv : v.level ≤ n) (hs : s.level ≤ n) (hu : unite? m v s = some u) :
    u.level ≤ n := by
  unfold unite? at hu
  split at hu
  · split at hu <;> cases hu
    exact hv
  · cases hu
    rename_i a b
    simp only [level] at hv hs ⊢
    have := hm a.element b.element (by omega) (by omega)
    simp only [ArrayOf.merge]
    split
    · split <;> omega
    · omega
  · cases hu
    rename_i a b
    simp only [level, Nat.succ_le_iff] at hv hs ⊢
    cases n with
    | zero => omega
    | succ k =>
      simp only [Nat.lt_succ_iff, levelOfFields_le] at hv hs hm ⊢
      intro f hf
      rcases ObjectOf.shape_of_mem_merge hf with ⟨g, hg, h⟩ | ⟨g, hg, h⟩ | ⟨g, hg, g', hg', h⟩
      · exact h ▸ hv g hg
      · exact h ▸ hs g hg
      · exact h ▸ hm _ _ (hv g hg) (hs g' hg')
  · cases hu

theorem level_addAlternative_le (hm : ∀ x y, x.level < n → y.level < n → (m x y).level < n)
    {vs : List Shape} {s : Shape} (hvs : ∀ v ∈ vs, v.level ≤ n) (hs : s.level ≤ n) :
    ∀ v ∈ addAlternative m vs s, v.level ≤ n :=
  forall_mem_addAlternative (fun _ _ _ => level_unite?_le hm) hvs hs

theorem level_mergeWith_le (hm : ∀ x y, x.level < n → y.level < n → (m x y).level < n)
    {a b : Shape} (ha : a.level ≤ n) (hb : b.level ≤ n) : (mergeWith m a b).level ≤ n := by
  refine level_ofAlternatives_le.2
    (forall_mem_foldl_addAlternative (fun _ _ _ => level_unite?_le hm) (by simp) fun s hs => ?_)
  rcases List.mem_append.1 hs with h | h
  · exact level_le_iff_alternatives.1 ha s h
  · exact level_le_iff_alternatives.1 hb s h

theorem level_mergeWithin_le {a b : Shape} (ha : a.level ≤ n) (hb : b.level ≤ n) :
    (mergeWithin n a b).level ≤ n := by
  induction n generalizing a b with
  | zero => exact level_mergeWith_le (fun _ _ h => absurd h (Nat.not_lt_zero _)) ha hb
  | succ n ih =>
    exact level_mergeWith_le (fun x y hx hy => Nat.lt_succ_iff.2
      (ih (Nat.lt_succ_iff.1 hx) (Nat.lt_succ_iff.1 hy))) ha hb

theorem level_merge_le {a b : Shape} (ha : a.level ≤ n) (hb : b.level ≤ n) :
    (merge a b).level ≤ n :=
  Nat.le_trans (level_mergeWithin_le (Nat.le_max_left ..) (Nat.le_max_right ..))
    (Nat.max_le.2 ⟨ha, hb⟩)

/-! ## The level does not matter -/

theorem unite?_congr (h : ∀ x y, x.level < n → y.level < n → m x y = m' x y) {v s : Shape}
    (hv : v.level ≤ n) (hs : s.level ≤ n) : unite? m v s = unite? m' v s := by
  unfold unite?
  split
  · rfl
  · rename_i a b
    simp only [level] at hv hs
    simp only [ArrayOf.merge, h a.element b.element (by omega) (by omega)]
  · rename_i a b
    simp only [level, Nat.succ_le_iff] at hv hs
    have fields : a.fields.map (Field.mergeInto m b.fields) =
        a.fields.map (Field.mergeInto m' b.fields) := by
      refine List.map_congr_left fun f hf => ?_
      unfold Field.mergeInto
      split
      · rfl
      · rename_i g hg
        have hf' := levelOfFields_le.1 (Nat.le_refl _) f hf
        have hg' := levelOfFields_le.1 (Nat.le_refl _) g (Field.mem_of_find? hg)
        rw [h f.shape g.shape (by omega) (by omega)]
    simp only [ObjectOf.merge, fields]
  · rfl

theorem addAlternative_congr (h : ∀ x y, x.level < n → y.level < n → m x y = m' x y)
    {vs : List Shape} {s : Shape} (hvs : ∀ v ∈ vs, v.level ≤ n) (hs : s.level ≤ n) :
    addAlternative m vs s = addAlternative m' vs s := by
  induction vs with
  | nil => rfl
  | cons v vs ih =>
    obtain ⟨hv, hvs⟩ := List.forall_mem_cons.1 hvs
    simp only [addAlternative, unite?_congr h hv hs, ih hvs]

theorem mergeWith_congr (h : ∀ x y, x.level < n → y.level < n → m x y = m' x y)
    (hm : ∀ x y, x.level < n → y.level < n → (m x y).level < n)
    {a b : Shape} (ha : a.level ≤ n) (hb : b.level ≤ n) : mergeWith m a b = mergeWith m' a b := by
  have fold : ∀ ss vs : List Shape, (∀ s ∈ ss, s.level ≤ n) → (∀ v ∈ vs, v.level ≤ n) →
      ss.foldl (addAlternative m) vs = ss.foldl (addAlternative m') vs := by
    intro ss
    induction ss with
    | nil => intros; rfl
    | cons s ss ih =>
      intro vs hss hvs
      obtain ⟨hs, hss⟩ := List.forall_mem_cons.1 hss
      simp only [List.foldl_cons, ← addAlternative_congr h hvs hs]
      exact ih _ hss (level_addAlternative_le hm hvs hs)
  unfold mergeWith
  rw [fold _ [] (fun s hs => ?_) (by simp)]
  rcases List.mem_append.1 hs with h | h
  · exact level_le_iff_alternatives.1 ha s h
  · exact level_le_iff_alternatives.1 hb s h

theorem mergeWithin_succ {a b : Shape} (ha : a.level ≤ n) (hb : b.level ≤ n) :
    mergeWithin (n + 1) a b = mergeWithin n a b := by
  induction n generalizing a b with
  | zero =>
    exact (mergeWith_congr (fun _ _ h => absurd h (Nat.not_lt_zero _))
      (fun _ _ h => absurd h (Nat.not_lt_zero _)) ha hb).symm
  | succ n ih =>
    refine (mergeWith_congr (fun x y hx hy => ?_) (fun x y hx hy => ?_) ha hb).symm
    · exact (ih (Nat.lt_succ_iff.1 hx) (Nat.lt_succ_iff.1 hy)).symm
    · exact Nat.lt_succ_iff.2
        (level_mergeWithin_le (Nat.lt_succ_iff.1 hx) (Nat.lt_succ_iff.1 hy))

theorem mergeWithin_eq_merge {a b : Shape} (ha : a.level ≤ n) (hb : b.level ≤ n) :
    mergeWithin n a b = merge a b := by
  obtain ⟨k, rfl⟩ := Nat.exists_eq_add_of_le (Nat.max_le.2 ⟨ha, hb⟩)
  clear ha hb
  induction k with
  | zero => rfl
  | succ k ih =>
    rw [← ih, ← Nat.add_assoc]
    exact mergeWithin_succ (by omega) (by omega)

end Level

/-- Merging is one step of merging, with merging itself for the shapes inside containers. -/
theorem merge_eq (a b : Shape) : merge a b = mergeWith merge a b := by
  have ha : a.level ≤ max a.level b.level := Nat.le_max_left ..
  have hb : b.level ≤ max a.level b.level := Nat.le_max_right ..
  rw [← mergeWithin_eq_merge (Nat.le_succ_of_le ha) (Nat.le_succ_of_le hb)]
  refine mergeWith_congr (fun x y hx hy => ?_) (fun x y hx hy => ?_) ha hb
  · exact mergeWithin_eq_merge (Nat.le_of_lt hx) (Nat.le_of_lt hy)
  · rw [mergeWithin_eq_merge (Nat.le_of_lt hx) (Nat.le_of_lt hy)]
    exact Nat.lt_of_le_of_lt (level_merge_le (Nat.le_max_left ..) (Nat.le_max_right ..))
      (Nat.max_lt.2 ⟨hx, hy⟩)

end JsonShape.Shape
