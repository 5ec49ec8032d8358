import JsonShape.Proofs.Keyed
import JsonShape.Shape.MergeLevel

/-!
# Merging, kind by kind and name by name

* Two alternatives take one place when they are of one kind. Where the alternatives of two shapes
  are `Flat` (no choices among them, and each kind once), the merge has the kinds of the first shape
  and then those that only the second has (`kinds_merge`), and its alternative of a kind unites
  theirs (`findKind?_merge`). Adding alternatives one by one makes them `Flat` in any case
  (`flat_foldl_addAlternative`).
* The merge of two objects has the names of the first and then those that only the second has
  (`names_merge_eq_union`), and the shape under a name merges theirs (`shape?_merge`).
* The merge of two arrays describes an element if one of them does (`hasElement_merge`).

`inside_induction` is the induction that goes with this view: merging uses itself only for the
shapes `Inside` the containers among the alternatives.
-/

namespace JsonShape

/-- The fold of a list from its first element on. -/
def foldFirst? {α : Type} (f : α → α → α) : List α → Option α
  | [] => none
  | x :: xs => some (xs.foldl f x)

theorem foldFirst?_eq_none_iff {α : Type} {f : α → α → α} {xs : List α} :
    foldFirst? f xs = none ↔ xs = [] := by
  cases xs <;> simp [foldFirst?]

theorem foldFirst?_concat {α : Type} (f : α → α → α) (xs : List α) (x : α) :
    foldFirst? f (xs ++ [x]) = (foldFirst? f xs).merge f (some x) := by
  cases xs with
  | nil => rfl
  | cons y xs => simp [foldFirst?, List.foldl_append]

theorem getD_foldFirst?_of_forall {α : Type} {f : α → α → α} {Q : α → Prop} {xs : List α} {y : α}
    (hf : ∀ a b, Q a → Q b → Q (f a b)) (hxs : ∀ x ∈ xs, Q x) (hy : Q y) :
    Q ((foldFirst? f xs).getD y) := by
  induction xs using List.reverseRecOn with
  | nil => exact hy
  | append_singleton xs x ih =>
    obtain ⟨hxs, hx⟩ := List.forall_mem_append.mp hxs
    have hlast := hx x (List.mem_singleton_self x)
    have hrest := ih hxs
    rw [foldFirst?_concat]
    cases hfold : foldFirst? f xs with
    | none => exact hlast
    | some a =>
      rw [hfold] at hrest
      exact hf a x hrest hlast

theorem foldFirst?_map {α β : Type} {f : α → α → α} {f' : β → β → β} {g : α → β} {Q : α → Prop}
    (hf : ∀ a b, Q a → Q b → Q (f a b)) (hg : ∀ a b, Q a → Q b → g (f a b) = f' (g a) (g b))
    {xs : List α} (hxs : ∀ x ∈ xs, Q x) : (foldFirst? f xs).map g = foldFirst? f' (xs.map g) := by
  have hfold : ∀ xs : List α, (∀ x ∈ xs, Q x) → ∀ a, Q a →
      g (xs.foldl f a) = (xs.map g).foldl f' (g a) := by
    intro xs
    induction xs with
    | nil => exact fun _ _ _ => rfl
    | cons x xs ih =>
      intro hxs a ha
      obtain ⟨hx, hxs⟩ := List.forall_mem_cons.mp hxs
      rw [List.foldl_cons, ih hxs _ (hf a x ha hx), hg a x ha hx, List.map_cons, List.foldl_cons]
  cases xs with
  | nil => rfl
  | cons x xs =>
    obtain ⟨hx, hxs⟩ := List.forall_mem_cons.mp hxs
    exact congrArg some (hfold xs hxs x hx)

/-! ## Objects, name by name -/

namespace Field

variable {σ : Type}

/-- The shape under a name. -/
def shape? (fields : List (Field σ)) (name : String) : Option σ :=
  (find? fields name).map (·.shape)

theorem shape?_eq_none_iff {fields : List (Field σ)} {name : String} :
    shape? fields name = none ↔ name ∉ names fields := by
  rw [shape?, Option.map_eq_none_iff, find?_eq_none_iff]

theorem exists_shape?_of_mem_names {fields : List (Field σ)} {name : String}
    (h : name ∈ names fields) : ∃ s, shape? fields name = some s := by
  cases hs : shape? fields name with
  | none => exact absurd h (shape?_eq_none_iff.mp hs)
  | some s => exact ⟨s, rfl⟩

theorem mem_names_of_shape? {fields : List (Field σ)} {name : String} {s : σ}
    (h : shape? fields name = some s) : name ∈ names fields := by
  by_contra hn
  rw [shape?_eq_none_iff.mpr hn] at h
  cases h

theorem exists_of_shape? {fields : List (Field σ)} {name : String} {s : σ}
    (h : shape? fields name = some s) : ∃ f ∈ fields, f.name = name ∧ f.shape = s := by
  obtain ⟨f, hf, hs⟩ := Option.map_eq_some_iff.mp h
  exact ⟨f, mem_of_find? hf, name_of_find? hf, hs⟩

theorem shape?_append (fields others : List (Field σ)) (name : String) :
    shape? (fields ++ others) name = (shape? fields name).or (shape? others name) := by
  rw [shape?, find?, List.find?_append, Option.map_or]
  rfl

theorem shape?_of_mem {fields : List (Field σ)} (h : (names fields).Nodup) {f : Field σ}
    (hf : f ∈ fields) : shape? fields f.name = some f.shape := by
  have hfind : find? fields f.name = some f := (Keyed.find?_eq_some_iff h).mpr ⟨hf, rfl⟩
  rw [shape?, hfind, Option.map_some]

end Field

namespace ObjectOf

variable {σ : Type} (m : σ → σ → σ) (a b : ObjectOf σ)

theorem names_merge_eq_union : Field.names (a.merge m b).fields =
    Keyed.union (Field.names a.fields) (Field.names b.fields) :=
  names_merge m a b

theorem shape?_merge (name : String) : Field.shape? (a.merge m b).fields name =
    (Field.shape? a.fields name).merge m (Field.shape? b.fields name) := by
  unfold Field.shape?
  rw [find?_merge]
  cases ha : Field.find? a.fields name with
  | none => cases hb : Field.find? b.fields name <;> rfl
  | some f =>
    have hf := Field.name_of_find? ha
    cases hb : Field.find? b.fields name <;> simp [Field.mergeInto, hf, hb]

theorem isEmpty_fields_merge :
    (a.merge m b).fields.isEmpty = (a.fields.isEmpty && b.fields.isEmpty) := by
  cases ha : a.fields with
  | nil => cases hb : b.fields <;> simp [merge, Field.additions, Field.names, ha, hb]
  | cons f fs => simp [merge, ha]

theorem collapsed_merge : (a.merge m b).collapsed =
    (a.fields.isEmpty && b.fields.isEmpty && (a.collapsed || b.collapsed)) := by
  rw [← isEmpty_fields_merge m]
  rfl

end ObjectOf

/-! ## Arrays -/

namespace ArrayOf

variable {σ : Type} {m : σ → σ → σ} {a b : ArrayOf σ}

theorem extent_merge : (a.merge m b).extent = a.extent.hull b.extent := rfl

theorem element_merge : (a.merge m b).element =
    if b.hasElement then if a.hasElement then m a.element b.element else b.element
    else a.element := rfl

theorem collapsed_merge : (a.merge m b).collapsed =
    (!a.hasElement && !b.hasElement && (a.collapsed || b.collapsed)) := rfl

theorem hasElement_eq_true_iff :
    a.hasElement = true ↔ a.extent.bounds.2 ≠ 0 ∧ a.collapsed = false := by
  simp [hasElement, isEmpty, Extent.isEmpty]

/-- Lengths below zero would make the greater of two lengths zero. -/
theorem hasElement_merge (ha : 0 ≤ a.extent.bounds.2) (hb : 0 ≤ b.extent.bounds.2) :
    (a.merge m b).hasElement = (a.hasElement || b.hasElement) := by
  have hmax : max a.extent.bounds.2 b.extent.bounds.2 = 0 ↔
      a.extent.bounds.2 = 0 ∧ b.extent.bounds.2 = 0 := by omega
  have hm := hasElement_eq_true_iff (a := a.merge m b)
  rw [extent_merge, Extent.bounds_hull, ne_eq, hmax, collapsed_merge] at hm
  have ha := hasElement_eq_true_iff (a := a)
  have hb := hasElement_eq_true_iff (a := b)
  grind

end ArrayOf

/-! ## Kinds -/

/-- What decides whether two alternatives take one place. -/
inductive Kind where
  | scalar (name : String)
  | array
  | object
  | choice
  deriving DecidableEq, Repr

namespace Shape

def kind : Shape → Kind
  | .scalar name => .scalar name
  | .array _ => .array
  | .object _ => .object
  | .choice _ => .choice

def kinds (vs : List Shape) : List Kind := vs.map kind

@[simp] theorem kinds_nil : kinds [] = [] := rfl

@[simp] theorem kinds_cons (v : Shape) (vs : List Shape) : kinds (v :: vs) = v.kind :: kinds vs :=
  rfl

theorem kinds_append (vs ws : List Shape) : kinds (vs ++ ws) = kinds vs ++ kinds ws :=
  List.map_append

/-- The first alternative of a kind. -/
def findKind? (vs : List Shape) (k : Kind) : Option Shape := vs.find? (kind · == k)

/-- Alternatives that are no choices themselves, at most one of each kind. -/
def Flat (vs : List Shape) : Prop := (kinds vs).Nodup ∧ .choice ∉ kinds vs

instance (vs : List Shape) : Decidable (Flat vs) := inferInstanceAs (Decidable (_ ∧ _))

theorem kind_of_findKind? {vs : List Shape} {k : Kind} {v : Shape} (h : findKind? vs k = some v) :
    v.kind = k :=
  Keyed.key_of_find? h

theorem mem_of_findKind? {vs : List Shape} {k : Kind} {v : Shape} (h : findKind? vs k = some v) :
    v ∈ vs :=
  List.mem_of_find?_eq_some h

theorem findKind?_eq_none_iff {vs : List Shape} {k : Kind} :
    findKind? vs k = none ↔ k ∉ kinds vs :=
  Keyed.find?_eq_none_iff

theorem findKind?_cons (v : Shape) (vs : List Shape) (k : Kind) :
    findKind? (v :: vs) k = if v.kind = k then some v else findKind? vs k := by
  by_cases h : v.kind = k <;> simp [findKind?, h]

theorem Flat.kind_ne_choice {vs : List Shape} (h : Flat vs) {v : Shape} (hv : v ∈ vs) :
    v.kind ≠ .choice := by
  intro hk
  exact h.2 (hk ▸ List.mem_map_of_mem hv)

theorem Flat.tail {v : Shape} {vs : List Shape} (h : Flat (v :: vs)) : Flat vs :=
  ⟨(List.nodup_cons.mp h.1).2, fun hc => h.2 (List.mem_cons_of_mem _ hc)⟩

theorem Flat.findKind?_kind {vs : List Shape} (h : Flat vs) {v : Shape} (hv : v ∈ vs) :
    findKind? vs v.kind = some v :=
  (Keyed.find?_eq_some_iff h.1).mpr ⟨hv, rfl⟩

/-! ## Uniting two alternatives of one kind -/

/-- The merge of two alternatives of one kind. -/
def unite (m : Shape → Shape → Shape) : Shape → Shape → Shape
  | .array a, .array b => .array (a.merge m b)
  | .object a, .object b => .object (a.merge m b)
  | v, _ => v

variable {m : Shape → Shape → Shape}

theorem kind_unite (v s : Shape) : (unite m v s).kind = v.kind := by
  cases v <;> cases s <;> rfl

theorem unite_eq_array {v s : Shape} {u : ArrayOf Shape} (h : unite m v s = .array u)
    (hk : v.kind = s.kind) : ∃ x y, v = .array x ∧ s = .array y ∧ u = x.merge m y := by
  cases v <;> cases s <;> cases hk <;> cases h
  exact ⟨_, _, rfl, rfl, rfl⟩

theorem unite_eq_object {v s : Shape} {u : ObjectOf Shape} (h : unite m v s = .object u)
    (hk : v.kind = s.kind) : ∃ x y, v = .object x ∧ s = .object y ∧ u = x.merge m y := by
  cases v <;> cases s <;> cases hk <;> cases h
  exact ⟨_, _, rfl, rfl, rfl⟩

theorem unite?_eq_some {v s : Shape} (h : v.kind = s.kind) (hv : v.kind ≠ .choice) :
    unite? m v s = some (unite m v s) := by
  cases v <;> cases s <;> simp_all [kind, unite?, unite]

theorem unite?_eq_none {v s : Shape} (h : v.kind ≠ s.kind) : unite? m v s = none := by
  cases v <;> cases s <;> simp_all [kind, unite?]

/-! ## Adding alternatives -/

theorem kinds_addAlternative {vs : List Shape} {s : Shape} (hs : s.kind ≠ .choice) :
    kinds (addAlternative m vs s) =
      if s.kind ∈ kinds vs then kinds vs else kinds vs ++ [s.kind] := by
  induction vs with
  | nil => rfl
  | cons v vs ih =>
    by_cases h : v.kind = s.kind
    · rw [addAlternative, unite?_eq_some h (h ▸ hs)]
      simp [kind_unite, h]
    · have hne : s.kind ≠ v.kind := Ne.symm h
      rw [addAlternative, unite?_eq_none h]
      simp only [kinds_cons, List.mem_cons, hne, false_or, ih]
      by_cases hmem : s.kind ∈ kinds vs
      · rw [if_pos hmem, if_pos hmem]
      · rw [if_neg hmem, if_neg hmem, List.cons_append]

theorem findKind?_addAlternative {vs : List Shape} {s : Shape} (hs : s.kind ≠ .choice) (k : Kind) :
    findKind? (addAlternative m vs s) k =
      if s.kind = k then (findKind? vs k).merge (unite m) (some s) else findKind? vs k := by
  induction vs with
  | nil => simp [addAlternative, findKind?]
  | cons v vs ih =>
    by_cases h : v.kind = s.kind
    · rw [addAlternative, unite?_eq_some h (h ▸ hs)]
      simp only [findKind?_cons, kind_unite, h]
      split <;> simp
    · rw [addAlternative, unite?_eq_none h]
      simp only [findKind?_cons, ih]
      by_cases hk : v.kind = k
      · have hsk : s.kind ≠ k := fun e => h (hk.trans e.symm)
        simp [hk, hsk]
      · simp [hk]

theorem kinds_foldl_addAlternative {ss vs : List Shape} (hss : Flat ss) :
    kinds (ss.foldl (addAlternative m) vs) = Keyed.union (kinds vs) (kinds ss) := by
  induction ss generalizing vs with
  | nil => simp [Keyed.union]
  | cons s ss ih =>
    have hs := hss.kind_ne_choice List.mem_cons_self
    have hnew : s.kind ∉ kinds ss := (List.nodup_cons.mp hss.1).1
    rw [List.foldl_cons, ih hss.tail, kinds_addAlternative hs]
    by_cases h : s.kind ∈ kinds vs
    · rw [if_pos h]
      exact (Keyed.union_cons_of_mem h).symm
    · rw [if_neg h]
      exact (Keyed.union_cons_of_notMem h hnew).symm

theorem kinds_foldl_addAlternative_nil {vs : List Shape} (hvs : .choice ∉ kinds vs) :
    kinds (vs.foldl (addAlternative m) []) = (kinds vs).eraseDups := by
  induction vs using List.reverseRecOn with
  | nil => rfl
  | append_singleton vs s ih =>
    rw [kinds_append, List.mem_append, not_or] at hvs
    have hs : s.kind ≠ .choice := fun h => hvs.2 (h ▸ List.mem_singleton_self _)
    rw [List.foldl_concat, kinds_addAlternative hs, ih hvs.1,
      kinds_append, kinds_cons, kinds_nil, Keyed.eraseDups_concat]
    simp only [List.mem_eraseDups]

/-- What alternatives are added to is flat, even where those that are added repeat. -/
theorem flat_foldl_addAlternative {vs : List Shape} (hvs : .choice ∉ kinds vs) :
    Flat (vs.foldl (addAlternative m) []) := by
  rw [Flat, kinds_foldl_addAlternative_nil hvs, List.mem_eraseDups]
  exact ⟨Keyed.nodup_eraseDups _, hvs⟩

theorem findKind?_foldl_addAlternative {ss vs : List Shape} (hss : Flat ss) (k : Kind) :
    findKind? (ss.foldl (addAlternative m) vs) k =
      (findKind? vs k).merge (unite m) (findKind? ss k) := by
  induction ss generalizing vs with
  | nil => simp [findKind?]
  | cons s ss ih =>
    have hs := hss.kind_ne_choice List.mem_cons_self
    have hnew : s.kind ∉ kinds ss := (List.nodup_cons.mp hss.1).1
    rw [List.foldl_cons, ih hss.tail, findKind?_addAlternative hs, findKind?_cons]
    by_cases h : s.kind = k
    · subst h
      rw [findKind?_eq_none_iff.mpr hnew]
      simp
    · simp [h]

/-! ## Merging -/

theorem alternatives_ofAlternatives {vs : List Shape} (h : .choice ∉ kinds vs) :
    (ofAlternatives vs).alternatives = vs := by
  unfold ofAlternatives
  split
  · rename_i s
    cases s with
    | choice vs => simp [kind] at h
    | _ => rfl
  · rfl

theorem ofAlternatives_alternatives {s : Shape} (h : ∀ vs, s = .choice vs → 2 ≤ vs.length) :
    ofAlternatives s.alternatives = s := by
  cases s with
  | choice vs =>
    match vs, h vs rfl with
    | _ :: _ :: _, _ => rfl
  | _ => rfl

/-- The alternatives of the merge of two shapes. -/
def united (a b : Shape) : List Shape :=
  (a.alternatives ++ b.alternatives).foldl (addAlternative merge) []

theorem merge_eq_ofAlternatives (a b : Shape) : merge a b = ofAlternatives (united a b) :=
  merge_eq a b

section Merge

variable {a b : Shape} (ha : Flat a.alternatives) (hb : Flat b.alternatives)
include ha hb

theorem kinds_united :
    kinds (united a b) = Keyed.union (kinds a.alternatives) (kinds b.alternatives) := by
  rw [united, List.foldl_append, kinds_foldl_addAlternative hb, kinds_foldl_addAlternative ha]
  simp [Keyed.union]

theorem findKind?_united (k : Kind) : findKind? (united a b) k =
    (findKind? a.alternatives k).merge (unite merge) (findKind? b.alternatives k) := by
  rw [united, List.foldl_append, findKind?_foldl_addAlternative hb,
    findKind?_foldl_addAlternative ha]
  simp [findKind?]

theorem flat_united : Flat (united a b) := by
  apply flat_foldl_addAlternative
  rw [kinds_append, List.mem_append]
  exact fun h => h.elim ha.2 hb.2

theorem alternatives_merge : (merge a b).alternatives = united a b := by
  rw [merge_eq_ofAlternatives]
  exact alternatives_ofAlternatives (flat_united ha hb).2

theorem kinds_merge : kinds (merge a b).alternatives =
    Keyed.union (kinds a.alternatives) (kinds b.alternatives) := by
  rw [alternatives_merge ha hb, kinds_united ha hb]

theorem findKind?_merge (k : Kind) : findKind? (merge a b).alternatives k =
    (findKind? a.alternatives k).merge (unite merge) (findKind? b.alternatives k) := by
  rw [alternatives_merge ha hb, findKind?_united ha hb]

end Merge

/-! ## Shapes inside containers -/

/-- The shapes that merging a shape passes on to itself: those directly inside the containers among
its alternatives. -/
inductive Inside (s : Shape) : Shape → Prop
  | element {a : ArrayOf Shape} : .array a ∈ s.alternatives → Inside s a.element
  | field {o : ObjectOf Shape} {f : Field Shape} :
    .object o ∈ s.alternatives → f ∈ o.fields → Inside s f.shape

/-- What is inside an alternative of a shape is inside the shape. -/
theorem Flat.inside {s v t : Shape} (hs : Flat s.alternatives) (hv : v ∈ s.alternatives)
    (h : Inside v t) : Inside s t := by
  have hself : v.alternatives = [v] := by
    cases v with
    | choice vs => exact absurd rfl (hs.kind_ne_choice hv)
    | _ => rfl
  cases h with
  | element ha =>
    rw [hself, List.mem_singleton] at ha
    exact .element (ha ▸ hv)
  | field ho hf =>
    rw [hself, List.mem_singleton] at ho
    exact .field (ho ▸ hv) hf

/-- An alternative of a merge comes from one side or unites one of each. -/
theorem mem_alternatives_merge {a b u : Shape} (ha : Flat a.alternatives)
    (hb : Flat b.alternatives) (hu : u ∈ (merge a b).alternatives) :
    u ∈ a.alternatives ∨ u ∈ b.alternatives ∨
      ∃ v ∈ a.alternatives, ∃ s ∈ b.alternatives, v.kind = s.kind ∧ u = unite merge v s := by
  have hflat : Flat (merge a b).alternatives := by
    rw [alternatives_merge ha hb]
    exact flat_united ha hb
  have hfind := hflat.findKind?_kind hu
  rw [findKind?_merge ha hb] at hfind
  cases hv : findKind? a.alternatives u.kind <;> cases hs : findKind? b.alternatives u.kind <;>
    simp only [hv, hs, Option.merge_none_left, Option.merge_none_right, Option.merge_some_some,
      reduceCtorEq, Option.some.injEq] at hfind
  case none.some s => exact .inr (.inl (hfind ▸ mem_of_findKind? hs))
  case some.none v => exact .inl (hfind ▸ mem_of_findKind? hv)
  case some.some v s =>
    have hk := (kind_of_findKind? hv).trans (kind_of_findKind? hs).symm
    exact .inr (.inr ⟨v, mem_of_findKind? hv, s, mem_of_findKind? hs, hk, hfind.symm⟩)

/-- What is inside a merge is inside one side or merges what is inside both. -/
theorem inside_merge {a b t : Shape} (ha : Flat a.alternatives) (hb : Flat b.alternatives)
    (ht : Inside (merge a b) t) : Inside a t ∨ Inside b t ∨
      ∃ t₁ t₂, Inside a t₁ ∧ Inside b t₂ ∧ t = merge t₁ t₂ := by
  cases ht with
  | element hu =>
    rcases mem_alternatives_merge ha hb hu with hu | hu | ⟨v, hv, s, hs, hk, hvs⟩
    · exact .inl (.element hu)
    · exact .inr (.inl (.element hu))
    · obtain ⟨x, y, rfl, rfl, rfl⟩ := unite_eq_array hvs.symm hk
      rw [ArrayOf.element_merge]
      split
      · split
        · exact .inr (.inr ⟨_, _, .element hv, .element hs, rfl⟩)
        · exact .inr (.inl (.element hs))
      · exact .inl (.element hv)
  | field hu hf =>
    rcases mem_alternatives_merge ha hb hu with hu | hu | ⟨v, hv, s, hs, hk, hvs⟩
    · exact .inl (.field hu hf)
    · exact .inr (.inl (.field hu hf))
    · obtain ⟨x, y, rfl, rfl, rfl⟩ := unite_eq_object hvs.symm hk
      rcases ObjectOf.shape_of_mem_merge hf with ⟨g, hg, h⟩ | ⟨g, hg, h⟩ | ⟨g, hg, g', hg', h⟩
      · exact .inl (h ▸ .field hv hg)
      · exact .inr (.inl (h ▸ .field hs hg))
      · exact .inr (.inr ⟨_, _, .field hv hg, .field hs hg', h⟩)

theorem Inside.level_lt {s t : Shape} (h : Inside s t) : t.level < s.level := by
  cases h with
  | element ha =>
    have hle := level_le_iff_alternatives.mp (Nat.le_refl s.level) _ ha
    exact Nat.lt_of_succ_le hle
  | field ho hf =>
    have hle := level_le_iff_alternatives.mp (Nat.le_refl s.level) _ ho
    have hfs := levelOfFields_le.mp (Nat.le_refl _) _ hf
    exact Nat.lt_of_le_of_lt hfs (Nat.lt_of_succ_le hle)

theorem inside_induction {P : Shape → Prop} (step : ∀ s, (∀ t, Inside s t → P t) → P s)
    (s : Shape) : P s := by
  induction h : s.level using Nat.strongRecOn generalizing s with
  | _ n ih =>
    subst h
    exact step s fun t ht => ih t.level ht.level_lt t rfl

end Shape

end JsonShape
