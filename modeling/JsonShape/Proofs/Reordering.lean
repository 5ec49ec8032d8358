import JsonShape.Proofs.WellFormed
import JsonShape.Shape.Compare

/-!
# Merging is commutative up to order

`Reordered s t` says that `s` and `t` become the same shape when keys and alternatives are
reordered, at every level: all extents, marks, optional keys and elements agree.

* `similar_of_reordered`: shapes that differ only in order have the same structure;
* `reordered_merge_comm`: merging in the other order changes only the order, if arrays without an
  element to describe hold their place with `null`.
-/

namespace JsonShape.Shape

mutual

/-- The shapes agree after reordering keys and alternatives at every level. -/
def Reordered : Shape → Shape → Prop
  | .scalar a, .scalar b => a = b
  | .array a, .array b =>
    a.extent = b.extent ∧ a.collapsed = b.collapsed ∧ Reordered a.element b.element
  | .object a, .object b =>
    a.collapsed = b.collapsed ∧ ∃ fs, fs.Perm b.fields ∧ ReorderedFields a.fields fs
  | .choice vs, .choice ws => ∃ us, us.Perm ws ∧ ReorderedAlternatives vs us
  | _, _ => False

/-- Position by position, the keys agree and their shapes do after reordering. -/
def ReorderedFields : List (Field Shape) → List (Field Shape) → Prop
  | [], [] => True
  | f :: fs, g :: gs =>
    (f.name = g.name ∧ f.isOptional = g.isOptional ∧ Reordered f.shape g.shape) ∧
      ReorderedFields fs gs
  | _, _ => False

/-- Position by position, the alternatives agree after reordering. -/
def ReorderedAlternatives : List Shape → List Shape → Prop
  | [], [] => True
  | v :: vs, w :: ws => Reordered v w ∧ ReorderedAlternatives vs ws
  | _, _ => False

end

theorem reorderedFields_iff_forall₂ {fs gs : List (Field Shape)} :
    ReorderedFields fs gs ↔ List.Forall₂ (fun f g => f.name = g.name ∧
      f.isOptional = g.isOptional ∧ Reordered f.shape g.shape) fs gs := by
  induction fs generalizing gs with
  | nil => cases gs <;> simp [ReorderedFields]
  | cons f fs ih => cases gs <;> simp [ReorderedFields, ih]

theorem reorderedAlternatives_iff_forall₂ {vs ws : List Shape} :
    ReorderedAlternatives vs ws ↔ List.Forall₂ Reordered vs ws := by
  induction vs generalizing ws with
  | nil => cases ws <;> simp [ReorderedAlternatives]
  | cons v vs ih => cases ws <;> simp [ReorderedAlternatives, ih]

theorem reordered_refl (s : Shape) : Reordered s s := by
  induction s using Shape.induction with
  | scalar name => rfl
  | array a ih => exact ⟨rfl, rfl, ih⟩
  | object o ih =>
    refine ⟨rfl, o.fields, .refl _, ?_⟩
    rw [reorderedFields_iff_forall₂, List.forall₂_same]
    exact fun f hf => ⟨rfl, rfl, ih f hf⟩
  | choice vs ih =>
    refine ⟨vs, .refl _, ?_⟩
    rw [reorderedAlternatives_iff_forall₂, List.forall₂_same]
    exact ih

/-! ## Order and structure -/

theorem exists_mem_of_forall₂ {α : Type} {R : α → α → Prop} {l l' : List α}
    (h : List.Forall₂ R l l') {x : α} (hx : x ∈ l) : ∃ y ∈ l', R x y := by
  induction h with
  | nil => cases hx
  | cons hab _ ih =>
    rcases List.mem_cons.mp hx with rfl | hx
    · exact ⟨_, List.mem_cons_self, hab⟩
    · obtain ⟨y, hy, hR⟩ := ih hx
      exact ⟨y, List.mem_cons_of_mem _ hy, hR⟩

theorem sameNames_of_perm {fs gs : List (Field Shape)}
    (h : (Field.names fs).Perm (Field.names gs)) : Field.sameNames fs gs = true := by
  simp only [Field.sameNames, Bool.and_eq_true, List.all_eq_true, decide_eq_true_eq]
  exact ⟨fun name hname => h.mem_iff.mp hname, fun name hname => h.mem_iff.mpr hname⟩

theorem similar_of_reordered {s t : Shape} (ht : t.WellFormed) (h : Reordered s t) :
    similar s t = true := by
  induction s using Shape.induction generalizing t with
  | scalar name =>
    cases t with
    | scalar name' => simpa [similar, Reordered] using h
    | _ => cases h
  | array a ih =>
    cases t with
    | array b =>
      rw [similar]
      exact ih (everywhere_array.mp ht).2 h.2.2
    | _ => cases h
  | object a ih =>
    cases t with
    | object b =>
      obtain ⟨hn, hfs⟩ := everywhere_object.mp ht
      obtain ⟨-, fs, hp, hall⟩ := h
      rw [reorderedFields_iff_forall₂] at hall
      have hnames : Field.names a.fields = Field.names fs := by
        rw [Field.names, Field.names, ← List.forall₂_eq_eq_eq, List.forall₂_map_left_iff,
          List.forall₂_map_right_iff]
        exact hall.imp fun _ _ hfg => hfg.1
      rw [similar, Bool.and_eq_true, similarFields_eq_true_iff]
      refine ⟨sameNames_of_perm (hnames ▸ hp.map _), fun f hf => ?_⟩
      obtain ⟨g, hg, hname, -, hR⟩ := exists_mem_of_forall₂ hall hf
      have hgb := hp.mem_iff.mp hg
      have hfind : Field.find? b.fields f.name = some g :=
        (Keyed.find?_eq_some_iff hn.1).mpr ⟨hgb, hname.symm⟩
      exact ⟨g, hfind, ih f hf (hfs g hgb) hR⟩
    | _ => cases h
  | choice vs ih =>
    cases t with
    | choice ws =>
      obtain ⟨us, hp, hall⟩ := h
      rw [reorderedAlternatives_iff_forall₂] at hall
      rw [similar, Bool.and_eq_true, beq_iff_eq, similarAlternatives_eq_true_iff]
      refine ⟨hall.length_eq.trans hp.length_eq, fun v hv => ?_⟩
      obtain ⟨w, hw, hR⟩ := exists_mem_of_forall₂ hall hv
      have hw := hp.mem_iff.mp hw
      exact ⟨w, hw, ih v hv ((everywhere_choice.mp ht).2 w hw) hR⟩
    | _ => cases h

/-! ## Commutativity -/

theorem reordered_ofAlternatives {vs ws : List Shape} (hk : (kinds vs).Perm (kinds ws))
    (hvs : Flat vs)
    (h : ∀ k v w, findKind? vs k = some v → findKind? ws k = some w → Reordered v w) :
    Reordered (ofAlternatives vs) (ofAlternatives ws) := by
  obtain ⟨us, hp, hall⟩ := Keyed.exists_perm_forall₂ hk hvs.1 h
  match vs, us, hall with
  | [], [], _ =>
    obtain rfl := List.nil_perm.mp hp
    exact reordered_refl _
  | [v], [u], .cons hvu _ =>
    obtain rfl := List.singleton_perm.mp hp
    exact hvu
  | v :: v' :: vs, u :: u' :: us, hall =>
    match ws, hp.length_eq with
    | w :: w' :: ws, _ => exact ⟨_, hp, reorderedAlternatives_iff_forall₂.mpr hall⟩

instance (s : Shape) : Decidable (s = null) :=
  match s with
  | .scalar name => decidable_of_iff (name = "null") (by simp [null])
  | .array _ => .isFalse nofun
  | .object _ => .isFalse nofun
  | .choice _ => .isFalse nofun

/-- Where no element is described, `null` holds its place. -/
def NullPlaceholder : Shape → Prop
  | .array a => a.hasElement = false → a.element = null
  | _ => True

instance : DecidablePred NullPlaceholder
  | .array a => inferInstanceAs (Decidable (a.hasElement = false → a.element = null))
  | .scalar _ => inferInstanceAs (Decidable True)
  | .object _ => inferInstanceAs (Decidable True)
  | .choice _ => inferInstanceAs (Decidable True)

section Comm

variable {m : Shape → Shape → Shape}

theorem reordered_array_merge_comm {a b : ArrayOf Shape} (ha : NullPlaceholder (.array a))
    (hb : NullPlaceholder (.array b))
    (hm : Reordered (m a.element b.element) (m b.element a.element)) :
    Reordered (.array (a.merge m b)) (.array (b.merge m a)) := by
  refine ⟨?_, ?_, ?_⟩
  · simp only [ArrayOf.extent_merge, Extent.hull, Int.min_comm, Int.max_comm]
  · simp only [ArrayOf.collapsed_merge, Bool.and_comm, Bool.or_comm]
  · simp only [ArrayOf.element_merge]
    cases hA : a.hasElement <;> cases hB : b.hasElement
    · simp only [ha hA, hb hB]
      exact reordered_refl _
    · exact reordered_refl _
    · exact reordered_refl _
    · exact hm

theorem reordered_object_merge_comm {a b : ObjectOf Shape} (ha : (Field.names a.fields).Nodup)
    (hb : (Field.names b.fields).Nodup)
    (hm : ∀ f ∈ a.fields, ∀ g ∈ b.fields, Reordered (m f.shape g.shape) (m g.shape f.shape)) :
    Reordered (.object (a.merge m b)) (.object (b.merge m a)) := by
  have hn : (Field.names (a.merge m b).fields).Nodup := by
    rw [ObjectOf.names_merge_eq_union]
    exact Keyed.nodup_union ha hb
  have hp : (Field.names (a.merge m b).fields).Perm (Field.names (b.merge m a).fields) := by
    rw [ObjectOf.names_merge_eq_union, ObjectOf.names_merge_eq_union]
    exact Keyed.union_perm_comm ha hb
  constructor
  · rw [ObjectOf.collapsed_merge, ObjectOf.collapsed_merge, Bool.or_comm,
      Bool.and_comm a.fields.isEmpty]
  · simp only [reorderedFields_iff_forall₂]
    apply Keyed.exists_perm_forall₂ hp hn
    intro name f g hf hg
    change Field.find? (a.merge m b).fields name = some f at hf
    change Field.find? (b.merge m a).fields name = some g at hg
    rw [ObjectOf.find?_merge] at hf hg
    cases hA : Field.find? a.fields name with
    | none =>
      cases hB : Field.find? b.fields name with
      | none => simp [hA, hB] at hf
      | some y =>
        simp only [hA, hB, Field.name_of_find? hB, Field.mergeInto, Option.map_some,
          Option.some.injEq] at hf hg
        subst hf hg
        exact ⟨rfl, rfl, reordered_refl _⟩
    | some x =>
      cases hB : Field.find? b.fields name with
      | none =>
        simp only [hA, hB, Field.name_of_find? hA, Field.mergeInto, Option.map_some,
          Option.some.injEq] at hf hg
        subst hf hg
        exact ⟨rfl, rfl, reordered_refl _⟩
      | some y =>
        have hx := Field.name_of_find? hA
        have hy := Field.name_of_find? hB
        simp only [hA, hB, hx, hy, Field.mergeInto, Option.some.injEq] at hf hg
        subst hf hg
        exact ⟨rfl, Bool.and_comm _ _, hm x (Field.mem_of_find? hA) y (Field.mem_of_find? hB)⟩

theorem reordered_unite_comm {v s : Shape} (hv : v.WellFormed) (hs : s.WellFormed)
    (hvp : NullPlaceholder v) (hsp : NullPlaceholder s) (hk : v.kind = s.kind)
    (hc : v.kind ≠ .choice)
    (hm : ∀ t t', Inside v t → Inside s t' → Reordered (m t t') (m t' t)) :
    Reordered (unite m v s) (unite m s v) := by
  cases v <;> cases s <;> try cases hk
  case scalar.scalar => exact reordered_refl _
  case array.array a b =>
    exact reordered_array_merge_comm hvp hsp (hm _ _ (.element List.mem_cons_self)
      (.element List.mem_cons_self))
  case object.object a b =>
    apply reordered_object_merge_comm hv.self.1 hs.self.1
    intro f hf g hg
    exact hm _ _ (.field List.mem_cons_self hf) (.field List.mem_cons_self hg)
  case choice.choice => exact absurd rfl hc

end Comm

theorem reordered_merge_comm {a b : Shape} (ha : a.WellFormed) (hb : b.WellFormed)
    (hap : Everywhere NullPlaceholder a) (hbp : Everywhere NullPlaceholder b) :
    Reordered (merge a b) (merge b a) := by
  induction a using inside_induction generalizing b with
  | step a ih =>
    rw [merge_eq_ofAlternatives a b, merge_eq_ofAlternatives b a]
    refine reordered_ofAlternatives ?_ (flat_united ha.flat hb.flat) fun k v w hv hw => ?_
    · rw [kinds_united ha.flat hb.flat, kinds_united hb.flat ha.flat]
      exact Keyed.union_perm_comm ha.flat.1 hb.flat.1
    · rw [findKind?_united ha.flat hb.flat] at hv
      rw [findKind?_united hb.flat ha.flat] at hw
      refine Keyed.rel_merge_comm hv hw reordered_refl fun x y hx hy => ?_
      have hxa := mem_of_findKind? hx
      have hyb := mem_of_findKind? hy
      have hxk := ha.flat.kind_ne_choice hxa
      have hxy : x.kind = y.kind := (kind_of_findKind? hx).trans (kind_of_findKind? hy).symm
      refine reordered_unite_comm (ha.alternative hxa) (hb.alternative hyb)
        (hap.alternative hxa).self (hbp.alternative hyb).self hxy hxk fun t t' ht ht' => ?_
      have hta := ha.flat.inside hxa ht
      have htb := hb.flat.inside hyb ht'
      exact ih t hta (ha.inside hta) (hb.inside htb) (hap.inside hta) (hbp.inside htb)

/-- **Merging is commutative up to order.**  For well-formed shapes in which `null` holds the place
of elements, merging in the other order gives the same shape after reordering keys and alternatives,
and so one of the same structure. -/
theorem merge_comm_upToOrder (a b : Shape) (ha : a.WellFormed) (hb : b.WellFormed)
    (hap : Everywhere NullPlaceholder a) (hbp : Everywhere NullPlaceholder b) :
    Reordered (merge a b) (merge b a) ∧ similar (merge a b) (merge b a) = true ∧
      similar (merge b a) (merge a b) = true := by
  have hab := reordered_merge_comm ha hb hap hbp
  have hba := reordered_merge_comm hb ha hbp hap
  exact ⟨hab, similar_of_reordered (wellFormed_merge hb ha) hab,
    similar_of_reordered (wellFormed_merge ha hb) hba⟩

/-- The keys and the alternatives under them come in another order. -/
theorem merge_comm_upToOrder_keys :
    let a := Shape.object
      ⟨[⟨"k", .array ⟨.exact 0, .null, true⟩, false⟩, ⟨"l", .null, false⟩], false⟩
    let b := Shape.object
      ⟨[⟨"l", .choice [.string, .array ⟨.exact 1, .number, false⟩], false⟩], false⟩
    same (merge a b) (merge b a) = false ∧
      Reordered (merge a b) (merge b a) ∧ similar (merge a b) (merge b a) = true ∧
      similar (merge b a) (merge a b) = true := by
  intro a b
  exact ⟨by decide, merge_comm_upToOrder a b (by decide) (by decide) (by decide) (by decide)⟩

end JsonShape.Shape
