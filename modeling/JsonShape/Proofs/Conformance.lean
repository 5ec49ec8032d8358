import JsonShape.Proofs.Values
import JsonShape.Proofs.WellFormed

/-!
# Merging keeps what was observed

`Conforms h size levels v s` says that the shape `s` describes the value `v` down to a number of
levels, as far as its sampled elements go. A value that conforms to a shape without collapsed
containers conforms to every merge of that shape, on either side (`conforms_merge`).
-/

namespace JsonShape

open Shape

/-- The value is described by the shape. With no levels left, only the length of a sequence counts,
and that a mapping is a mapping. -/
inductive Conforms (h : Heap) (size : Nat) : Nat → Value → Shape → Prop
  | scalar {levels : Nat} {v : Value} {name : String} (hk : h.view v = .scalar name) :
    Conforms h size levels v (.scalar name)
  | array {levels : Nat} {v : Value} {a : ArrayOf Shape} {items : Array Value}
    (hi : h.view v = .sequence items)
    (hl : a.extent.bounds.1 ≤ items.size ∧ (items.size : Int) ≤ a.extent.bounds.2)
    (hs : 0 < levels → ∀ w ∈ sampled items size, Conforms h size (levels - 1) w a.element) :
    Conforms h size levels v (.array a)
  | object {levels : Nat} {v : Value} {o : ObjectOf Shape} {entries : List (Scalar × Value)}
    (he : h.view v = .mapping entries)
    (hn : 0 < levels → ∀ name w, first? entries name = some w → name ∈ Field.names o.fields)
    (hs : 0 < levels → ∀ name w s, first? entries name = some w →
      Field.shape? o.fields name = some s → Conforms h size (levels - 1) w s) :
    Conforms h size levels v (.object o)
  | choice {levels : Nat} {v : Value} {vs : List Shape} {s : Shape} (hs : s ∈ vs)
    (hv : Conforms h size levels v s) : Conforms h size levels v (.choice vs)

section Conforms

variable {h : Heap} {size levels : Nat} {v : Value}

theorem exists_conforms_alternative {s : Shape} (hv : Conforms h size levels v s) :
    ∃ x ∈ s.alternatives, Conforms h size levels v x := by
  cases hv with
  | choice hs hv => exact ⟨_, hs, hv⟩
  | scalar hk => exact ⟨_, List.mem_singleton_self _, .scalar hk⟩
  | array hi hl hs => exact ⟨_, List.mem_singleton_self _, .array hi hl hs⟩
  | object he hn hs => exact ⟨_, List.mem_singleton_self _, .object he hn hs⟩

theorem conforms_ofAlternatives {vs : List Shape} {x : Shape} (hx : x ∈ vs)
    (hv : Conforms h size levels v x) : Conforms h size levels v (Shape.ofAlternatives vs) := by
  unfold Shape.ofAlternatives
  split
  · exact List.mem_singleton.mp hx ▸ hv
  · exact .choice hx hv

variable {m : Shape → Shape → Shape}

/-- The array that describes more. Without an element, an array that is not collapsed describes
empty sequences only, so that its element may give way to that of the other array. -/
theorem conforms_array_of_cover {a b : ArrayOf Shape} (ha : a.collapsed = false)
    (hv : Conforms h size levels v (.array a))
    (hl : b.extent.bounds.1 ≤ a.extent.bounds.1 ∧ a.extent.bounds.2 ≤ b.extent.bounds.2)
    (hs : ∀ levels w, a.hasElement = true → Conforms h size levels w a.element →
      Conforms h size levels w b.element) :
    Conforms h size levels v (.array b) := by
  cases hv with
  | array hi hla hsa =>
    rename_i items
    refine .array hi ⟨by omega, by omega⟩ fun hlev w hw => ?_
    cases hA : a.hasElement with
    | true => exact hs _ w hA (hsa hlev w hw)
    | false =>
      have hmax : a.extent.bounds.2 = 0 := by
        by_contra hne
        rw [ArrayOf.hasElement_eq_true_iff.mpr ⟨hne, ha⟩] at hA
        cases hA
      have hempty : sampled items size = [] := sampled_eq_nil_iff.mpr (.inl (by omega))
      rw [hempty] at hw
      cases hw

theorem conforms_object_of_cover {a b : ObjectOf Shape}
    (hv : Conforms h size levels v (.object a))
    (hs : ∀ name s, Field.shape? a.fields name = some s → ∃ t, Field.shape? b.fields name = some t ∧
      ∀ levels w, Conforms h size levels w s → Conforms h size levels w t) :
    Conforms h size levels v (.object b) := by
  cases hv with
  | object he hn hsa =>
    refine .object he (fun hlev name w hw => ?_) fun hlev name w t hw ht => ?_
    · obtain ⟨s, hsn⟩ := Field.exists_shape?_of_mem_names (hn hlev name w hw)
      obtain ⟨t, ht, -⟩ := hs name s hsn
      exact Field.mem_names_of_shape? ht
    · obtain ⟨s, hsn⟩ := Field.exists_shape?_of_mem_names (hn hlev name w hw)
      obtain ⟨t', ht', himp⟩ := hs name s hsn
      cases ht.symm.trans ht'
      exact himp _ w (hsa hlev name w s hw hsn)

/-! ## Uniting two alternatives -/

theorem hull_covers_left (e e' : Extent) :
    (e.hull e').bounds.1 ≤ e.bounds.1 ∧ e.bounds.2 ≤ (e.hull e').bounds.2 :=
  ⟨Int.min_le_left _ _, Int.le_max_left _ _⟩

theorem hull_covers_right (e e' : Extent) :
    (e.hull e').bounds.1 ≤ e'.bounds.1 ∧ e'.bounds.2 ≤ (e.hull e').bounds.2 :=
  ⟨Int.min_le_right _ _, Int.le_max_right _ _⟩

theorem conforms_unite_left {x y : Shape} (hx : x.Uncollapsed) (hv : Conforms h size levels v x)
    (hm : ∀ t t', Inside x t → Inside y t' → ∀ levels w, Conforms h size levels w t →
      Conforms h size levels w (m t t')) :
    Conforms h size levels v (unite m x y) := by
  cases x <;> cases y <;> try exact hv
  case array.array a b =>
    apply conforms_array_of_cover hx hv (hull_covers_left _ _)
    intro levels w hA hw
    rw [ArrayOf.element_merge, hA]
    split
    · exact hm _ _ (.element List.mem_cons_self) (.element List.mem_cons_self) levels w hw
    · exact hw
  case object.object a b =>
    apply conforms_object_of_cover hv
    intro name s hs
    obtain ⟨f, hf, -, rfl⟩ := Field.exists_of_shape? hs
    rw [ObjectOf.shape?_merge, hs]
    cases hb : Field.shape? b.fields name with
    | none => exact ⟨_, rfl, fun _ _ hw => hw⟩
    | some t =>
      obtain ⟨g, hg, -, rfl⟩ := Field.exists_of_shape? hb
      exact ⟨_, rfl, hm _ _ (.field List.mem_cons_self hf) (.field List.mem_cons_self hg)⟩

theorem conforms_unite_right {x y : Shape} (hx : x.Uncollapsed) (hv : Conforms h size levels v x)
    (hk : x.kind = y.kind) (hc : x.kind ≠ .choice)
    (hm : ∀ t t', Inside x t → Inside y t' → ∀ levels w, Conforms h size levels w t →
      Conforms h size levels w (m t' t)) :
    Conforms h size levels v (unite m y x) := by
  cases x <;> cases y <;> try cases hk
  case scalar.scalar => exact hv
  case array.array a b =>
    apply conforms_array_of_cover hx hv (hull_covers_right _ _)
    intro levels w hA hw
    rw [ArrayOf.element_merge, hA]
    split
    · split
      · exact hm _ _ (.element List.mem_cons_self) (.element List.mem_cons_self) levels w hw
      · exact hw
    · contradiction
  case object.object a b =>
    apply conforms_object_of_cover hv
    intro name s hs
    obtain ⟨f, hf, -, rfl⟩ := Field.exists_of_shape? hs
    rw [ObjectOf.shape?_merge, hs]
    cases hb : Field.shape? b.fields name with
    | none => exact ⟨_, rfl, fun _ _ hw => hw⟩
    | some t =>
      obtain ⟨g, hg, -, rfl⟩ := Field.exists_of_shape? hb
      exact ⟨_, rfl, hm _ _ (.field List.mem_cons_self hf) (.field List.mem_cons_self hg)⟩
  case choice.choice => exact absurd rfl hc

end Conforms

/-! ## Merging -/

/-- **Merging is sound.**  A value that conforms to a shape without collapsed containers conforms to
the merges of this shape with any other, on either side. -/
theorem conforms_merge (h : Heap) (size : Nat) {a b : Shape} (ha : a.WellFormed) (hb : b.WellFormed)
    (hac : Everywhere Uncollapsed a) {levels : Nat} {v : Value} (hv : Conforms h size levels v a) :
    Conforms h size levels v (merge a b) ∧ Conforms h size levels v (merge b a) := by
  induction a using inside_induction generalizing b levels v with
  | step a ih =>
    obtain ⟨x, hxa, hvx⟩ := exists_conforms_alternative hv
    have hx := ha.flat.findKind?_kind hxa
    have hxk := ha.flat.kind_ne_choice hxa
    have hxc := (hac.alternative hxa).self
    rw [merge_eq_ofAlternatives a b, merge_eq_ofAlternatives b a]
    cases hy : findKind? b.alternatives x.kind with
    | none =>
      have hab : findKind? (united a b) x.kind = some x := by
        rw [findKind?_united ha.flat hb.flat, hx, hy, Option.merge_none_right]
      have hba : findKind? (united b a) x.kind = some x := by
        rw [findKind?_united hb.flat ha.flat, hx, hy, Option.merge_none_left]
      exact ⟨conforms_ofAlternatives (mem_of_findKind? hab) hvx,
        conforms_ofAlternatives (mem_of_findKind? hba) hvx⟩
    | some y =>
      have hyb := mem_of_findKind? hy
      have hab : findKind? (united a b) x.kind = some (unite merge x y) := by
        rw [findKind?_united ha.flat hb.flat, hx, hy, Option.merge_some_some]
      have hba : findKind? (united b a) x.kind = some (unite merge y x) := by
        rw [findKind?_united hb.flat ha.flat, hx, hy, Option.merge_some_some]
      have hm : ∀ t t', Inside x t → Inside y t' → ∀ levels w, Conforms h size levels w t →
          Conforms h size levels w (merge t t') ∧ Conforms h size levels w (merge t' t) := by
        intro t t' ht ht' levels w hw
        have hta := ha.flat.inside hxa ht
        have htb := hb.flat.inside hyb ht'
        exact ih t hta (ha.inside hta) (hb.inside htb) (hac.inside hta) hw
      constructor
      · apply conforms_ofAlternatives (mem_of_findKind? hab)
        exact conforms_unite_left hxc hvx fun t t' ht ht' levels w hw =>
          (hm t t' ht ht' levels w hw).1
      · apply conforms_ofAlternatives (mem_of_findKind? hba)
        exact conforms_unite_right hxc hvx (kind_of_findKind? hy).symm hxk
          fun t t' ht ht' levels w hw => (hm t t' ht ht' levels w hw).2

/-- The other shape may be collapsed, and then its element gives way. -/
theorem conforms_merge_collapsed :
    let h : Heap := #[.sequence "list" #[.scalar (.int 1)]]
    let a := Shape.array ⟨.exact 1, .number, false⟩
    let b := Shape.choice [.string, .array ⟨.exact 2, .null, true⟩]
    Conforms h 1 1 (.node 0) (merge a b) ∧ Conforms h 1 1 (.node 0) (merge b a) := by
  intro h a b
  have hv : Conforms h 1 1 (.node 0) a := by
    have hview : h.view (.node 0) = .sequence #[.scalar (.int 1)] := rfl
    refine .array hview (by decide) fun _ w hw => ?_
    rw [List.mem_singleton.mp hw]
    exact .scalar rfl
  exact conforms_merge h 1 (by decide) (by decide) (by decide) hv

end JsonShape
