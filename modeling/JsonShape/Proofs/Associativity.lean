import JsonShape.Proofs.Required
import JsonShape.Shape.Compare

/-!
# Merging is associative up to optional keys

* `required_merge_assoc`: both ways to merge three shapes agree in everything except which keys are
  optional: order of keys and alternatives, extents, marks, and elements that only hold a place;
* `required_merged`: so do all ways to bracket the merge of a list of shapes.

Which keys are optional does depend on the bracketing. A key that only the first of three objects
lacks is optional once that object is merged with the second, and required again after the third;
but it stays optional when the second and the third are merged first.
-/

namespace JsonShape

theorem Extent.hull_assoc (a b c : Extent) : (a.hull b).hull c = a.hull (b.hull c) := by
  simp only [hull, bounds_range, Int.min_assoc, Int.max_assoc]

namespace Shape

section Assoc

variable {m : Shape → Shape → Shape}

theorem required_array_merge_assoc {a b c : ArrayOf Shape} (ha : 0 ≤ a.extent.bounds.2)
    (hb : 0 ≤ b.extent.bounds.2) (hc : 0 ≤ c.extent.bounds.2)
    (hm : (m (m a.element b.element) c.element).required =
      (m a.element (m b.element c.element)).required) :
    (array ((a.merge m b).merge m c)).required = (array (a.merge m (b.merge m c))).required := by
  have hab := ArrayOf.hasElement_merge (m := m) ha hb
  have hbc := ArrayOf.hasElement_merge (m := m) hb hc
  refine required_array_eq (Extent.hull_assoc _ _ _) ?_ ?_
  · simp only [ArrayOf.element_merge, hab, hbc]
    cases a.hasElement <;> cases b.hasElement <;> cases c.hasElement <;> simp [hm]
  · simp only [ArrayOf.collapsed_merge, hab, hbc]
    cases a.hasElement <;> cases b.hasElement <;> cases c.hasElement <;> simp [Bool.or_assoc]

theorem required_object_merge_assoc {a b c : ObjectOf Shape} (ha : (Field.names a.fields).Nodup)
    (hb : (Field.names b.fields).Nodup) (hc : (Field.names c.fields).Nodup)
    (hm : ∀ f ∈ a.fields, ∀ g ∈ b.fields, ∀ h ∈ c.fields,
      (m (m f.shape g.shape) h.shape).required = (m f.shape (m g.shape h.shape)).required) :
    (object ((a.merge m b).merge m c)).required = (object (a.merge m (b.merge m c))).required := by
  refine required_object_eq ?_ ?_ (fun name s t hs ht => ?_) ?_
  · simp only [ObjectOf.names_merge_eq_union, Keyed.union_assoc]
  · simp only [ObjectOf.names_merge_eq_union]
    exact Keyed.nodup_union (Keyed.nodup_union ha hb) hc
  · rw [ObjectOf.shape?_merge, ObjectOf.shape?_merge] at hs ht
    refine Keyed.rel_merge_assoc (R := fun s t => s.required = t.required) hs ht (fun _ => rfl)
      fun s t u hs ht hu => ?_
    obtain ⟨f, hf, -, rfl⟩ := Field.exists_of_shape? hs
    obtain ⟨g, hg, -, rfl⟩ := Field.exists_of_shape? ht
    obtain ⟨h, hh, -, rfl⟩ := Field.exists_of_shape? hu
    exact hm f hf g hg h hh
  · simp only [ObjectOf.collapsed_merge, ObjectOf.isEmpty_fields_merge]
    cases a.fields.isEmpty <;> cases b.fields.isEmpty <;> cases c.fields.isEmpty <;>
      simp [Bool.or_assoc]

theorem required_unite_assoc {u v w : Shape} (hu : u.WellFormed) (hv : v.WellFormed)
    (hw : w.WellFormed) (huv : u.kind = v.kind) (hvw : v.kind = w.kind)
    (hm : ∀ s t r, Inside u s → Inside v t → Inside w r →
      (m (m s t) r).required = (m s (m t r)).required) :
    (unite m (unite m u v) w).required = (unite m u (unite m v w)).required := by
  cases u <;> cases v <;> cases w <;> try cases huv <;> cases hvw
  case scalar.scalar.scalar => rfl
  case array.array.array a b c =>
    exact required_array_merge_assoc hu.self.2 hv.self.2 hw.self.2
      (hm _ _ _ (.element List.mem_cons_self) (.element List.mem_cons_self)
        (.element List.mem_cons_self))
  case object.object.object a b c =>
    apply required_object_merge_assoc hu.self.1 hv.self.1 hw.self.1
    intro f hf g hg h hh
    exact hm _ _ _ (.field List.mem_cons_self hf) (.field List.mem_cons_self hg)
      (.field List.mem_cons_self hh)
  case choice.choice.choice => rfl

end Assoc

theorem required_merge_assoc {a b c : Shape} (ha : a.WellFormed) (hb : b.WellFormed)
    (hc : c.WellFormed) : (merge (merge a b) c).required = (merge a (merge b c)).required := by
  induction a using inside_induction generalizing b c with
  | step a ih =>
    have hab := wellFormed_merge ha hb
    have hbc := wellFormed_merge hb hc
    rw [merge_eq_ofAlternatives _ c, merge_eq_ofAlternatives a (merge b c)]
    refine required_ofAlternatives_eq ?_ (flat_united hab.flat hc.flat) fun k v w hv hw => ?_
    · rw [kinds_united hab.flat hc.flat, kinds_merge ha.flat hb.flat, Keyed.union_assoc,
        kinds_united ha.flat hbc.flat, kinds_merge hb.flat hc.flat]
    · rw [findKind?_united hab.flat hc.flat, findKind?_merge ha.flat hb.flat] at hv
      rw [findKind?_united ha.flat hbc.flat, findKind?_merge hb.flat hc.flat] at hw
      refine Keyed.rel_merge_assoc (R := fun v w => v.required = w.required) hv hw (fun _ => rfl)
        fun x y z hx hy hz => ?_
      have hxa := mem_of_findKind? hx
      have hyb := mem_of_findKind? hy
      have hzc := mem_of_findKind? hz
      have hxy : x.kind = y.kind := (kind_of_findKind? hx).trans (kind_of_findKind? hy).symm
      have hyz : y.kind = z.kind := (kind_of_findKind? hy).trans (kind_of_findKind? hz).symm
      refine required_unite_assoc (ha.alternative hxa) (hb.alternative hyb) (hc.alternative hzc)
        hxy hyz fun s t r hs ht hr => ?_
      have hsa := ha.flat.inside hxa hs
      have htb := hb.flat.inside hyb ht
      have hrc := hc.flat.inside hzc hr
      exact ih s hsa (ha.inside hsa) (hb.inside htb) (hc.inside hrc)

/-! ## Bracketings -/

/-- A way to bracket the merge of the shapes at the leaves. -/
inductive Bracketing where
  | leaf (s : Shape)
  | pair (left right : Bracketing)

namespace Bracketing

def leaves : Bracketing → List Shape
  | leaf s => [s]
  | pair left right => left.leaves ++ right.leaves

def merged : Bracketing → Shape
  | leaf s => s
  | pair left right => merge left.merged right.merged

theorem wellFormed_merged {t : Bracketing} (h : ∀ s ∈ t.leaves, s.WellFormed) :
    t.merged.WellFormed := by
  induction t with
  | leaf s => exact h s (List.mem_singleton_self s)
  | pair left right ihl ihr =>
    obtain ⟨hl, hr⟩ := List.forall_mem_append.mp h
    exact wellFormed_merge (ihl hl) (ihr hr)

end Bracketing

theorem required_foldl_merge_congr {ss : List Shape} {s s' : Shape} (hs : s.WellFormed)
    (hs' : s'.WellFormed) (hss : ∀ t ∈ ss, t.WellFormed) (h : s.required = s'.required) :
    (ss.foldl merge s).required = (ss.foldl merge s').required := by
  induction ss generalizing s s' with
  | nil => exact h
  | cons t ss ih =>
    obtain ⟨ht, hss⟩ := List.forall_mem_cons.mp hss
    exact ih (wellFormed_merge hs ht) (wellFormed_merge hs' ht) hss
      (required_merge_congr hs hs' ht ht h rfl)

/-- The accumulated shape can take in a bracketing as a whole or leaf by leaf. -/
theorem required_merge_merged {s : Shape} (hs : s.WellFormed) {t : Bracketing}
    (ht : ∀ r ∈ t.leaves, r.WellFormed) :
    (merge s t.merged).required = (t.leaves.foldl merge s).required := by
  induction t generalizing s with
  | leaf r => rfl
  | pair left right ihl ihr =>
    obtain ⟨hl, hr⟩ := List.forall_mem_append.mp ht
    have hlw := Bracketing.wellFormed_merged hl
    have hrw := Bracketing.wellFormed_merged hr
    have hsl := wellFormed_merge hs hlw
    calc (merge s (merge left.merged right.merged)).required
        = (merge (merge s left.merged) right.merged).required :=
          (required_merge_assoc hs hlw hrw).symm
      _ = (right.leaves.foldl merge (merge s left.merged)).required := ihr hsl hr
      _ = (right.leaves.foldl merge (left.leaves.foldl merge s)).required :=
          required_foldl_merge_congr hsl (wellFormed_foldl_merge hs hl) hr (ihl hs hl)
      _ = ((left.leaves ++ right.leaves).foldl merge s).required := by rw [List.foldl_append]

theorem mergeAll_append {ss ts : List Shape} {s : Shape} (h : mergeAll ss = .ok s) :
    mergeAll (ss ++ ts) = .ok (ts.foldl merge s) := by
  cases ss with
  | nil => cases h
  | cons r ss =>
    cases h
    rw [List.cons_append, mergeAll, List.foldl_append]

theorem wellFormed_mergeAll {ss : List Shape} {s : Shape} (hss : ∀ r ∈ ss, r.WellFormed)
    (h : mergeAll ss = .ok s) : s.WellFormed := by
  cases ss with
  | nil => cases h
  | cons r ss =>
    cases h
    obtain ⟨hr, hss⟩ := List.forall_mem_cons.mp hss
    exact wellFormed_foldl_merge hr hss

theorem required_merged {t : Bracketing} (ht : ∀ s ∈ t.leaves, s.WellFormed) :
    ∃ s, mergeAll t.leaves = .ok s ∧ t.merged.required = s.required := by
  induction t with
  | leaf s => exact ⟨s, rfl, rfl⟩
  | pair left right ihl _ =>
    obtain ⟨hl, hr⟩ := List.forall_mem_append.mp ht
    obtain ⟨s, hs, hls⟩ := ihl hl
    have hlw := Bracketing.wellFormed_merged hl
    refine ⟨_, mergeAll_append hs, ?_⟩
    calc (merge left.merged right.merged).required
        = (right.leaves.foldl merge left.merged).required := required_merge_merged hlw hr
      _ = (right.leaves.foldl merge s).required :=
          required_foldl_merge_congr hlw (wellFormed_mergeAll hl hs) hr hls

/-- **Merging is associative up to optional keys.**  Three well-formed shapes merge to the same
shape in both ways, and every bracketing of well-formed shapes merges to what merging them from the
left gives, except for which keys are optional. -/
theorem bracketings_agree :
    (∀ a b c : Shape, a.WellFormed → b.WellFormed → c.WellFormed →
      (merge (merge a b) c).required = (merge a (merge b c)).required) ∧
    ∀ t : Bracketing, (∀ s ∈ t.leaves, s.WellFormed) →
      ∃ s, mergeAll t.leaves = .ok s ∧ t.merged.required = s.required :=
  ⟨fun _ _ _ => required_merge_assoc, fun _ => required_merged⟩

/-- The two ways to merge differ in whether the key is optional, and in nothing else. -/
theorem bracketings_agree_missingKey :
    let a := Shape.object ⟨[], false⟩
    let b := Shape.object ⟨[⟨"k", .array ⟨.exact 0, .null, false⟩, false⟩], false⟩
    let c := Shape.choice [.null,
      .object ⟨[⟨"k", .array ⟨.exact 2, .number, false⟩, false⟩], false⟩]
    same (merge (merge a b) c) (merge a (merge b c)) = false ∧
      (merge (merge a b) c).required = (merge a (merge b c)).required ∧
      ∃ s, mergeAll [a, b, c] = .ok s ∧ (merge a (merge b c)).required = s.required := by
  intro a b c
  have ha : a.WellFormed := by decide
  have hb : b.WellFormed := by decide
  have hc : c.WellFormed := by decide
  refine ⟨by decide, bracketings_agree.1 a b c ha hb hc, ?_⟩
  refine bracketings_agree.2 (.pair (.leaf a) (.pair (.leaf b) (.leaf c))) ?_
  simp [Bracketing.leaves, ha, hb, hc]

end Shape

end JsonShape
