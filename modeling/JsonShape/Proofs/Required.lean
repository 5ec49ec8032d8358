import JsonShape.Proofs.Commuting

/-!
# Shapes up to optional keys

`required` makes every key of a shape required, so `s.required = t.required` says that two shapes
differ at most in which keys are optional.

* `required_ofAlternatives_eq`, `required_object_eq`: for this it suffices to compare kind by kind
  and name by name;
* `required_merge`: which keys of `a` and `b` are optional matters for nothing else in their merge.
-/

namespace JsonShape.Shape

mutual

/-- The shape with every key required. -/
def required : Shape → Shape
  | .scalar name => .scalar name
  | .array a => .array ⟨a.extent, required a.element, a.collapsed⟩
  | .object o => .object ⟨requiredFields o.fields, o.collapsed⟩
  | .choice vs => .choice (requiredAlternatives vs)

def requiredFields : List (Field Shape) → List (Field Shape)
  | [] => []
  | f :: fs => ⟨f.name, required f.shape, false⟩ :: requiredFields fs

def requiredAlternatives : List Shape → List Shape
  | [] => []
  | v :: vs => required v :: requiredAlternatives vs

end

theorem requiredFields_eq_map (fs : List (Field Shape)) :
    requiredFields fs = fs.map fun f => ⟨f.name, f.shape.required, false⟩ := by
  induction fs with
  | nil => rfl
  | cons f fs ih => simp [requiredFields, ih]

theorem requiredAlternatives_eq_map (vs : List Shape) :
    requiredAlternatives vs = vs.map required := by
  induction vs with
  | nil => rfl
  | cons v vs ih => simp [requiredAlternatives, ih]

theorem required_required (s : Shape) : s.required.required = s.required := by
  induction s using Shape.induction with
  | scalar name => rfl
  | array a ih => simp [required, ih]
  | object o ih =>
    simp only [required, requiredFields_eq_map, List.map_map]
    have hfs : ∀ f ∈ o.fields, f.shape.required.required = f.shape.required := ih
    simpa using hfs
  | choice vs ih =>
    simp only [required, requiredAlternatives_eq_map, List.map_map]
    simpa using ih

theorem keepsKinds_required : KeepsKinds required where
  kind s := by cases s <;> rfl
  choice vs := by rw [required, requiredAlternatives_eq_map]

theorem names_requiredFields (fs : List (Field Shape)) :
    Field.names (requiredFields fs) = Field.names fs := by
  simp [requiredFields_eq_map, Field.names]

theorem shape?_requiredFields (fs : List (Field Shape)) (name : String) :
    Field.shape? (requiredFields fs) name = (Field.shape? fs name).map required := by
  simp [requiredFields_eq_map, Field.shape?, Field.find?, List.find?_map, Function.comp_def]

/-! ## Comparing place by place -/

theorem required_ofAlternatives_eq {vs ws : List Shape} (hk : kinds vs = kinds ws)
    (hvs : Flat vs)
    (h : ∀ k v w, findKind? vs k = some v → findKind? ws k = some w → v.required = w.required) :
    (ofAlternatives vs).required = (ofAlternatives ws).required := by
  have hall : List.Forall₂ (fun v w => v.required = w.required) vs ws :=
    Keyed.forall₂_of_find? hk hvs.1 h
  have hmap : vs.map required = ws.map required := by
    rw [← List.forall₂_eq_eq_eq, List.forall₂_map_left_iff, List.forall₂_map_right_iff]
    exact hall
  rw [keepsKinds_required.ofAlternatives, keepsKinds_required.ofAlternatives, hmap]

theorem required_array_eq {a b : ArrayOf Shape} (he : a.extent = b.extent)
    (hs : a.element.required = b.element.required) (hc : a.collapsed = b.collapsed) :
    (array a).required = (array b).required := by
  simp [required, he, hs, hc]

theorem required_object_eq {a b : ObjectOf Shape}
    (hn : Field.names a.fields = Field.names b.fields) (ha : (Field.names a.fields).Nodup)
    (hs : ∀ name s t, Field.shape? a.fields name = some s → Field.shape? b.fields name = some t →
      s.required = t.required)
    (hc : a.collapsed = b.collapsed) : (object a).required = (object b).required := by
  have hall : List.Forall₂ (fun f g : Field Shape => f.name = g.name ∧
      f.shape.required = g.shape.required) a.fields b.fields := by
    refine Keyed.forall₂_of_find? hn ha fun name f g hf hg => ⟨?_, ?_⟩
    · exact (Keyed.key_of_find? hf).trans (Keyed.key_of_find? hg).symm
    · refine hs name _ _ ?_ ?_
      · exact congrArg (Option.map _) hf
      · exact congrArg (Option.map _) hg
  have hmap : requiredFields a.fields = requiredFields b.fields := by
    rw [requiredFields_eq_map, requiredFields_eq_map, ← List.forall₂_eq_eq_eq,
      List.forall₂_map_left_iff, List.forall₂_map_right_iff]
    exact hall.imp fun f g h => by rw [h.1, h.2]
  simp [required, hmap, hc]

/-! ## Merging -/

section Merge

variable {m : Shape → Shape → Shape}

theorem isEmpty_requiredFields (fs : List (Field Shape)) :
    (requiredFields fs).isEmpty = fs.isEmpty := by
  cases fs <;> rfl

theorem required_array_merge {a b a' b' : ArrayOf Shape} (ha : (array a).required = array a')
    (hb : (array b).required = array b')
    (hm : (m a.element b.element).required = (m a'.element b'.element).required) :
    (array (a.merge m b)).required = (array (a'.merge m b')).required := by
  cases ha
  cases hb
  refine required_array_eq rfl ?_ rfl
  show (if b.hasElement then if a.hasElement then _ else _ else _ : Shape).required =
    (if b.hasElement then if a.hasElement then _ else _ else _ : Shape).required
  split
  · split
    · exact hm
    · exact (required_required _).symm
  · exact (required_required _).symm

theorem required_object_merge {a b a' b' : ObjectOf Shape} (hwa : (object a).WellFormed)
    (hwb : (object b).WellFormed) (ha : (object a).required = object a')
    (hb : (object b).required = object b')
    (hm : ∀ f ∈ a.fields, ∀ g ∈ b.fields,
      (m f.shape g.shape).required = (m f.shape.required g.shape.required).required) :
    (object (a.merge m b)).required = (object (a'.merge m b')).required := by
  cases ha
  cases hb
  refine required_object_eq ?_ ?_ (fun name s t hs ht => ?_) ?_
  · simp only [ObjectOf.names_merge_eq_union, names_requiredFields]
  · rw [ObjectOf.names_merge_eq_union]
    exact Keyed.nodup_union hwa.self.1 hwb.self.1
  · rw [ObjectOf.shape?_merge] at hs
    rw [ObjectOf.shape?_merge, shape?_requiredFields, shape?_requiredFields] at ht
    refine Keyed.rel_merge_map (R := fun s t => s.required = t.required) hs ht
      (fun s => (required_required s).symm) fun s t hs ht => ?_
    obtain ⟨f, hf, -, rfl⟩ := Field.exists_of_shape? hs
    obtain ⟨g, hg, -, rfl⟩ := Field.exists_of_shape? ht
    exact hm f hf g hg
  · simp only [ObjectOf.collapsed_merge, isEmpty_requiredFields]

theorem required_unite {v s : Shape} (hv : v.WellFormed) (hs : s.WellFormed)
    (hm : ∀ t t', Inside v t → Inside s t' →
      (m t t').required = (m t.required t'.required).required) :
    (unite m v s).required = (unite m v.required s.required).required := by
  cases v <;> cases s <;> try exact (required_required _).symm
  case array.array a b =>
    exact required_array_merge rfl rfl (hm _ _ (.element List.mem_cons_self)
      (.element List.mem_cons_self))
  case object.object a b =>
    apply required_object_merge hv hs rfl rfl
    intro f hf g hg
    exact hm _ _ (.field List.mem_cons_self hf) (.field List.mem_cons_self hg)

/-- Which keys of two shapes are optional matters only for which keys of their merge are. -/
theorem required_merge {a b : Shape} (ha : a.WellFormed) (hb : b.WellFormed) :
    (merge a b).required = (merge a.required b.required).required := by
  induction a using inside_induction generalizing b with
  | step a ih =>
    have hfa := keepsKinds_required.flat ha.flat
    have hfb := keepsKinds_required.flat hb.flat
    rw [merge_eq_ofAlternatives, merge_eq_ofAlternatives]
    refine required_ofAlternatives_eq ?_ (flat_united ha.flat hb.flat) fun k v w hv hw => ?_
    · rw [kinds_united ha.flat hb.flat, kinds_united hfa hfb]
      simp only [keepsKinds_required.alternatives, keepsKinds_required.kinds_map]
    · rw [findKind?_united ha.flat hb.flat] at hv
      simp only [findKind?_united hfa hfb, keepsKinds_required.alternatives,
        keepsKinds_required.findKind?_map] at hw
      refine Keyed.rel_merge_map (R := fun s t => s.required = t.required) hv hw
        (fun s => (required_required s).symm) fun x y hx hy => ?_
      have hxa := mem_of_findKind? hx
      have hyb := mem_of_findKind? hy
      refine required_unite (ha.alternative hxa) (hb.alternative hyb) fun t t' ht ht' => ?_
      have hta := ha.flat.inside hxa ht
      have htb := hb.flat.inside hyb ht'
      exact ih t hta (ha.inside hta) (hb.inside htb)

theorem required_merge_congr {a a' b b' : Shape} (ha : a.WellFormed) (ha' : a'.WellFormed)
    (hb : b.WellFormed) (hb' : b'.WellFormed) (haa : a.required = a'.required)
    (hbb : b.required = b'.required) : (merge a b).required = (merge a' b').required := by
  rw [required_merge ha hb, required_merge ha' hb', haa, hbb]

end Merge

end JsonShape.Shape
