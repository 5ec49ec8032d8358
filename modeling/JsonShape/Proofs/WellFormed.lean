import JsonShape.Proofs.Merging

/-!
# Well-formed shapes

`Everywhere P` says that every node of a shape has the property `P`. A shape is well formed when its
nodes are: lengths are not negative, the names of an object do not repeat and a collapsed object has
none, and alternatives are `Flat`.

* `KeptByMerging.everywhere_merge`: a property of nodes holds everywhere in a merge if it does in
  both shapes and one merged node has it;
* `wellFormed_merge`: so merging keeps shapes well formed, and it collapses nothing
  (`keptByMerging_uncollapsed`).
-/

namespace JsonShape.Shape

/-! ## Nodes -/

mutual

/-- The nodes of a shape, the shape itself first. -/
def nodes : Shape → List Shape
  | .scalar name => [.scalar name]
  | .array a => .array a :: nodes a.element
  | .object o => .object o :: nodesOfFields o.fields
  | .choice vs => .choice vs :: nodesOfAlternatives vs

def nodesOfFields : List (Field Shape) → List Shape
  | [] => []
  | f :: fs => nodes f.shape ++ nodesOfFields fs

def nodesOfAlternatives : List Shape → List Shape
  | [] => []
  | v :: vs => nodes v ++ nodesOfAlternatives vs

end

def Everywhere (P : Shape → Prop) (s : Shape) : Prop := ∀ t ∈ s.nodes, P t

instance {P : Shape → Prop} [DecidablePred P] : DecidablePred (Everywhere P) :=
  fun s => inferInstanceAs (Decidable (∀ t ∈ s.nodes, P t))

theorem mem_nodesOfFields {fs : List (Field Shape)} {t : Shape} :
    t ∈ nodesOfFields fs ↔ ∃ f ∈ fs, t ∈ f.shape.nodes := by
  induction fs with
  | nil => simp [nodesOfFields]
  | cons f fs ih => simp [nodesOfFields, ih]

theorem mem_nodesOfAlternatives {vs : List Shape} {t : Shape} :
    t ∈ nodesOfAlternatives vs ↔ ∃ v ∈ vs, t ∈ v.nodes := by
  induction vs with
  | nil => simp [nodesOfAlternatives]
  | cons v vs ih => simp [nodesOfAlternatives, ih]

theorem mem_nodes_self (s : Shape) : s ∈ s.nodes := by
  cases s <;> simp [nodes]

section Everywhere

variable {P : Shape → Prop}

theorem everywhere_scalar {name : String} : Everywhere P (.scalar name) ↔ P (.scalar name) := by
  simp [Everywhere, nodes]

theorem everywhere_array {a : ArrayOf Shape} :
    Everywhere P (.array a) ↔ P (.array a) ∧ Everywhere P a.element := by
  simp [Everywhere, nodes]

theorem everywhere_object {o : ObjectOf Shape} :
    Everywhere P (.object o) ↔ P (.object o) ∧ ∀ f ∈ o.fields, Everywhere P f.shape := by
  simp only [Everywhere, nodes, List.forall_mem_cons, mem_nodesOfFields]
  grind

theorem everywhere_choice {vs : List Shape} :
    Everywhere P (.choice vs) ↔ P (.choice vs) ∧ ∀ v ∈ vs, Everywhere P v := by
  simp only [Everywhere, nodes, List.forall_mem_cons, mem_nodesOfAlternatives]
  grind

theorem Everywhere.self {s : Shape} (h : Everywhere P s) : P s :=
  h s (mem_nodes_self s)

theorem Everywhere.alternative {s v : Shape} (h : Everywhere P s) (hv : v ∈ s.alternatives) :
    Everywhere P v := by
  cases s with
  | choice vs => exact (everywhere_choice.mp h).2 v hv
  | _ => exact List.mem_singleton.mp hv ▸ h

theorem Everywhere.inside {s t : Shape} (h : Everywhere P s) (ht : Inside s t) :
    Everywhere P t := by
  cases ht with
  | element ha => exact (everywhere_array.mp (h.alternative ha)).2
  | field ho hf => exact (everywhere_object.mp (h.alternative ho)).2 _ hf

end Everywhere

/-! ## Well-formedness -/

/-- What is asked of one node. -/
def WellFormedNode : Shape → Prop
  | .scalar _ => True
  | .array a => 0 ≤ a.extent.bounds.1 ∧ 0 ≤ a.extent.bounds.2
  | .object o => (Field.names o.fields).Nodup ∧ (o.collapsed = true → o.fields = [])
  | .choice vs => Flat vs

instance : DecidablePred WellFormedNode
  | .scalar _ => inferInstanceAs (Decidable True)
  | .array _ => inferInstanceAs (Decidable (_ ∧ _))
  | .object _ => inferInstanceAs (Decidable (_ ∧ _))
  | .choice vs => inferInstanceAs (Decidable (Flat vs))

abbrev WellFormed (s : Shape) : Prop := Everywhere WellFormedNode s

theorem flat_alternatives {s : Shape} (h : ∀ vs, s = .choice vs → Flat vs) :
    Flat s.alternatives := by
  cases s with
  | choice vs => exact h vs rfl
  | _ => exact ⟨List.nodup_singleton _, by simp [alternatives, kinds, kind]⟩

theorem WellFormedNode.flat {s : Shape} (h : WellFormedNode s) : Flat s.alternatives := by
  apply flat_alternatives
  rintro vs rfl
  exact h

theorem WellFormed.flat {s : Shape} (h : s.WellFormed) : Flat s.alternatives :=
  h.self.flat

theorem wellFormed_scalar (name : String) : (scalar name).WellFormed :=
  everywhere_scalar.mpr trivial

theorem wellFormed_ofAlternatives {vs : List Shape} (hvs : Flat vs)
    (h : ∀ v ∈ vs, v.WellFormed) : (ofAlternatives vs).WellFormed := by
  unfold ofAlternatives
  split
  · exact h _ List.mem_cons_self
  · exact everywhere_choice.mpr ⟨hvs, h⟩

/-! ## What merging keeps -/

/-- A property that merging passes on from node to node, whatever `m` merges the shapes inside. -/
structure KeptByMerging (P : Shape → Prop) : Prop where
  array : ∀ (m : Shape → Shape → Shape) (a b : ArrayOf Shape),
    P (.array a) → P (.array b) → P (.array (a.merge m b))
  object : ∀ (m : Shape → Shape → Shape) (a b : ObjectOf Shape),
    P (.object a) → P (.object b) → P (.object (a.merge m b))
  choice : ∀ (m : Shape → Shape → Shape) (a b : Shape), P a → P b →
    ∀ us, us = (a.alternatives ++ b.alternatives).foldl (addAlternative m) [] → us.length ≠ 1 →
      P (.choice us)

namespace KeptByMerging

variable {P : Shape → Prop} {m : Shape → Shape → Shape}

theorem everywhere_unite? (hP : KeptByMerging P)
    (hm : ∀ x y, Everywhere P x → Everywhere P y → Everywhere P (m x y)) (v s u : Shape)
    (hv : Everywhere P v) (hs : Everywhere P s) (hu : unite? m v s = some u) : Everywhere P u := by
  unfold unite? at hu
  split at hu
  · split at hu <;> cases hu
    exact hv
  · cases hu
    rename_i a b
    obtain ⟨ha, hae⟩ := everywhere_array.mp hv
    obtain ⟨hb, hbe⟩ := everywhere_array.mp hs
    refine everywhere_array.mpr ⟨hP.array m a b ha hb, ?_⟩
    unfold ArrayOf.merge
    split
    · split
      · exact hm _ _ hae hbe
      · exact hbe
    · exact hae
  · cases hu
    rename_i a b
    obtain ⟨ha, hfa⟩ := everywhere_object.mp hv
    obtain ⟨hb, hfb⟩ := everywhere_object.mp hs
    refine everywhere_object.mpr ⟨hP.object m a b ha hb, fun f hf => ?_⟩
    rcases ObjectOf.shape_of_mem_merge hf with ⟨g, hg, h⟩ | ⟨g, hg, h⟩ | ⟨g, hg, g', hg', h⟩
    · exact h ▸ hfa g hg
    · exact h ▸ hfb g hg
    · exact h ▸ hm _ _ (hfa g hg) (hfb g' hg')
  · cases hu

theorem everywhere_mergeWith (hP : KeptByMerging P)
    (hm : ∀ x y, Everywhere P x → Everywhere P y → Everywhere P (m x y)) {a b : Shape}
    (ha : Everywhere P a) (hb : Everywhere P b) : Everywhere P (mergeWith m a b) := by
  have hus : ∀ u ∈ (a.alternatives ++ b.alternatives).foldl (addAlternative m) [],
      Everywhere P u := by
    apply forall_mem_foldl_addAlternative (hP.everywhere_unite? hm) (List.forall_mem_nil _)
    intro s hs
    rcases List.mem_append.mp hs with hs | hs
    · exact ha.alternative hs
    · exact hb.alternative hs
  have hchoice := hP.choice m a b ha.self hb.self _ rfl
  unfold mergeWith ofAlternatives
  split
  · rename_i u hu
    exact hus u (hu ▸ List.mem_singleton_self u)
  · rename_i hne
    refine everywhere_choice.mpr ⟨hchoice fun hlen => ?_, hus⟩
    obtain ⟨u, hu⟩ := List.length_eq_one_iff.mp hlen
    exact hne u hu

theorem everywhere_mergeWithin (hP : KeptByMerging P) (n : Nat) {a b : Shape}
    (ha : Everywhere P a) (hb : Everywhere P b) : Everywhere P (mergeWithin n a b) := by
  induction n generalizing a b with
  | zero => exact hP.everywhere_mergeWith (fun _ _ hx _ => hx) ha hb
  | succ n ih => exact hP.everywhere_mergeWith (fun _ _ hx hy => ih hx hy) ha hb

theorem everywhere_merge (hP : KeptByMerging P) {a b : Shape} (ha : Everywhere P a)
    (hb : Everywhere P b) : Everywhere P (merge a b) :=
  hP.everywhere_mergeWithin _ ha hb

theorem everywhere_foldl_merge (hP : KeptByMerging P) {ss : List Shape} {s : Shape}
    (hs : Everywhere P s) (hss : ∀ t ∈ ss, Everywhere P t) : Everywhere P (ss.foldl merge s) := by
  induction ss generalizing s with
  | nil => exact hs
  | cons t ss ih =>
    obtain ⟨ht, hss⟩ := List.forall_mem_cons.mp hss
    exact ih (hP.everywhere_merge hs ht) hss

end KeptByMerging

/-! ## Merging keeps shapes well formed -/

theorem keptByMerging_wellFormedNode : KeptByMerging WellFormedNode where
  array m a b ha hb := by
    simp only [WellFormedNode, ArrayOf.extent_merge, Extent.bounds_hull] at ha hb ⊢
    omega
  object m a b ha hb := by
    refine ⟨?_, fun h => List.isEmpty_iff.mp (Bool.and_eq_true_iff.mp h).1⟩
    rw [ObjectOf.names_merge_eq_union]
    exact Keyed.nodup_union ha.1 hb.1
  choice m a b ha hb us hus _ := by
    subst hus
    apply flat_foldl_addAlternative
    rw [kinds_append, List.mem_append]
    exact fun h => h.elim ha.flat.2 hb.flat.2

theorem wellFormed_merge {a b : Shape} (ha : a.WellFormed) (hb : b.WellFormed) :
    (merge a b).WellFormed :=
  keptByMerging_wellFormedNode.everywhere_merge ha hb

theorem wellFormed_foldl_merge {ss : List Shape} {s : Shape} (hs : s.WellFormed)
    (hss : ∀ t ∈ ss, t.WellFormed) : (ss.foldl merge s).WellFormed :=
  keptByMerging_wellFormedNode.everywhere_foldl_merge hs hss

/-! ## Merging collapses nothing -/

/-- A container whose parts were not withheld because it contains itself. -/
def Uncollapsed : Shape → Prop
  | .array a => a.collapsed = false
  | .object o => o.collapsed = false
  | _ => True

instance : DecidablePred Uncollapsed
  | .array a => inferInstanceAs (Decidable (a.collapsed = false))
  | .object o => inferInstanceAs (Decidable (o.collapsed = false))
  | .scalar _ => inferInstanceAs (Decidable True)
  | .choice _ => inferInstanceAs (Decidable True)

theorem keptByMerging_uncollapsed : KeptByMerging Uncollapsed where
  array m a b ha hb := by
    simp only [Uncollapsed, ArrayOf.collapsed_merge] at ha hb ⊢
    simp [ha, hb]
  object m a b ha hb := by
    simp only [Uncollapsed, ObjectOf.collapsed_merge] at ha hb ⊢
    simp [ha, hb]
  choice _ _ _ _ _ _ _ _ := trivial

end JsonShape.Shape
