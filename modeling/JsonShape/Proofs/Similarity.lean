import JsonShape.Proofs.Reordering

/-!
# Similar shapes

To compare two choices, `similar` counts their alternatives and looks for one of the second choice
for each of the first. It compares them as sets where no two alternatives of a choice are similar to
each other. `Agree s t` says that `s` and `t` have the same structure: the same kinds and scalar
types, the same keys, and alternatives that agree one by one, in some order.

* `similar_refl`, `similar_trans`: similarity orders all shapes;
* `exists_pairing`: distinct alternatives that each have a similar one are paired with those;
* `similar_symm`, `similar_of_agree`, `agree_of_similar`: between shapes with distinct alternatives,
  similarity is an equivalence, and it is agreement;
* `similar_equivalence`: and what does not change the structure never changes the comparison.
-/

namespace JsonShape.Shape

/-- The names of an object do not repeat. -/
def NamesNodup : Shape → Prop
  | .object o => (Field.names o.fields).Nodup
  | _ => True

instance : DecidablePred NamesNodup
  | .object o => inferInstanceAs (Decidable (Field.names o.fields).Nodup)
  | .scalar _ => inferInstanceAs (Decidable True)
  | .array _ => inferInstanceAs (Decidable True)
  | .choice _ => inferInstanceAs (Decidable True)

/-- No two alternatives of a choice are similar to each other. -/
def Distinct : Shape → Prop
  | .choice vs => vs.Pairwise fun v w => ¬ (similar v w = true ∧ similar w v = true)
  | _ => True

instance : DecidablePred Distinct
  | .choice vs => inferInstanceAs
    (Decidable (vs.Pairwise fun v w => ¬ (similar v w = true ∧ similar w v = true)))
  | .scalar _ => inferInstanceAs (Decidable True)
  | .array _ => inferInstanceAs (Decidable True)
  | .object _ => inferInstanceAs (Decidable True)

/-- The shapes have the same structure. Extents, marks and optional keys may differ, and so may the
order of keys and of alternatives. -/
inductive Agree : Shape → Shape → Prop
  | scalar (name : String) : Agree (.scalar name) (.scalar name)
  | array {a b : ArrayOf Shape} (h : Agree a.element b.element) : Agree (.array a) (.array b)
  | object {a b : ObjectOf Shape} (hk : (Field.names a.fields).Perm (Field.names b.fields))
    (h : ∀ f ∈ a.fields, ∀ g ∈ b.fields, f.name = g.name → Agree f.shape g.shape) :
    Agree (.object a) (.object b)
  | choice {vs us ws : List Shape} (hp : us.Perm ws) (h : List.Forall₂ Agree vs us) :
    Agree (.choice vs) (.choice ws)

/-! ## Similarity of containers and choices -/

theorem similar_object_iff {a b : ObjectOf Shape} :
    similar (.object a) (.object b) = true ↔
      (∀ name, name ∈ Field.names a.fields ↔ name ∈ Field.names b.fields) ∧
        ∀ f ∈ a.fields, ∃ g, Field.find? b.fields f.name = some g ∧
          similar f.shape g.shape = true := by
  have hnames : Field.sameNames a.fields b.fields = true ↔
      ∀ name, name ∈ Field.names a.fields ↔ name ∈ Field.names b.fields := by
    simp only [Field.sameNames, Bool.and_eq_true, List.all_eq_true, decide_eq_true_eq]
    exact ⟨fun h name => ⟨h.1 name, h.2 name⟩,
      fun h => ⟨fun name => (h name).mp, fun name => (h name).mpr⟩⟩
  rw [similar, Bool.and_eq_true, hnames, similarFields_eq_true_iff]

theorem similar_shape_of_name_eq {a b : ObjectOf Shape} {f g : Field Shape}
    (h : similar (.object a) (.object b) = true) (hb : (Field.names b.fields).Nodup)
    (hf : f ∈ a.fields) (hg : g ∈ b.fields) (hname : f.name = g.name) :
    similar f.shape g.shape = true := by
  obtain ⟨g', hg', hfg⟩ := (similar_object_iff.mp h).2 f hf
  have hfind : Field.find? b.fields f.name = some g :=
    (Keyed.find?_eq_some_iff hb).mpr ⟨hg, hname.symm⟩
  obtain rfl : g = g' := Option.some.inj (hfind.symm.trans hg')
  exact hfg

theorem similar_choice_iff {vs ws : List Shape} :
    similar (.choice vs) (.choice ws) = true ↔
      vs.length = ws.length ∧ ∀ v ∈ vs, ∃ w ∈ ws, similar v w = true := by
  rw [similar, Bool.and_eq_true, beq_iff_eq, similarAlternatives_eq_true_iff]

/-! ## Similarity is reflexive and transitive -/

theorem similar_refl {s : Shape} (hs : Everywhere NamesNodup s) : similar s s = true := by
  induction s using Shape.induction with
  | scalar name =>
    rw [similar]
    exact beq_self_eq_true name
  | array a ih =>
    rw [similar]
    exact ih (everywhere_array.mp hs).2
  | object o ih =>
    obtain ⟨hn, hs⟩ := everywhere_object.mp hs
    refine similar_object_iff.mpr ⟨fun _ => Iff.rfl, fun f hf => ?_⟩
    exact ⟨f, (Keyed.find?_eq_some_iff hn).mpr ⟨hf, rfl⟩, ih f hf (hs f hf)⟩
  | choice vs ih =>
    obtain ⟨-, hs⟩ := everywhere_choice.mp hs
    exact similar_choice_iff.mpr ⟨rfl, fun v hv => ⟨v, hv, ih v hv (hs v hv)⟩⟩

theorem similar_trans {a b c : Shape} (hab : similar a b = true) (hbc : similar b c = true) :
    similar a c = true := by
  induction a using Shape.induction generalizing b c with
  | scalar name =>
    cases b with
    | scalar name' =>
      rw [similar, beq_iff_eq] at hab
      exact hab ▸ hbc
    | _ => cases hab
  | array a ih =>
    cases b with
    | array b =>
      cases c with
      | array c =>
        rw [similar] at hab hbc ⊢
        exact ih hab hbc
      | _ => cases hbc
    | _ => cases hab
  | object a ih =>
    cases b with
    | object b =>
      cases c with
      | object c =>
        obtain ⟨hnames, hfields⟩ := similar_object_iff.mp hab
        obtain ⟨hnames', hfields'⟩ := similar_object_iff.mp hbc
        refine similar_object_iff.mpr ⟨fun name => (hnames name).trans (hnames' name), ?_⟩
        intro f hf
        obtain ⟨g, hg, hfg⟩ := hfields f hf
        obtain ⟨e, he, hge⟩ := hfields' g (Field.mem_of_find? hg)
        rw [Field.name_of_find? hg] at he
        exact ⟨e, he, ih f hf hfg hge⟩
      | _ => cases hbc
    | _ => cases hab
  | choice vs ih =>
    cases b with
    | choice ws =>
      cases c with
      | choice us =>
        obtain ⟨hlen, halternatives⟩ := similar_choice_iff.mp hab
        obtain ⟨hlen', halternatives'⟩ := similar_choice_iff.mp hbc
        refine similar_choice_iff.mpr ⟨hlen.trans hlen', fun v hv => ?_⟩
        obtain ⟨w, hw, hvw⟩ := halternatives v hv
        obtain ⟨u, hu, hwu⟩ := halternatives' w hw
        exact ⟨u, hu, ih v hv hvw hwu⟩
      | _ => cases hbc
    | _ => cases hab

/-! ## Distinct alternatives -/

/-- The alternatives are as many, so that none of the others is left over: each is similar to one
only, since two that are similar to the same are similar to each other. -/
theorem exists_pairing {vs ws : List Shape} (hvs : Distinct (.choice vs))
    (hlen : vs.length = ws.length)
    (hsymm : ∀ v ∈ vs, ∀ w ∈ ws, similar v w = true → similar w v = true)
    (h : ∀ v ∈ vs, ∃ w ∈ ws, similar v w = true) :
    ∃ us, us.Perm ws ∧ List.Forall₂ (fun v u => similar v u = true) vs us := by
  induction vs generalizing ws with
  | nil =>
    obtain rfl := List.eq_nil_of_length_eq_zero hlen.symm
    exact ⟨[], .refl _, .nil⟩
  | cons v vs ih =>
    obtain ⟨hv, hvs⟩ := List.pairwise_cons.mp hvs
    obtain ⟨w, hw, hvw⟩ := h v List.mem_cons_self
    obtain ⟨l, r, rfl⟩ := List.append_of_mem hw
    have hother : ∀ v' ∈ vs, ∃ w' ∈ l ++ r, similar v' w' = true := by
      intro v' hv'
      obtain ⟨w', hw', hvw'⟩ := h v' (List.mem_cons_of_mem v hv')
      rcases List.mem_append.mp hw' with hl | hr
      · exact ⟨w', List.mem_append_left r hl, hvw'⟩
      rcases List.mem_cons.mp hr with rfl | hr
      · have hwv := hsymm v List.mem_cons_self w' hw' hvw
        have hwv' := hsymm v' (List.mem_cons_of_mem v hv') w' hw' hvw'
        exact absurd ⟨similar_trans hvw hwv', similar_trans hvw' hwv⟩ (hv v' hv')
      · exact ⟨w', List.mem_append_right l hr, hvw'⟩
    have hlen' : vs.length = (l ++ r).length := by
      simp only [List.length_cons, List.length_append] at hlen ⊢
      omega
    have hmem : ∀ w' ∈ l ++ r, w' ∈ l ++ w :: r := fun w' hw' =>
      List.perm_middle.mem_iff.mpr (List.mem_cons_of_mem w hw')
    obtain ⟨us, hp, hall⟩ := ih hvs hlen' (fun v' hv' w' hw' =>
      hsymm v' (List.mem_cons_of_mem v hv') w' (hmem w' hw')) hother
    exact ⟨w :: us, (hp.cons w).trans List.perm_middle.symm, .cons hvw hall⟩

theorem similar_symm {a b : Shape} (hbn : Everywhere NamesNodup b) (ha : Everywhere Distinct a)
    (hb : Everywhere Distinct b) (h : similar a b = true) : similar b a = true := by
  induction a using Shape.induction generalizing b with
  | scalar name =>
    cases b with
    | scalar name' =>
      rw [similar, beq_iff_eq] at h ⊢
      exact h.symm
    | _ => cases h
  | array a ih =>
    cases b with
    | array b =>
      rw [similar] at h ⊢
      exact ih (everywhere_array.mp hbn).2 (everywhere_array.mp ha).2 (everywhere_array.mp hb).2 h
    | _ => cases h
  | object a ih =>
    cases b with
    | object b =>
      obtain ⟨hnodup, hbn⟩ := everywhere_object.mp hbn
      have hnames := (similar_object_iff.mp h).1
      refine similar_object_iff.mpr ⟨fun name => (hnames name).symm, fun g hg => ?_⟩
      obtain ⟨f, hf⟩ : ∃ f, Field.find? a.fields g.name = some f := by
        cases hfind : Field.find? a.fields g.name with
        | none =>
          have hname := (hnames g.name).mpr (List.mem_map_of_mem hg)
          exact absurd hname (Field.find?_eq_none_iff.mp hfind)
        | some f => exact ⟨f, rfl⟩
      have hfa := Field.mem_of_find? hf
      have hfg := similar_shape_of_name_eq h hnodup hfa hg (Field.name_of_find? hf)
      exact ⟨f, hf, ih f hfa (hbn g hg) ((everywhere_object.mp ha).2 f hfa)
        ((everywhere_object.mp hb).2 g hg) hfg⟩
    | _ => cases h
  | choice vs ih =>
    cases b with
    | choice ws =>
      obtain ⟨-, hbn⟩ := everywhere_choice.mp hbn
      obtain ⟨hvs, ha⟩ := everywhere_choice.mp ha
      obtain ⟨-, hb⟩ := everywhere_choice.mp hb
      obtain ⟨hlen, halternatives⟩ := similar_choice_iff.mp h
      have hsymm : ∀ v ∈ vs, ∀ w ∈ ws, similar v w = true → similar w v = true :=
        fun v hv w hw => ih v hv (hbn w hw) (ha v hv) (hb w hw)
      obtain ⟨us, hp, hall⟩ := exists_pairing hvs hlen hsymm halternatives
      refine similar_choice_iff.mpr ⟨hlen.symm, fun w hw => ?_⟩
      obtain ⟨v, hv, hvw⟩ := exists_mem_of_forall₂ hall.flip (hp.mem_iff.mpr hw)
      exact ⟨v, hv, hsymm v hv w hw hvw⟩
    | _ => cases h

/-- Without distinct alternatives one of the second choice may be left over. -/
example : similar (.choice [.number, .number]) (.choice [.number, .string]) = true ∧
    similar (.choice [.number, .string]) (.choice [.number, .number]) = false := by decide

/-! ## Similarity is agreement -/

theorem forall₂_imp_of_mem {α β : Type} {R S : α → β → Prop} {l : List α} {l' : List β}
    (h : List.Forall₂ R l l') (hRS : ∀ x ∈ l, ∀ y ∈ l', R x y → S x y) : List.Forall₂ S l l' := by
  refine List.forall₂_iff_zip.mpr ⟨h.length_eq, fun hzip => ?_⟩
  obtain ⟨hx, hy⟩ := List.of_mem_zip hzip
  exact hRS _ hx _ hy (List.forall₂_zip h hzip)

theorem agree_symm {a b : Shape} (h : Agree a b) : Agree b a := by
  induction a using Shape.induction generalizing b with
  | scalar name =>
    cases h
    exact .scalar name
  | array a ih =>
    cases h with
    | array h => exact .array (ih h)
  | object a ih =>
    cases h with
    | object hk h =>
      exact .object hk.symm fun g hg f hf hname => ih f hf (h f hf g hg hname.symm)
  | choice vs ih =>
    cases h with
    | choice hp h =>
      have hback : List.Forall₂ Agree _ vs :=
        (forall₂_imp_of_mem h fun v hv u _ hvu => (ih v hv hvu : flip Agree v u)).flip
      obtain ⟨us', hall, hp'⟩ := List.perm_comp_forall₂ hp.symm hback
      exact .choice hp' hall

theorem similar_of_agree {a b : Shape} (hbn : Everywhere NamesNodup b) (h : Agree a b) :
    similar a b = true := by
  induction a using Shape.induction generalizing b with
  | scalar name =>
    cases h
    rw [similar]
    exact beq_self_eq_true name
  | array a ih =>
    cases h with
    | array h =>
      rw [similar]
      exact ih (everywhere_array.mp hbn).2 h
  | object a ih =>
    cases h with
    | object hk h =>
      obtain ⟨hnodup, hbn⟩ := everywhere_object.mp hbn
      refine similar_object_iff.mpr ⟨fun name => hk.mem_iff, fun f hf => ?_⟩
      obtain ⟨g, hg, hname⟩ := List.mem_map.mp (hk.mem_iff.mp (List.mem_map_of_mem hf))
      exact ⟨g, (Keyed.find?_eq_some_iff hnodup).mpr ⟨hg, hname⟩,
        ih f hf (hbn g hg) (h f hf g hg hname.symm)⟩
  | choice vs ih =>
    cases h with
    | choice hp h =>
      obtain ⟨-, hbn⟩ := everywhere_choice.mp hbn
      refine similar_choice_iff.mpr ⟨h.length_eq.trans hp.length_eq, fun v hv => ?_⟩
      obtain ⟨u, hu, hvu⟩ := exists_mem_of_forall₂ h hv
      have hu := hp.mem_iff.mp hu
      exact ⟨u, hu, ih v hv (hbn u hu) hvu⟩

theorem agree_of_similar {a b : Shape} (han : Everywhere NamesNodup a)
    (hbn : Everywhere NamesNodup b) (ha : Everywhere Distinct a) (hb : Everywhere Distinct b)
    (h : similar a b = true) : Agree a b := by
  induction a using Shape.induction generalizing b with
  | scalar name =>
    cases b with
    | scalar name' =>
      rw [similar, beq_iff_eq] at h
      exact h ▸ .scalar name
    | _ => cases h
  | array a ih =>
    cases b with
    | array b =>
      rw [similar] at h
      exact .array (ih (everywhere_array.mp han).2 (everywhere_array.mp hbn).2
        (everywhere_array.mp ha).2 (everywhere_array.mp hb).2 h)
    | _ => cases h
  | object a ih =>
    cases b with
    | object b =>
      obtain ⟨hnodup, han⟩ := everywhere_object.mp han
      obtain ⟨hnodup', hbn⟩ := everywhere_object.mp hbn
      have hnames := (similar_object_iff.mp h).1
      refine .object ((List.perm_ext_iff_of_nodup hnodup hnodup').mpr hnames) ?_
      intro f hf g hg hname
      have hfg := similar_shape_of_name_eq h hnodup' hf hg hname
      exact ih f hf (han f hf) (hbn g hg) ((everywhere_object.mp ha).2 f hf)
        ((everywhere_object.mp hb).2 g hg) hfg
    | _ => cases h
  | choice vs ih =>
    cases b with
    | choice ws =>
      obtain ⟨-, han⟩ := everywhere_choice.mp han
      obtain ⟨-, hbn⟩ := everywhere_choice.mp hbn
      obtain ⟨hvs, ha⟩ := everywhere_choice.mp ha
      obtain ⟨-, hb⟩ := everywhere_choice.mp hb
      obtain ⟨hlen, halternatives⟩ := similar_choice_iff.mp h
      obtain ⟨us, hp, hall⟩ := exists_pairing hvs hlen
        (fun v hv w hw => similar_symm (hbn w hw) (ha v hv) (hb w hw)) halternatives
      refine .choice hp (forall₂_imp_of_mem hall fun v hv u hu hvu => ?_)
      have hu := hp.mem_iff.mp hu
      exact ih v hv (han v hv) (hbn u hu) (ha v hv) (hb u hu) hvu
    | _ => cases h

/-- **Similarity is an equivalence where choices are sets.**  All shapes are similar to themselves
and to what is similar to a similar shape. If no two alternatives of a choice are similar to each
other, similarity is symmetric, and it says that the shapes agree: in the kind and the scalar type
of each node, in the keys of each object, and in alternatives that correspond one to one. Shapes
that agree with the two compare as these do, whatever their order, extents, marks and optional
keys. -/
theorem similar_equivalence :
    (∀ s, Everywhere NamesNodup s → similar s s = true) ∧
    (∀ a b c, similar a b = true → similar b c = true → similar a c = true) ∧
    (∀ a b, Everywhere NamesNodup a → Everywhere NamesNodup b → Everywhere Distinct a →
      Everywhere Distinct b → similar a b = similar b a ∧ (similar a b = true ↔ Agree a b)) ∧
    ∀ a a' b b', (∀ s ∈ [a, a', b, b'], Everywhere NamesNodup s) → Agree a a' → Agree b b' →
      similar a b = similar a' b' := by
  refine ⟨fun s hs => similar_refl hs, fun a b c => similar_trans, ?_, ?_⟩
  · intro a b han hbn ha hb
    refine ⟨Bool.eq_iff_iff.mpr ⟨similar_symm hbn ha hb, similar_symm han hb ha⟩, ?_⟩
    exact ⟨agree_of_similar han hbn ha hb, similar_of_agree hbn⟩
  · intro a a' b b' hn haa' hbb'
    have ha := similar_of_agree (hn a (by simp)) (agree_symm haa')
    have ha' := similar_of_agree (hn a' (by simp)) haa'
    have hb := similar_of_agree (hn b (by simp)) (agree_symm hbb')
    have hb' := similar_of_agree (hn b' (by simp)) hbb'
    exact Bool.eq_iff_iff.mpr ⟨fun h => similar_trans (similar_trans ha h) hb',
      fun h => similar_trans (similar_trans ha' h) hb⟩

/-- Other orders of alternatives and keys, and another extent and other marks below: the two compare
alike with a choice whose object lacks a key. -/
theorem similar_equivalence_reordered :
    let a : Shape := .choice [.number, .object
      ⟨[⟨"x", .null, false⟩, ⟨"y", .array ⟨.exact 1, .string, false⟩, false⟩], false⟩]
    let b : Shape := .choice [.object
      ⟨[⟨"y", .array ⟨.range 2 3, .string, true⟩, true⟩, ⟨"x", .null, true⟩], false⟩, .number]
    let c : Shape := .choice [.number, .object ⟨[⟨"x", .null, false⟩], false⟩]
    similar a a = true ∧ similar a b = similar b a ∧ Agree a b ∧ similar a c = similar b c := by
  intro a b c
  obtain ⟨hrefl, -, hsets, hagree⟩ := similar_equivalence
  have ha : Everywhere NamesNodup a := by decide
  have hb : Everywhere NamesNodup b := by decide
  have hc : Everywhere NamesNodup c := by decide
  obtain ⟨hsymm, hiff⟩ := hsets a b ha hb (by decide) (by decide)
  have hab : Agree a b := hiff.mp (by decide)
  have hcc : Agree c c := (hsets c c hc hc (by decide) (by decide)).2.mp (hrefl c hc)
  have hn : ∀ s ∈ [a, b, c, c], Everywhere NamesNodup s := by
    simp only [List.forall_mem_cons, List.not_mem_nil, false_implies, implies_true, and_true]
    exact ⟨ha, hb, hc, hc⟩
  exact ⟨hrefl a ha, hsymm, hab, hagree a b c c hn hab hcc⟩

end JsonShape.Shape
