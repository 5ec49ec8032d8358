import JsonShape.Proofs.Commuting
import JsonShape.Proofs.Report

/-!
# The placeholder is never rendered

Where a survey inspects no element of a sequence, a placeholder takes the place of the shape of the
elements. `filled p levels s` is the shape `s` with the scalar `p` as placeholder, if it comes from
a survey of that many levels.

* `filled_merge`: placeholders meet other placeholders or are dropped, so that filling commutes with
  merging;
* `report_withPlaceholder`: a survey with another placeholder reports the filled shape;
* `renderAt_filled`: the text of a filled shape is the same for each placeholder.
-/

namespace JsonShape

namespace Shape

/-! ## Filling -/

mutual

/-- The shape with `p` in each place that holds no inspected element: in arrays with no level left,
and in those that do not describe an element. -/
def filled (p : String) : Nat → Shape → Shape
  | _, .scalar name => .scalar name
  | n, .array a =>
    .array ⟨a.extent, if 0 < n ∧ a.hasElement then filled p (n - 1) a.element else .scalar p,
      a.collapsed⟩
  | n, .object o => .object ⟨filledFields p (n - 1) o.fields, o.collapsed⟩
  | n, .choice vs => .choice (filledAlternatives p n vs)

def filledFields (p : String) : Nat → List (Field Shape) → List (Field Shape)
  | _, [] => []
  | n, f :: fs => ⟨f.name, filled p n f.shape, f.isOptional⟩ :: filledFields p n fs

def filledAlternatives (p : String) : Nat → List Shape → List Shape
  | _, [] => []
  | n, v :: vs => filled p n v :: filledAlternatives p n vs

end

def filledArray (p : String) (n : Nat) (a : ArrayOf Shape) : ArrayOf Shape :=
  ⟨a.extent, if 0 < n ∧ a.hasElement then a.element.filled p (n - 1) else .scalar p, a.collapsed⟩

section Filled

variable {p : String} {n : Nat}

theorem filledFields_eq_map (fs : List (Field Shape)) :
    filledFields p n fs = fs.map (Field.map (filled p n)) := by
  induction fs with
  | nil => rw [filledFields, List.map_nil]
  | cons f fs ih => rw [filledFields, ih, List.map_cons, Field.map]

theorem filledAlternatives_eq_map (vs : List Shape) :
    filledAlternatives p n vs = vs.map (filled p n) := by
  induction vs with
  | nil => rw [filledAlternatives, List.map_nil]
  | cons v vs ih => rw [filledAlternatives, ih, List.map_cons]

theorem filled_scalar (name : String) : (scalar name).filled p n = scalar name := by
  rw [filled]

theorem filled_array (a : ArrayOf Shape) : (array a).filled p n = array (filledArray p n a) := by
  rw [filled, filledArray]

theorem filled_object (o : ObjectOf Shape) :
    (object o).filled p n = object (o.map (filled p (n - 1))) := by
  rw [filled, filledFields_eq_map, ObjectOf.map]

theorem filled_choice (vs : List Shape) :
    (choice vs).filled p n = choice (vs.map (filled p n)) := by
  rw [filled, filledAlternatives_eq_map]

theorem keepsKinds_filled : KeepsKinds (filled p n) where
  kind s := by
    cases s with
    | scalar name => rw [filled_scalar]
    | array a => rw [filled_array]; rfl
    | object o => rw [filled_object]; rfl
    | choice vs => rw [filled_choice]; rfl
  choice := filled_choice

/-! ## Merging filled shapes -/

/-- Without a level left, the placeholders of both arrays merge to one. -/
theorem filledArray_merge {a b : ArrayOf Shape} (ha : 0 ≤ a.extent.bounds.2)
    (hb : 0 ≤ b.extent.bounds.2)
    (hm : ∀ n, (merge a.element b.element).filled p n =
      merge (a.element.filled p n) (b.element.filled p n)) :
    filledArray p n (a.merge merge b) = (filledArray p n a).merge merge (filledArray p n b) := by
  have hab := ArrayOf.hasElement_merge (m := merge) ha hb
  have hA : (filledArray p n a).hasElement = a.hasElement := rfl
  have hB : (filledArray p n b).hasElement = b.hasElement := rfl
  rw [filledArray, hab, ArrayOf.merge, ArrayOf.merge, hA, hB]
  by_cases hn : 0 < n
  · cases hae : a.hasElement <;> cases hbe : b.hasElement <;>
      simp [filledArray, hn, hm, hae, hbe]
  · simp [filledArray, hn, merge_scalar_self]

theorem filled_merge {a b : Shape} (ha : a.WellFormed) (hb : b.WellFormed) :
    (merge a b).filled p n = merge (a.filled p n) (b.filled p n) := by
  refine map_merge_of_inside (g := filled p) (fun _ => keepsKinds_filled)
    (fun n v s hv hs _ _ hk hc hparts => ?_) n ha hb ha hb
  match v, s, hk with
  | .scalar _, .scalar _, _ => simp only [unite, filled_scalar]
  | .array x, .array y, _ =>
    have helement := hparts _ _ (.element List.mem_cons_self) (.element List.mem_cons_self)
    simp only [unite, filled_array, filledArray_merge hv.self.2 hs.self.2 helement]
  | .object x, .object y, _ =>
    have hfields : ∀ f ∈ x.fields, ∀ f' ∈ y.fields, (merge f.shape f'.shape).filled p (n - 1) =
        merge (f.shape.filled p (n - 1)) (f'.shape.filled p (n - 1)) := fun f hf f' hf' =>
      hparts _ _ (.field List.mem_cons_self hf) (.field List.mem_cons_self hf') _
    simp only [unite, filled_object, ObjectOf.map_merge hfields]
  | .choice _, .choice _, _ => exact absurd rfl hc

end Filled

/-! ## Rendering filled shapes -/

section Render

variable {limit depth indent : Nat}

/-- An array that describes no element is written without one, and so is each array at the depth
limit. -/
theorem renderAt_array_congr {a b : ArrayOf Shape} (he : a.extent.bounds = b.extent.bounds)
    (hc : a.collapsed = b.collapsed) (hs : a.hasElement = true → depth < limit →
      renderAt limit (depth + 1) indent a.element = renderAt limit (depth + 1) indent b.element) :
    renderAt limit depth indent (.array a) = renderAt limit depth indent (.array b) := by
  have hempty : a.isEmpty = b.isEmpty := by
    rw [ArrayOf.isEmpty, ArrayOf.isEmpty, Extent.isEmpty, Extent.isEmpty, he]
  have htext : a.extent.text = b.extent.text := by rw [Extent.text, Extent.text, he]
  rw [renderAt, renderAt, ← hempty, ← hc, ← htext]
  split
  · rfl
  · split
    · rfl
    · rename_i hne hcut
      rw [not_or, Nat.not_le] at hcut
      have ha : a.hasElement = true := by simp [ArrayOf.hasElement, hne, hcut.1]
      rw [hs ha hcut.2]

theorem fieldsOnOneLine_map_congr {g g' : Shape → Shape} {fs : List (Field Shape)}
    (h : ∀ f ∈ fs, (g f.shape).onOneLine = (g' f.shape).onOneLine) :
    fieldsOnOneLine (fs.map (Field.map g)) = fieldsOnOneLine (fs.map (Field.map g')) := by
  rw [Bool.eq_iff_iff, fieldsOnOneLine_eq_true_iff, fieldsOnOneLine_eq_true_iff,
    List.forall_mem_map, List.forall_mem_map]
  exact forall₂_congr fun f hf => by rw [Field.map, Field.map, h f hf]

theorem renderAt_object_map_congr {g g' : Shape → Shape} {o : ObjectOf Shape}
    (hline : ∀ f ∈ o.fields, (g f.shape).onOneLine = (g' f.shape).onOneLine)
    (h : ∀ f ∈ o.fields, ∀ indent, renderAt limit (depth + 1) indent (g f.shape) =
      renderAt limit (depth + 1) indent (g' f.shape)) :
    renderAt limit depth indent (.object (o.map g)) =
      renderAt limit depth indent (.object (o.map g')) := by
  have hlines := fieldsOnOneLine_map_congr hline
  have hfields : ∀ indent, renderFields limit (depth + 1) indent (o.fields.map (Field.map g)) =
      renderFields limit (depth + 1) indent (o.fields.map (Field.map g')) := by
    intro indent
    rw [renderFields_eq_map, renderFields_eq_map, List.map_map, List.map_map]
    refine List.map_congr_left fun f hf => ?_
    simp only [Function.comp_apply, Field.map, h f hf indent]
    rfl
  simp only [renderAt, ObjectOf.map, List.isEmpty_map, List.length_map, hlines, hfields]
  rfl

variable (p q : String)

/-- A placeholder is on one line with its array, whatever its name. -/
theorem onOneLine_filled (n : Nat) (s : Shape) :
    (s.filled p n).onOneLine = (s.filled q n).onOneLine := by
  induction s using Shape.induction generalizing n with
  | scalar name => rw [filled_scalar, filled_scalar]
  | array a ih =>
    rw [filled_array, filled_array, onOneLine, onOneLine]
    congr 1
    simp only [filledArray]
    split
    · exact ih (n - 1)
    · rfl
  | object o ih =>
    have hfields := fieldsOnOneLine_map_congr fun f hf => ih f hf (n - 1)
    rw [filled_object, filled_object, onOneLine, onOneLine]
    simp only [ObjectOf.map, List.length_map, hfields]
  | choice vs ih =>
    rw [filled_choice, filled_choice, onOneLine, onOneLine, Bool.eq_iff_iff,
      alternativesOnOneLine_eq_true_iff, alternativesOnOneLine_eq_true_iff,
      List.forall_mem_map, List.forall_mem_map]
    exact forall₂_congr fun v hv => by rw [ih v hv]

/-- The levels that a survey has left are those above the depth limit of the text. -/
theorem renderAt_filled (s : Shape) : renderAt limit depth indent (s.filled p (limit - depth)) =
    renderAt limit depth indent (s.filled q (limit - depth)) := by
  induction s using Shape.induction generalizing depth indent with
  | scalar name => rw [filled_scalar, filled_scalar]
  | array a ih =>
    rw [filled_array, filled_array]
    refine renderAt_array_congr rfl rfl fun ha hlt => ?_
    have hinside : 0 < limit - depth ∧ a.hasElement := ⟨Nat.sub_pos_of_lt hlt, ha⟩
    simp only [filledArray, if_pos hinside, Nat.sub_sub]
    exact ih
  | object o ih =>
    rw [filled_object, filled_object, Nat.sub_sub]
    exact renderAt_object_map_congr (fun f _ => onOneLine_filled p q _ f.shape)
      fun f hf indent => ih f hf
  | choice vs ih =>
    simp only [filled_choice, renderAt, renderAlternatives_eq_map, List.map_map]
    exact congrArg _ (List.map_congr_left fun v hv => ih v hv)

end Render

end Shape

open Shape

/-! ## Reports with another placeholder -/

namespace Report

variable {p : String} {levels : Nat}

def filled (p : String) (levels : Nat) (r : Report) : Report :=
  ⟨r.shape.filled p levels, r.records⟩

section Container

variable {α : Type} {uninspected : Shape} {size : Nat} {f f' : α → Report}

/-- Of an empty sequence the placeholder is left, and of others the merge of what is inspected. -/
theorem ofSequence_filled (hsize : 0 < size) (hf : ∀ x, f' x = (f x).filled p levels)
    (hw : ∀ x, (f x).shape.WellFormed) (items : Array α) :
    ofSequence (.scalar p) size (some f') items =
      (ofSequence uninspected size (some f) items).filled p (levels + 1) := by
  have hrecords : ∀ xs : List α, (xs.map f').flatMap records = (xs.map f).flatMap records := by
    intro xs
    simp only [List.flatMap_map, hf, filled]
  have hfold : ∀ xs : List α, foldFirst? merge ((xs.map f').map shape) =
      (foldFirst? merge ((xs.map f).map shape)).map (Shape.filled p levels) := by
    intro xs
    have hshapes : (xs.map f').map shape = ((xs.map f).map shape).map (Shape.filled p levels) := by
      simp only [List.map_map, Function.comp_def, hf, filled]
    rw [hshapes, foldFirst?_map (fun _ _ => wellFormed_merge) (fun _ _ => filled_merge)]
    exact List.forall_mem_map.mpr (List.forall_mem_map.mpr fun x _ => hw x)
  simp only [ofSequence, filled, filled_array, filledArray, hfold, hrecords]
  cases hxs : (evenlySpaced items.size size).filterMap (items[·]?) with
  | nil =>
    have hempty : items.size = 0 :=
      (filterMap_evenlySpaced_eq_nil_iff.mp hxs).resolve_right (Nat.ne_of_gt hsize)
    simp [hempty, foldFirst?, ArrayOf.hasElement, ArrayOf.isEmpty, Extent.isEmpty]
  | cons x xs =>
    have hne : items.size ≠ 0 := by
      intro hempty
      rw [filterMap_evenlySpaced_eq_nil_iff.mpr (.inl hempty)] at hxs
      cases hxs
    simp [hne, foldFirst?, ArrayOf.hasElement, ArrayOf.isEmpty, Extent.isEmpty]

theorem ofMapping_filled (hf : ∀ x, f' x = (f x).filled p levels) (es : List (Scalar × α)) :
    ofMapping (some f') es = (ofMapping (some f) es).filled p (levels + 1) := by
  have hshape : ∀ x, (f' x).shape = (f x).shape.filled p levels := fun x => by rw [hf x]; rfl
  have hrecords : ∀ x, (f' x).records = (f x).records := fun x => by rw [hf x]; rfl
  simp only [ofMapping, filled, fields_ofEntries_map hshape, records_ofEntries_congr hrecords,
    filled_object]
  rfl

end Container

end Report

namespace Survey

variable {S : Survey} {p : String} {size levels depth : Nat} {ancestors : List NodeId}

def withPlaceholder (S : Survey) (p : String) : Survey := { S with uninspected := .scalar p }

theorem collapsed_withPlaceholder (c : Container) :
    (S.withPlaceholder p).collapsed c = (S.collapsed c).filled p levels := by
  cases c with
  | sequence t items =>
    rw [collapsed, collapsed, filled_array]
    simp [filledArray, ArrayOf.hasElement, withPlaceholder]
  | mapping t entries =>
    rw [collapsed, collapsed, filled_object]
    rfl

theorem reportWith_withPlaceholder {inner inner' : Option (List NodeId → Value → Report)}
    (hc : ∀ id c, (S.withPlaceholder p).reportContainer size
        (inner'.map fun f => f (id :: ancestors)) c =
      (S.reportContainer size (inner.map fun f => f (id :: ancestors)) c).filled p levels)
    (v : Value) : (S.withPlaceholder p).reportWith size inner' depth ancestors v =
      (S.reportWith size inner depth ancestors v).filled p levels := by
  cases v with
  | scalar s => rw [reportWith, reportWith, Report.filled, Scalar.shape_eq, filled_scalar]
  | foreign t => rw [reportWith, reportWith, Report.filled, Shape.string, filled_scalar]
  | node id =>
    rw [reportWith, reportWith, withPlaceholder]
    cases S.heap[id]? with
    | none => rw [Report.filled, Shape.string, filled_scalar]
    | some c =>
      by_cases hin : id ∈ ancestors
      · simp only [if_pos hin]
        rw [Report.filled, ← collapsed_withPlaceholder]
        rfl
      · simp only [if_neg hin]
        exact hc id c

/-- The induction is on the levels: inside containers there is one level less to fill. -/
theorem report_withPlaceholder (hS : S.uninspected.WellFormed) (hsize : 0 < size) (levels : Nat)
    (v : Value) : (S.withPlaceholder p).report size levels depth ancestors v =
      (S.report size levels depth ancestors v).filled p levels := by
  induction levels generalizing depth ancestors v with
  | zero =>
    refine reportWith_withPlaceholder (fun id c => ?_) v
    cases c with
    | sequence t items => simp [reportContainer, Report.ofSequence, Report.filled, filled_array,
        filledArray, foldFirst?, withPlaceholder]
    | mapping t entries => simp [reportContainer, Report.ofMapping, Report.filled, filled_object,
        ObjectOf.map]
  | succ levels ih =>
    refine reportWith_withPlaceholder (fun id c => ?_) v
    cases c with
    | sequence t items =>
      exact Report.ofSequence_filled hsize (ih ·) (wellFormed_report hS levels _ _) items
    | mapping t entries => exact Report.ofMapping_filled (ih ·) entries

/-- The survey's own placeholder is a scalar, so that its report is filled already. -/
theorem render_report_filled {q : String} (hS : S.uninspected = .scalar q) (hsize : 0 < size)
    (levels : Nat) (v : Value) :
    ((S.report size levels depth ancestors v).shape.filled p levels).render levels =
      (S.report size levels depth ancestors v).shape.render levels := by
  have hself : S.withPlaceholder q = S := by
    rw [withPlaceholder, ← hS]
  have hwell : S.uninspected.WellFormed := hS ▸ wellFormed_scalar q
  have hq : (S.withPlaceholder q).report size levels depth ancestors v =
      (S.report size levels depth ancestors v).filled q levels :=
    report_withPlaceholder hwell hsize levels v
  rw [hself] at hq
  calc ((S.report size levels depth ancestors v).shape.filled p levels).render levels
      = ((S.report size levels depth ancestors v).shape.filled q levels).render levels :=
        renderAt_filled p q _
    _ = (S.report size levels depth ancestors v).shape.render levels := by
        conv_rhs => rw [hq]
        rfl

theorem thumbnail_withPlaceholder {q : String} (hS : S.uninspected = .scalar q)
    (hunlimited : S.digitLimit = none) (r : Request) (v : Value) :
    (S.withPlaceholder p).thumbnail r v = S.thumbnail r v := by
  have hwell : S.uninspected.WellFormed := hS ▸ wellFormed_scalar q
  have htext : ∀ o : Options, ((S.withPlaceholder p).shape o v >>=
      Shape.renderWithin S.recursionLimit o.maxDepth) =
        (S.shape o v >>= Shape.renderWithin S.recursionLimit o.maxDepth) := by
    intro o
    funext log
    change EStateM.run _ log = EStateM.run _ log
    obtain ⟨log₁, hlimit⟩ := allowedDepth_run S.recursionLimit o.maxDepth log
    obtain ⟨log₂, hlimit'⟩ := allowedDepth_run S.recursionLimit o.maxDepth
      (log₁ ++ (S.report o.sampleSize (min o.maxDepth (greatestDepth S.recursionLimit)) 0 []
        v).records.toArray)
    have hshape := shape_run hlimit (v := v) (namesKeys_of_unlimited hunlimited)
    have hshape' := shape_run (S := S.withPlaceholder p) hlimit (v := v)
      (namesKeys_of_unlimited hunlimited)
    rw [report_withPlaceholder hwell o.sampleSize_pos] at hshape'
    rw [Int.toNat_natCast] at hshape hshape'
    simp only [EStateM.run_bind, hshape, hshape', Report.filled]
    rw [renderWithin_run hlimit', renderWithin_run hlimit', Int.toNat_natCast,
      render_report_filled hS o.sampleSize_pos]
  exact congrArg (r.options >>= ·) (funext htext)

end Survey

/-- **The placeholder is never rendered.**  With any scalar in its place a survey makes the same
thumbnail of every value, cyclic ones included, and for integer options it does make one. -/
theorem thumbnail_ignores_placeholder (h : Heap) (limit : Int) (p : String) (v : Value) :
    let S : Survey := { heap := h, recursionLimit := limit }
    let S' : Survey := { heap := h, recursionLimit := limit, uninspected := .scalar p }
    (∀ r : Request, S'.thumbnail r v = S.thumbnail r v) ∧
      ∀ (base : Option Options) (sampleSize maxDepth : Option Int) (log : Array Record),
        ∃ text log', (S.thumbnail (.ofIntegers base sampleSize maxDepth) v).run log =
          .ok text log' := by
  intro S S'
  refine ⟨fun r => Survey.thumbnail_withPlaceholder (S := S) rfl rfl r v,
    fun base sampleSize maxDepth log => ?_⟩
  obtain ⟨log₁, ho⟩ := Request.options_ofIntegers_run base sampleSize maxDepth log
  obtain ⟨log₂, hs⟩ := Survey.infer_run (S := S) ho (v := v) (Survey.namesKeys_of_unlimited rfl)
  obtain ⟨log₃, htext⟩ := Survey.thumbnail_run ho hs
  exact ⟨_, log₃, htext⟩

end JsonShape
