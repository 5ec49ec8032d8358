import JsonShape.Proofs.Outline
import JsonShape.Proofs.Regular

/-!
# What shapes tell of inspected values

A position is a path of steps into containers. `Shape.at?` is the shape that a shape has there;
the step to the elements of an array is open where the array describes an element.
`Heap.reached` are the values there that a survey without a depth limit would come to.

* `at?_merge`, `mem_kindsAt_merge`: merging adds nothing of its own. At each position a merge has
  the kinds that one of the shapes has there;
* `mem_kindsAt_report`: a report has the kinds of the values that were inspected at the position.
  One step below the last level, it has the placeholder for the elements that were not;
* `kinds_of_inspected`: both together, for the merge of two inferred shapes.
-/

namespace JsonShape

open Shape

/-! ## Positions in shapes -/

/-- A step from a container to its elements, or to its value under a name. -/
inductive Step where
  | element
  | field (name : String)
  deriving DecidableEq, Repr

/-- The kind of the containers that have the step. -/
def Step.kind : Step → Kind
  | element => .array
  | field _ => .object

namespace Shape

/-- What the step leads to in a single alternative. -/
def part? : Step → Shape → Option Shape
  | .element, .array a => if a.hasElement then some a.element else none
  | .field name, .object o => Field.shape? o.fields name
  | _, _ => none

def step? (d : Step) (s : Shape) : Option Shape :=
  (findKind? s.alternatives d.kind).bind (part? d)

/-- The shape at the end of the path. -/
def at? : List Step → Shape → Option Shape
  | [], s => some s
  | d :: path, s => (s.step? d).bind (at? path)

/-- The kinds of the alternatives at the end of the path. -/
def kindsAt (path : List Step) (s : Shape) : List Kind :=
  (s.at? path).elim [] fun t => kinds t.alternatives

variable {d : Step} {path : List Step} {k : Kind} {s t a b : Shape}

theorem part?_of_kind_ne (h : s.kind ≠ d.kind) : part? d s = none := by
  cases d <;> cases s <;> first | rfl | exact absurd rfl h

theorem step?_of_kind_ne_choice (h : s.kind ≠ .choice) : s.step? d = part? d s := by
  rw [step?, alternatives_eq_singleton h, findKind?_cons]
  split
  · rfl
  · rename_i hk
    exact (part?_of_kind_ne hk).symm

theorem part?_eq_some (h : part? d s = some t) :
    (∃ u : ArrayOf Shape, d = .element ∧ s = .array u ∧ u.hasElement = true ∧ t = u.element) ∨
      ∃ (name : String) (o : ObjectOf Shape), d = .field name ∧ s = .object o ∧
        ∃ f ∈ o.fields, f.name = name ∧ f.shape = t := by
  unfold part? at h
  split at h
  · rename_i u
    split at h <;> cases h
    exact .inl ⟨u, rfl, rfl, by assumption, rfl⟩
  · rename_i name o
    exact .inr ⟨name, o, rfl, rfl, Field.exists_of_shape? h⟩
  · cases h

theorem inside_of_step? (h : s.step? d = some t) : Inside s t := by
  obtain ⟨v, hv, ht⟩ := Option.bind_eq_some_iff.mp h
  have hmem := mem_of_findKind? hv
  rcases part?_eq_some ht with ⟨u, -, rfl, -, rfl⟩ | ⟨name, o, -, rfl, f, hf, -, rfl⟩
  · exact .element hmem
  · exact .field hmem hf

theorem Everywhere.at? {P : Shape → Prop} (hs : Everywhere P s) (h : s.at? path = some t) :
    Everywhere P t := by
  induction path generalizing s with
  | nil =>
    cases h
    exact hs
  | cons d path ih =>
    obtain ⟨u, hu, ht⟩ := Option.bind_eq_some_iff.mp h
    exact ih (hs.inside (inside_of_step? hu)) ht

theorem at?_append (path path' : List Step) (s : Shape) :
    s.at? (path ++ path') = (s.at? path).bind (at? path') := by
  induction path generalizing s with
  | nil => rfl
  | cons d path ih =>
    rw [List.cons_append, at?, at?, Option.bind_assoc]
    congr 1
    funext t
    exact ih t

/-! ## Merging -/

theorem part?_unite (ha : a.WellFormed) (hb : b.WellFormed) (hk : a.kind = b.kind) :
    part? d (unite merge a b) = (part? d a).merge merge (part? d b) := by
  cases d with
  | element =>
    cases a <;> cases b <;> cases hk
    case element.array.array.refl u w =>
      -- an array without an element adds none, so that the step is open if it is on one side
      have hm := ArrayOf.hasElement_merge (m := merge) (everywhere_array.mp ha).1.2
        (everywhere_array.mp hb).1.2
      simp only [unite, part?, hm, ArrayOf.element_merge]
      cases u.hasElement <;> cases w.hasElement <;> rfl
    all_goals rfl
  | field name =>
    cases a <;> cases b <;> cases hk
    case field.object.object.refl u w => exact ObjectOf.shape?_merge merge u w name
    all_goals rfl

theorem step?_merge (ha : a.WellFormed) (hb : b.WellFormed) :
    (merge a b).step? d = (a.step? d).merge merge (b.step? d) := by
  rw [step?, step?, step?, findKind?_merge ha.flat hb.flat]
  cases hv : findKind? a.alternatives d.kind with
  | none => simp
  | some v =>
    cases hw : findKind? b.alternatives d.kind with
    | none => simp
    | some w =>
      have hk := (kind_of_findKind? hv).trans (kind_of_findKind? hw).symm
      exact part?_unite (ha.alternative (mem_of_findKind? hv))
        (hb.alternative (mem_of_findKind? hw)) hk

/-- At each position the merge of two shapes merges what they have there. -/
theorem at?_merge (ha : a.WellFormed) (hb : b.WellFormed) :
    (merge a b).at? path = (a.at? path).merge merge (b.at? path) := by
  induction path generalizing a b with
  | nil => rfl
  | cons d path ih =>
    rw [at?, at?, at?, step?_merge ha hb]
    cases hx : a.step? d with
    | none => simp
    | some x =>
      cases hy : b.step? d with
      | none => simp
      | some y => exact ih (ha.inside (inside_of_step? hx)) (hb.inside (inside_of_step? hy))

theorem mem_kindsAt_merge (ha : a.WellFormed) (hb : b.WellFormed) :
    k ∈ (merge a b).kindsAt path ↔ k ∈ a.kindsAt path ∨ k ∈ b.kindsAt path := by
  rw [kindsAt, kindsAt, kindsAt, at?_merge ha hb]
  cases hx : a.at? path with
  | none => simp
  | some x =>
    cases hy : b.at? path with
    | none => simp
    | some y =>
      have hxf : Flat x.alternatives := (ha.at? hx).self.flat
      have hyf : Flat y.alternatives := (hb.at? hy).self.flat
      have hkinds := kinds_merge hxf hyf
      simp only [Option.merge_some_some, Option.elim_some, hkinds, Keyed.mem_union]

theorem mem_kindsAt_foldFirst? {ss : List Shape} (hss : ∀ s ∈ ss, s.WellFormed) :
    k ∈ (foldFirst? merge ss).elim [] (kindsAt path) ↔ ∃ s ∈ ss, k ∈ s.kindsAt path := by
  induction ss using List.reverseRecOn with
  | nil => simp [foldFirst?]
  | append_singleton ss s ih =>
    obtain ⟨hss, hs⟩ := List.forall_mem_append.mp hss
    have hs : s.WellFormed := hs s (List.mem_singleton_self s)
    simp only [List.mem_append, List.mem_singleton, or_and_right, exists_or, exists_eq_left,
      ← ih hss, foldFirst?_concat]
    have hwf := getD_foldFirst?_of_forall (fun _ _ => wellFormed_merge) hss hs
    cases ht : foldFirst? merge ss with
    | none => simp
    | some t =>
      rw [ht] at hwf
      exact mem_kindsAt_merge hwf hs

theorem kindsAt_cons (d : Step) (path : List Step) (s : Shape) :
    s.kindsAt (d :: path) = (s.step? d).elim [] (kindsAt path) := by
  rw [kindsAt, at?]
  cases s.step? d <;> rfl

theorem step?_of_mem (hs : Flat s.alternatives) (ht : t ∈ s.alternatives) (hk : t.kind = d.kind) :
    s.step? d = part? d t := by
  rw [step?, ← hk, hs.findKind?_kind ht, Option.bind_some]

theorem exists_mem_kindsAt_iff (hs : s.Regular) :
    (∃ k, k ∈ s.kindsAt path) ↔ s.at? path ≠ none := by
  rw [kindsAt]
  cases ht : s.at? path with
  | none => simp
  | some t =>
    have hreg : t.Regular := hs.at? ht
    obtain ⟨v, vs, hvs⟩ := List.exists_cons_of_ne_nil hreg.self.plural.alternatives_ne_nil
    simp [hvs]

theorem hasElement_iff_exists_kindsAt {u : ArrayOf Shape} (hs : s.Regular)
    (ht : s.at? path = some t) (hu : .array u ∈ t.alternatives) :
    u.hasElement = true ↔ ∃ k, k ∈ s.kindsAt (path ++ [.element]) := by
  have hreg : t.Regular := hs.at? ht
  have hstep : t.step? .element = if u.hasElement then some u.element else none :=
    step?_of_mem hreg.self.flat hu rfl
  rw [exists_mem_kindsAt_iff hs, at?_append, ht, Option.bind_some, at?, hstep]
  cases u.hasElement <;> simp [at?]

theorem mem_kindsAt_null : k ∈ kindsAt path .null ↔ path = [] ∧ k = .scalar "null" := by
  cases path with
  | nil => simp [kindsAt, at?, alternatives, null, kinds, kind]
  | cons d path =>
    have hkind : null.kind ≠ d.kind := by cases d <;> simp [null, kind, Step.kind]
    have hne : null.kind ≠ .choice := by decide
    rw [kindsAt_cons, step?_of_kind_ne_choice hne, part?_of_kind_ne hkind]
    simp

end Shape

/-! ## Positions in values -/

/-- A value that a walk comes to, with the containers on the way. -/
structure Visit where
  ancestors : List NodeId
  value : Value

/-- The parts that a step leads to. -/
def Container.partsAt (size : Nat) : Step → Container → List Value
  | .element, .sequence _ items => sampled items size
  | .field name, .mapping _ entries => (first? entries name).toList
  | _, _ => []

namespace Heap

/-- The values one step further. There are none in a container that contains itself, once the walk
meets it again. -/
def stepInto (h : Heap) (size : Nat) (d : Step) (x : Visit) : List Visit :=
  match x.value with
  | .node i =>
    if i ∈ x.ancestors then []
    else (h[i]?.elim [] (·.partsAt size d)).map fun w => ⟨i :: x.ancestors, w⟩
  | _ => []

/-- The values at the end of the path, whatever its length. -/
def reached (h : Heap) (size : Nat) : List Step → Visit → List Visit
  | [], x => [x]
  | d :: path, x => (h.stepInto size d x).flatMap (h.reached size path)

/-- A value of the kind is at the end of the path, and the levels suffice to inspect it. -/
def InspectedAt (h : Heap) (size levels : Nat) (x : Visit) (path : List Step) (k : Kind) : Prop :=
  path.length ≤ levels ∧ ∃ y ∈ h.reached size path x, (h.view y.value).kind = k

/-- The path ends at elements of sequences that are on the last level, so that no element is
inspected. -/
def WithheldAt (h : Heap) (size levels : Nat) (x : Visit) (path : List Step) : Prop :=
  path.length = levels + 1 ∧ path.getLast? = some .element ∧ h.reached size path x ≠ []

variable {h : Heap} {size levels : Nat} {d : Step} {path : List Step} {k : Kind} {x : Visit}

theorem mem_stepInto {y : Visit} : y ∈ h.stepInto size d x ↔ ∃ i c, x.value = .node i ∧
    i ∉ x.ancestors ∧ h[i]? = some c ∧ ∃ w ∈ c.partsAt size d, ⟨i :: x.ancestors, w⟩ = y := by
  rw [stepInto]
  split
  · rename_i i hi
    rw [hi]
    split
    · rename_i hin
      simp [hin]
    · rename_i hin
      cases hc : h[i]? <;> simp [hin, hc]
  · rename_i hne
    simp only [List.not_mem_nil, false_iff]
    rintro ⟨i, _, hi, -⟩
    exact hne i hi

theorem stepInto_of_scalar {name : String} (hx : h.view x.value = .scalar name) :
    h.stepInto size d x = [] := by
  apply List.eq_nil_iff_forall_not_mem.mpr
  intro y hy
  obtain ⟨i, c, hi, -, hc, -⟩ := mem_stepInto.mp hy
  rw [hi, view, hc] at hx
  cases c <;> cases hx

/-- The names on a path are names of keys. -/
theorem exists_label_of_reached {name : String}
    (hx : h.reached size (path ++ [.field name]) x ≠ []) :
    ∃ t entries, .mapping t entries ∈ h.toList ∧ name ∈ entries.map (·.1.label) := by
  induction path generalizing x with
  | nil =>
    obtain ⟨y, hy⟩ := List.exists_mem_of_ne_nil _ hx
    obtain ⟨z, hz, -⟩ := List.mem_flatMap.mp hy
    obtain ⟨i, c, -, -, hc, w, hw, -⟩ := mem_stepInto.mp hz
    have hmem : c ∈ h.toList := List.mem_of_getElem? (Array.getElem?_toList.trans hc)
    cases c with
    | sequence t items => cases hw
    | mapping t entries =>
      exact ⟨t, entries, hmem, mem_labels_of_first? (Option.mem_toList.mp hw)⟩
  | cons d path ih =>
    obtain ⟨y, hy⟩ := List.exists_mem_of_ne_nil _ hx
    obtain ⟨z, -, hy⟩ := List.mem_flatMap.mp hy
    exact ih (List.ne_nil_of_mem hy)

theorem inspectedAt_cons : h.InspectedAt size (levels + 1) x (d :: path) k ↔
    ∃ y ∈ h.stepInto size d x, h.InspectedAt size levels y path k := by
  simp only [InspectedAt, reached, List.length_cons, Nat.add_le_add_iff_right, List.mem_flatMap]
  grind

theorem withheldAt_cons : h.WithheldAt size (levels + 1) x (d :: path) ↔
    ∃ y ∈ h.stepInto size d x, h.WithheldAt size levels y path := by
  simp only [WithheldAt, reached, List.length_cons, ne_eq, List.flatMap_eq_nil_iff, not_forall]
  have hlast : path.length = levels + 1 → (d :: path).getLast? = path.getLast? := by
    intro hlen
    obtain ⟨d', path, rfl⟩ := List.exists_cons_of_length_eq_add_one hlen
    exact List.getLast?_cons_cons
  grind

theorem withheldAt_zero_cons : h.WithheldAt size 0 x (d :: path) ↔
    path = [] ∧ d = .element ∧ h.stepInto size d x ≠ [] := by
  cases path <;> simp [WithheldAt, reached]

end Heap

/-! ## Reports -/

namespace Report

theorem shape?_ofEntries (f : Value → Report) (entries : List (Scalar × Value)) (name : String) :
    Field.shape? (ofEntries f [] entries).1 name =
      (first? entries name).map fun w => (f w).shape := by
  rw [Survey.fields_ofEntries, Survey.shape?_foldl_addField]

end Report

namespace Survey

variable {S : Survey} {size levels depth : Nat} {d : Step} {path : List Step} {k : Kind} {x : Visit}

theorem hasElement_exact_iff (hsize : 0 < size) {items : Array Value} {s : Shape} :
    (⟨.exact items.size, s, false⟩ : ArrayOf Shape).hasElement = true ↔
      sampled items size ≠ [] := by
  rw [ArrayOf.hasElement_eq_true_iff, ne_eq, ne_eq, sampled_eq_nil_iff, Extent.bounds_exact]
  simp only [Int.natCast_eq_zero, and_true]
  omega

/-- What is inspected of a container is merged one step inside. -/
theorem step?_reportContainer (hsize : 0 < size) (inner : Option (Value → Report)) (c : Container) :
    (S.reportContainer size inner c).shape.step? d = match inner with
      | none => if d = .element ∧ c.partsAt size d ≠ [] then some S.uninspected else none
      | some f => foldFirst? merge ((c.partsAt size d).map fun w => (f w).shape) := by
  have hkind : (S.reportContainer size inner c).shape.kind ≠ .choice := by
    cases c <;> cases inner <;> exact nofun
  rw [step?_of_kind_ne_choice hkind]
  cases c with
  | sequence t items =>
    cases d with
    | element =>
      have hstep : ∀ s : Shape, part? .element (.array ⟨.exact items.size, s, false⟩) =
          if sampled items size ≠ [] then some s else none := by
        intro s
        simp only [part?, hasElement_exact_iff hsize]
      cases inner with
      | none => exact (hstep S.uninspected).trans (by simp [Container.partsAt])
      | some f =>
        refine (hstep ((foldFirst? merge (((sampled items size).map f).map Report.shape)).getD
          S.uninspected)).trans ?_
        rw [Container.partsAt, List.map_map]
        cases sampled items size <;> rfl
    | field name => cases inner <;> rfl
  | mapping t entries =>
    cases d with
    | element => cases inner <;> rfl
    | field name =>
      cases inner with
      | none => rfl
      | some f =>
        show Field.shape? (Report.ofEntries f [] entries).1 name = _
        rw [Report.shape?_ofEntries, Container.partsAt]
        cases first? entries name <;> rfl

theorem step?_collapsed (c : Container) : (S.collapsed c).step? d = none := by
  have hkind : (S.collapsed c).kind ≠ .choice := by cases c <;> exact nofun
  rw [step?_of_kind_ne_choice hkind]
  cases c with
  | sequence t items =>
    cases d with
    | element => simp [collapsed, part?, ArrayOf.hasElement]
    | field name => rfl
  | mapping t entries => cases d <;> rfl

theorem step?_reportWith (hsize : 0 < size) (inner : Option (List NodeId → Value → Report)) :
    (S.reportWith size inner depth x.ancestors x.value).shape.step? d = match inner with
      | none =>
        if d = .element ∧ S.heap.stepInto size d x ≠ [] then some S.uninspected else none
      | some f => foldFirst? merge
          ((S.heap.stepInto size d x).map fun y => (f y.ancestors y.value).shape) := by
  refine shape_reportWith_cases (Q := fun s => s.step? d = _) (fun name hname => ?_)
    (fun i c hx hc hin => ?_) (fun i c hx hc hin => ?_)
  · have hkind : (scalar name).kind ≠ d.kind := by cases d <;> simp [kind, Step.kind]
    have hne : (scalar name).kind ≠ .choice := by simp [kind]
    rw [step?_of_kind_ne_choice hne, part?_of_kind_ne hkind, Heap.stepInto_of_scalar hname]
    cases inner <;> simp [foldFirst?]
  · have hnone : S.heap.stepInto size d x = [] := by
      rw [Heap.stepInto, hx]
      exact if_pos hin
    rw [step?_collapsed, hnone]
    cases inner <;> simp [foldFirst?]
  · have hparts : S.heap.stepInto size d x =
        (c.partsAt size d).map fun w => ⟨i :: x.ancestors, w⟩ := by
      simp only [Heap.stepInto, hx, if_neg hin, hc, Option.elim_some]
    rw [hparts, step?_reportContainer hsize]
    cases inner with
    | none => simp
    | some f => simp [Function.comp_def]

theorem kindsAt_nil_report : (S.report size levels depth x.ancestors x.value).shape.kindsAt [] =
    [(S.heap.view x.value).kind] := by
  have hne : (S.report size levels depth x.ancestors x.value).shape.kind ≠ .choice :=
    kind_report_ne_choice levels depth x.ancestors x.value
  show kinds (alternatives _) = _
  rw [alternatives_eq_singleton hne]
  exact congrArg (fun k => [k]) (kind_report levels depth x.ancestors x.value)

/-- The induction is on the levels. A path goes on from a container to its parts, which have one
level less; without levels left it ends at the placeholder. -/
theorem mem_kindsAt_report (hS : S.uninspected = .null) (hsize : 0 < size) :
    k ∈ (S.report size levels depth x.ancestors x.value).shape.kindsAt path ↔
      S.heap.InspectedAt size levels x path k ∨
        k = .scalar "null" ∧ S.heap.WithheldAt size levels x path := by
  induction levels generalizing depth x path with
  | zero =>
    cases path with
    | nil => simp [kindsAt_nil_report, Heap.InspectedAt, Heap.WithheldAt, Heap.reached, eq_comm]
    | cons d path =>
      -- without levels left, only elements are told of, and only by what holds their place
      have hnot : ¬ S.heap.InspectedAt size 0 x (d :: path) k := fun h => absurd h.1 (by simp)
      rw [kindsAt_cons, report, step?_reportWith hsize none, Heap.withheldAt_zero_cons, hS]
      simp only [hnot, false_or]
      split
      · rename_i h
        rw [Option.elim_some, mem_kindsAt_null]
        grind
      · rename_i h
        simp only [Option.elim_none, List.not_mem_nil, false_iff]
        grind
  | succ levels ih =>
    cases path with
    | nil => simp [kindsAt_nil_report, Heap.InspectedAt, Heap.WithheldAt, Heap.reached, eq_comm]
    | cons d path =>
      have hwf : ∀ s ∈ (S.heap.stepInto size d x).map fun y =>
          (S.report size levels (depth + 1) y.ancestors y.value).shape, s.WellFormed := by
        intro s hs
        obtain ⟨y, -, rfl⟩ := List.mem_map.mp hs
        exact wellFormed_report (hS ▸ wellFormed_scalar "null") _ _ _ _
      rw [kindsAt_cons, report, step?_reportWith hsize (some _), mem_kindsAt_foldFirst? hwf,
        Heap.inspectedAt_cons, Heap.withheldAt_cons]
      simp only [List.mem_map, exists_exists_and_eq_and, ih]
      grind

/-- The keys in a report were inspected, and so their objects lie above the last level. -/
theorem inspected_of_mem_fields (hS : S.uninspected = .null) (hsize : 0 < size) {t : Shape}
    {o : ObjectOf Shape} {f : Field Shape}
    (ht : (S.report size levels depth x.ancestors x.value).shape.at? path = some t)
    (ho : .object o ∈ t.alternatives) (hf : f ∈ o.fields) :
    path.length < levels ∧ S.heap.reached size (path ++ [.field f.name]) x ≠ [] := by
  have hreg := regular_report hS size levels depth x.ancestors x.value
  have hto : t.Regular := hreg.at? ht
  have hstep : t.step? (.field f.name) = some f.shape :=
    (step?_of_mem hto.self.flat ho rfl).trans
      (Field.shape?_of_mem (hto.alternative ho).self.1 hf)
  have hpath : at? (path ++ [.field f.name])
      (S.report size levels depth x.ancestors x.value).shape ≠ none := by
    simp [at?_append, ht, at?, hstep]
  obtain ⟨k, hk⟩ := (exists_mem_kindsAt_iff hreg).mpr hpath
  rcases (mem_kindsAt_report hS hsize).mp hk with ⟨hlen, y, hy, -⟩ | ⟨-, -, hlast, -⟩
  · rw [List.length_append, List.length_singleton] at hlen
    exact ⟨hlen, List.ne_nil_of_mem hy⟩
  · simp at hlast

/-- A value of the kind is inspected at the end of the path, or the kind is that of the placeholder
and the elements there are withheld. -/
def Tells (S : Survey) (o : Options) (v : Value) (path : List Step) (k : Kind) : Prop :=
  S.heap.InspectedAt o.sampleSize (S.deepest o) ⟨[], v⟩ path k ∨
    k = .scalar "null" ∧ S.heap.WithheldAt o.sampleSize (S.deepest o) ⟨[], v⟩ path

theorem exists_infer_tells (hS : S.uninspected = .null) (hunlimited : S.digitLimit = none)
    (base : Option Options) (sampleSize maxDepth : Option Int) (v : Value) : ∃ o s,
      (∀ log, (∃ log', (Request.ofIntegers base sampleSize maxDepth).options.run log = .ok o log') ∧
        ∃ log', (S.infer (.ofIntegers base sampleSize maxDepth) v).run log = .ok s log') ∧
      s.Regular ∧ ∀ path k, k ∈ s.kindsAt path ↔ S.Tells o v path k := by
  let o : Options := .clamp (sampleSize.getD (base.getD {}).sampleSize)
    (maxDepth.getD (base.getD {}).maxDepth)
  have ho := Request.options_ofIntegers_run base sampleSize maxDepth
  refine ⟨o, (S.report o.sampleSize (S.deepest o) 0 [] v).shape, fun log => ⟨ho log, ?_⟩,
    regular_report hS _ _ _ _ _,
    fun _ _ => mem_kindsAt_report (x := ⟨[], v⟩) hS o.sampleSize_pos⟩
  obtain ⟨log', hlog⟩ := ho log
  exact infer_run hlog (namesKeys_of_unlimited hunlimited)

end Survey

/-- **Shapes tell what was inspected, and take what was withheld for null.**  An array of an
inferred shape describes an element just where elements were inspected, or where sequences that are
not empty lie on the last level of the survey. At each position the merge of two inferred shapes has
the kinds of the values that one of the surveys inspected there, and null where one of them withheld
elements. -/
theorem kinds_of_inspected (h : Heap) (limit : Int) (base base' : Option Options)
    (sampleSize sampleSize' maxDepth maxDepth' : Option Int) (v w : Value) :
    let S : Survey := { heap := h, recursionLimit := limit }
    let r : Request := .ofIntegers base sampleSize maxDepth
    let r' : Request := .ofIntegers base' sampleSize' maxDepth'
    ∃ o o' s t,
      (∀ log, (∃ log', r.options.run log = .ok o log') ∧
        ∃ log', (S.infer r v).run log = .ok s log') ∧
      (∀ log, (∃ log', r'.options.run log = .ok o' log') ∧
        ∃ log', (S.infer r' w).run log = .ok t log') ∧
      (∀ path u a, s.at? path = some u → .array a ∈ u.alternatives →
        (a.hasElement = true ↔
          (∃ k, h.InspectedAt o.sampleSize (S.deepest o) ⟨[], v⟩ (path ++ [.element]) k) ∨
            h.WithheldAt o.sampleSize (S.deepest o) ⟨[], v⟩ (path ++ [.element]))) ∧
      (∀ path k, k ∈ s.kindsAt path ↔ S.Tells o v path k) ∧
      ∀ path k, k ∈ (merge s t).kindsAt path ↔ S.Tells o v path k ∨ S.Tells o' w path k := by
  intro S r r'
  obtain ⟨o, s, hrun, hs, htells⟩ := S.exists_infer_tells rfl rfl base sampleSize maxDepth v
  obtain ⟨o', t, hrun', ht, htells'⟩ := S.exists_infer_tells rfl rfl base' sampleSize' maxDepth' w
  refine ⟨o, o', s, t, hrun, hrun', fun path u a hu ha => ?_, htells, fun path k => ?_⟩
  · rw [hasElement_iff_exists_kindsAt hs hu ha]
    simp only [htells, Survey.Tells, exists_or, exists_eq_left]
    exact Iff.rfl
  · rw [mem_kindsAt_merge hs.wellFormed ht.wellFormed, htells, htells']

/-- The array of a list on the last level describes an element, though none was inspected. -/
theorem kinds_of_inspected_lastLevel :
    let h : Heap := #[.sequence "list" #[.scalar (.int 1)]]
    let S : Survey := { heap := h }
    let a : ArrayOf Shape := ⟨.exact 1, .null, false⟩
    ∃ o o' t,
      (∃ log, (S.infer (.ofIntegers none none (some 0)) (.node 0)).run #[] = .ok (.array a) log) ∧
      (∃ log, (S.infer (.ofIntegers none none (some 1)) (.node 0)).run #[] = .ok t log) ∧
      (Shape.array a).at? [] = some (.array a) ∧ .array a ∈ (Shape.array a).alternatives ∧
      a.hasElement = true ∧
      ((∃ k, h.InspectedAt o.sampleSize (S.deepest o) ⟨[], .node 0⟩ [.element] k) ∨
        h.WithheldAt o.sampleSize (S.deepest o) ⟨[], .node 0⟩ [.element]) ∧
      ∀ k, k ∈ (merge (.array a) t).kindsAt [.element] ↔
        S.Tells o (.node 0) [.element] k ∨ S.Tells o' (.node 0) [.element] k := by
  intro h S a
  obtain ⟨o, o', s, t, hs, ht, harray, -, hmerge⟩ := kinds_of_inspected h 1000 none none none none
    (some 0) (some 1) (.node 0) (.node 0)
  have hrun : (S.infer (.ofIntegers none none (some 0)) (.node 0)).run #[] = .ok (.array a) #[] :=
    rfl
  obtain ⟨log, hlog⟩ := (hs #[]).2
  cases hrun.symm.trans hlog
  have hmem : Shape.array a ∈ (Shape.array a).alternatives := List.mem_singleton_self _
  refine ⟨o, o', t, ⟨#[], hrun⟩, (ht #[]).2, rfl, hmem, rfl, ?_, hmerge [.element]⟩
  exact (harray [] (.array a) a rfl hmem).mp rfl

/-- A list of one number. The first survey withholds its element, and its array describes one all
the same. The second survey inspects the element, so that the merge has null for the first. -/
theorem withheld_element_merged :
    let h : Heap := #[.sequence "list" #[.scalar (.int 1)]]
    let S : Survey := { heap := h }
    let a : ArrayOf Shape := ⟨.exact 1, .null, false⟩
    let b : ArrayOf Shape := ⟨.exact 1, .number, false⟩
    (S.infer (.ofIntegers none none (some 0)) (.node 0)).run #[] = .ok (.array a) #[] ∧
      a.hasElement = true ∧
      (∀ size k, ¬ h.InspectedAt size 0 ⟨[], .node 0⟩ [.element] k) ∧
      (S.infer (.ofIntegers none none (some 1)) (.node 0)).run #[] = .ok (.array b) #[] ∧
      merge (.array a) (.array b) = .array ⟨.range 1 1, .choice [.null, .number], false⟩ ∧
      ∀ y ∈ h.reached 100 [.element] ⟨[], .node 0⟩, (h.view y.value).kind = .scalar "number" := by
  refine ⟨rfl, rfl, fun _ _ hinspected => absurd hinspected.1 (by decide), rfl, ?_, by decide⟩
  rw [merge_eq]
  rfl

end JsonShape
