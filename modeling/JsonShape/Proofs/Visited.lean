import JsonShape.Proofs.Outline

/-!
# A thumbnail reveals only what was visited

`Alike h h' size levels v w` says that `v` and `w`, each in its heap, agree in all that a survey
visits: the classes of scalars, the lengths of sequences and the elements that are sampled, and the
names of mappings with the value that counts under each, down to the last level.

* `outline_of_alike`: values that are alike have the same outline;
* `thumbnail_of_alike`: so inference and thumbnail cannot tell them apart.
-/

namespace JsonShape

open Shape

/-! ## Values that are alike -/

/-- The values look alike, and their parts that count are related by `inner`, if they are
inspected. -/
def AlikeWith (h h' : Heap) (size : Nat) (inner : Option (Value → Value → Prop)) (v w : Value) :
    Prop :=
  match h.view v, h'.view w with
  | .scalar name, .scalar name' => name = name'
  | .sequence xs, .sequence ys => xs.size = ys.size ∧ ∀ R, inner = some R →
    ∀ i ∈ evenlySpaced xs.size size, ∀ x y, xs[i]? = some x → ys[i]? = some y → R x y
  | .mapping es, .mapping es' => ∀ R, inner = some R →
    (es.map (·.1.label)).eraseDups = (es'.map (·.1.label)).eraseDups ∧
      ∀ name x y, first? es name = some x → first? es' name = some y → R x y
  | _, _ => False

/-- The values are alike, with the number of levels to inspect. -/
def Alike (h h' : Heap) (size : Nat) : Nat → Value → Value → Prop
  | 0 => AlikeWith h h' size none
  | levels + 1 => AlikeWith h h' size (some (Alike h h' size levels))

/-! ## The same outline -/

theorem map_sampled_congr {f g : Value → Shape} {xs ys : Array Value} {size : Nat}
    (hlen : xs.size = ys.size)
    (h : ∀ i ∈ evenlySpaced xs.size size, ∀ x y, xs[i]? = some x → ys[i]? = some y → f x = g y) :
    (sampled xs size).map f = (sampled ys size).map g := by
  rw [sampled, sampled, ← hlen, List.map_filterMap, List.map_filterMap]
  refine List.filterMap_congr fun i hi => ?_
  have hlt := lt_of_mem_evenlySpaced hi
  obtain ⟨x, hx⟩ : ∃ x, xs[i]? = some x := ⟨_, Array.getElem?_eq_getElem hlt⟩
  obtain ⟨y, hy⟩ : ∃ y, ys[i]? = some y := ⟨_, Array.getElem?_eq_getElem (hlen ▸ hlt)⟩
  rw [hx, hy, Option.map_some, Option.map_some, h i hi x y hx hy]

namespace Survey

variable {S S' : Survey} {size : Nat}

theorem outlineWith_of_alikeWith (hS : S.uninspected = S'.uninspected)
    {related : Option (Value → Value → Prop)} {inner inner' : Option (Value → Shape)}
    (hi : Option.Rel (fun f g => ∃ R, related = some R ∧ ∀ x y, R x y → f x = g y) inner inner')
    {v w : Value} (h : AlikeWith S.heap S'.heap size related v w) :
    S.outlineWith size inner v = S'.outlineWith size inner' w := by
  unfold AlikeWith at h
  unfold outlineWith
  split at h
  · rename_i name name' hv hw
    simp only [hv, hw, h]
  · rename_i xs ys hv hw
    obtain ⟨hlen, hparts⟩ := h
    have helement : S.outlineElement size inner xs = S'.outlineElement size inner' ys := by
      cases hi with
      | none => exact outlineElement_congr hS .none
      | some hfg =>
        obtain ⟨R, hR, hfg⟩ := hfg
        refine outlineElement_congr hS (.some (map_sampled_congr hlen fun i hi x y hx hy => ?_))
        exact hfg x y (hparts R hR i hi x y hx hy)
    simp only [hv, hw, hlen, helement]
  · rename_i es es' hv hw
    have hfields : outlineFields inner es = outlineFields inner' es' := by
      cases hi with
      | none => rfl
      | some hfg =>
        obtain ⟨R, hR, hfg⟩ := hfg
        obtain ⟨hn, hparts⟩ := h R hR
        exact foldl_addField_congr hn fun name x y hx hy => hfg x y (hparts name x y hx hy)
    simp only [hv, hw, hfields]
  · exact h.elim

/-- Nothing but what is compared in `Alike` has an influence on the outline. -/
theorem outline_of_alike (S S' : Survey) (hS : S.uninspected = S'.uninspected) (levels : Nat)
    {v w : Value} (h : Alike S.heap S'.heap size levels v w) :
    S.outline size levels v = S'.outline size levels w := by
  induction levels generalizing v w with
  | zero => exact outlineWith_of_alikeWith hS .none h
  | succ levels ih =>
    exact outlineWith_of_alikeWith hS (.some ⟨Alike S.heap S'.heap size levels, rfl, fun _ _ => ih⟩)
      h

end Survey

/-- **A thumbnail reveals only what was visited.**  Surveys of acyclic values that are alike succeed
with one shape and one text. So contents of scalars, elements that are not sampled, values under
the name of an earlier key and all that is below the depth limit have no influence on either. -/
theorem thumbnail_of_alike (h h' : Heap) (limit : Int) (r : Request) {o : Options}
    {log log' : Array Record} (ho : r.options.run log = .ok o log') {v w : Value}
    (hv : h.Acyclic v) (hw : h'.Acyclic w)
    (halike : Alike h h' o.sampleSize (min o.maxDepth (greatestDepth limit)) v w) :
    let S : Survey := { heap := h, recursionLimit := limit }
    let S' : Survey := { heap := h', recursionLimit := limit }
    ∃ s text, (∃ log₁, (S.infer r v).run log = .ok s log₁) ∧
      (∃ log₁, (S'.infer r w).run log = .ok s log₁) ∧
      (∃ log₁, (S.thumbnail r v).run log = .ok text log₁) ∧
      ∃ log₁, (S'.thumbnail r w).run log = .ok text log₁ := by
  intro S S'
  obtain ⟨log₁, hinfer⟩ :=
    Survey.infer_run_of_acyclic (S := S) ho hv (Survey.namesKeys_of_unlimited rfl)
  obtain ⟨log₂, hinfer'⟩ :=
    Survey.infer_run_of_acyclic (S := S') ho hw (Survey.namesKeys_of_unlimited rfl)
  have hsame : S.outline o.sampleSize (min o.maxDepth (greatestDepth limit)) v =
      S'.outline o.sampleSize (min o.maxDepth (greatestDepth limit)) w :=
    S.outline_of_alike S' rfl _ halike
  change (S'.infer r w).run log = .ok
    (S'.outline o.sampleSize (min o.maxDepth (greatestDepth limit)) w) log₂ at hinfer'
  rw [← hsame] at hinfer'
  exact ⟨_, _, ⟨log₁, hinfer⟩, ⟨log₂, hinfer'⟩, Survey.thumbnail_run ho hinfer,
    Survey.thumbnail_run ho hinfer'⟩

/-- Another text, another third element of three of which two are sampled, another value under the
second key with the name `"1"`, and another element two levels down. -/
theorem thumbnail_of_alike_unseen :
    let h : Heap := #[.sequence "list" #[.scalar (.int 1)],
      .mapping "dict" [(.int 1, .node 0), (.text "1", .scalar .null)],
      .sequence "list" #[.node 1, .scalar (.text "x"), .scalar (.bool true)]]
    let h' : Heap := #[.sequence "tuple" #[.scalar .null],
      .mapping "dict" [(.text "1", .node 0), (.int 1, .node 0)],
      .sequence "list" #[.node 1, .scalar (.text "y"), .node 1]]
    let r : Request := .ofIntegers none (some 2) (some 2)
    let S : Survey := { heap := h }
    let S' : Survey := { heap := h' }
    let s : Shape := .array ⟨.exact 3, .choice [.object ⟨[⟨"1", .array ⟨.exact 1, .null, false⟩,
      false⟩], false⟩, .string], false⟩
    let text := "Array(3) of \x7b1: Array(1) of ...\x7d | string"
    (∃ log, (S.infer r (.node 2)).run #[] = .ok s log) ∧
      (∃ log, (S'.infer r (.node 2)).run #[] = .ok s log) ∧
      (∃ log, (S.thumbnail r (.node 2)).run #[] = .ok text log) ∧
      ∃ log, (S'.thumbnail r (.node 2)).run #[] = .ok text log := by
  intro h h' r S S' s text
  have hb : h.BottomUp := by decide
  have hb' : h'.BottomUp := by decide
  have ho : r.options.run #[] = .ok (.clamp 2 2) #[] := rfl
  have hrun : ∃ log, (S.infer r (.node 2)).run #[] = .ok s log :=
    Survey.infer_run ho (Survey.namesKeys_of_unlimited rfl)
  obtain ⟨_, hs⟩ := hrun
  obtain ⟨_, htext⟩ := Survey.thumbnail_run ho hs
  have hrender : s.render 2 = text := by decide +kernel
  replace htext : (S.thumbnail r (.node 2)).run #[] = .ok (s.render 2) _ := htext
  rw [hrender] at htext
  suffices halike : Alike h h' 2 2 (.node 2) (.node 2) by
    obtain ⟨s', text', ⟨log₁, hs₁⟩, hs₂, ⟨log₂, htext₁⟩, htext₂⟩ :=
      thumbnail_of_alike h h' 1000 r ho (hb.acyclic _) (hb'.acyclic _) halike
    cases hs.symm.trans hs₁
    cases htext.symm.trans htext₁
    exact ⟨⟨_, hs₁⟩, hs₂, ⟨_, htext₁⟩, htext₂⟩
  refine ⟨rfl, fun R hR i hi x y hx hy => ?_⟩
  cases hR
  have hsampled : i ∈ [0, 1] := hi
  rcases List.mem_pair.mp hsampled with rfl | rfl
  · cases hx
    cases hy
    show Alike h h' 2 1 (.node 1) (.node 1)
    refine fun R hR => ⟨by decide, fun name x y hx hy => ?_⟩
    cases hR
    have hname : name ∈ ["1", "1"] := mem_labels_of_first? hx
    obtain rfl : name = "1" := by simpa using hname
    cases hx
    cases hy
    exact ⟨rfl, nofun⟩
  · cases hx
    cases hy
    show Alike h h' 2 1 (.scalar (.text "x")) (.scalar (.text "y"))
    rfl

end JsonShape
