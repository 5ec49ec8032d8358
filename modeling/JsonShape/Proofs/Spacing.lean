import Mathlib.Algebra.Order.Floor.Div
import Mathlib.Data.List.Range
import JsonShape.Sample

/-!
# Even spacing

The indices of a sample divide a long sequence into stretches: each begins at an index and goes on
up to the next one, the last up to the end of the sequence. `StepsEvenly` says that no two stretches
differ by more than one.

* `stepsEvenly_evenlySpaced`: the indices of a sample have this property;
* `StepsEvenly.pairwise_lt`: so they ascend, and all of them are before the end;
* `StepsEvenly.exists_near`: and no position is further behind an index than one stretch, also at
  the end of the sequence;
* `evenly_spaced_indices`: all of this, and which indices a short sequence gives.
-/

namespace JsonShape

/-- The indices lead from the start of a sequence to its end. Each step, the last included, is the
length of the sequence over the number of indices, rounded down or up. -/
structure StepsEvenly (length size : Nat) (indices : List Nat) : Prop where
  count : indices.length = size
  first : indices.head? = some 0
  steps : (indices ++ [length]).IsChain fun i j =>
    j = i + length / size ∨ j = i + length ⌈/⌉ size

/-! ## What even steps come to -/

/-- Where the steps are bounded, no position before the end is as far as the bound behind the last
index that is not past it. -/
theorem exists_mem_le_lt {last bound i p : Nat} {is : List Nat}
    (h : (i :: is ++ [last]).IsChain fun i j => j ≤ i + bound) (hi : i ≤ p) (hp : p < last) :
    ∃ j ∈ i :: is, j ≤ p ∧ p < j + bound := by
  induction is generalizing i with
  | nil =>
    have hlast : last ≤ i + bound := by simpa using h
    exact ⟨i, List.mem_cons_self, hi, Nat.lt_of_lt_of_le hp hlast⟩
  | cons next is ih =>
    obtain ⟨hnext, hrest⟩ := List.isChain_cons_cons.mp h
    -- the position lies on this step, or the next index is not past it either
    by_cases hle : next ≤ p
    · obtain ⟨j, hj, hnear⟩ := ih hrest hle
      exact ⟨j, List.mem_cons_of_mem i hj, hnear⟩
    · exact ⟨i, List.mem_cons_self, hi, by omega⟩

theorem div_le_ceilDiv (a b : Nat) : a / b ≤ a ⌈/⌉ b := by
  rw [← Nat.floorDiv_eq_div]
  exact floorDiv_le_ceilDiv

namespace StepsEvenly

variable {length size : Nat} {indices : List Nat} (h : StepsEvenly length size indices)
include h

theorem pairwise_lt (hsize : 0 < size) (hle : size ≤ length) :
    (indices ++ [length]).Pairwise (· < ·) := by
  have hfloor : 0 < length / size := Nat.div_pos hle hsize
  have hceil := div_le_ceilDiv length size
  refine List.isChain_iff_pairwise.mp (h.steps.imp fun i j hstep => ?_)
  rcases hstep with rfl | rfl <;> omega

theorem exists_near {p : Nat} (hp : p < length) :
    ∃ i ∈ indices, i ≤ p ∧ p < i + length ⌈/⌉ size := by
  obtain ⟨is, rfl⟩ : ∃ is, indices = 0 :: is := List.head?_eq_some_iff.mp h.first
  have hceil := div_le_ceilDiv length size
  refine exists_mem_le_lt (h.steps.imp fun i j hstep => ?_) (Nat.zero_le p) hp
  rcases hstep with rfl | rfl <;> omega

end StepsEvenly

/-! ## The steps of a sample -/

/-- A sum has the quotient of one summand, and that of the other one rounded down or up. -/
theorem add_div_eq_or (a b : Nat) {c : Nat} (hc : 0 < c) :
    (a + b) / c = a / c + b / c ∨ (a + b) / c = a / c + b ⌈/⌉ c := by
  have hfloor : a / c + b / c ≤ (a + b) / c := Nat.div_add_div_le_add_div
  have hceil : (a + b) / c ≤ a / c + b ⌈/⌉ c := calc
    (a + b) / c ≤ (a + c * (b ⌈/⌉ c)) / c :=
      Nat.div_le_div_right (Nat.add_le_add_left ((ceilDiv_le_iff_le_mul hc).mp le_rfl) a)
    _ = a / c + b ⌈/⌉ c := Nat.add_mul_div_left a _ hc
  have hnear : b ⌈/⌉ c ≤ b / c + 1 :=
    (ceilDiv_le_iff_le_mul hc).mpr (Nat.le_of_lt (Nat.lt_mul_div_succ b hc))
  omega

section Long

variable {length size : Nat} (hlt : size < length)
include hlt

/-- The end of the sequence is where one more index would be. -/
theorem evenlySpaced_concat (hsize : 0 < size) :
    evenlySpaced length size ++ [length] =
      (List.range (size + 1)).map fun i => i * length / size := by
  rw [evenlySpaced_of_lt hlt, List.range_succ, List.map_append, List.map_singleton,
    Nat.mul_div_cancel_left length hsize]

theorem stepsEvenly_evenlySpaced (hsize : 0 < size) :
    StepsEvenly length size (evenlySpaced length size) where
  count := by rw [evenlySpaced_of_lt hlt, List.length_map, List.length_range]
  first := by
    obtain ⟨n, rfl⟩ := Nat.exists_eq_add_one.mpr hsize
    rw [evenlySpaced_of_lt hlt, List.range_succ_eq_map]
    simp
  steps := by
    rw [evenlySpaced_concat hlt hsize, List.isChain_map, List.isChain_range_succ]
    intro i _
    rw [Nat.succ_mul]
    exact add_div_eq_or (i * length) length hsize

end Long

/-- **Even spacing.**  A sequence that is longer than the sample gives as many indices as the sample
has places. They begin at the start of the sequence, ascend and stay below its length, and all steps
from one index to the next, and from the last one to the end, are the length over the size of the
sample, rounded down or up. So each position is less than one step, rounded up, behind an index. A
sequence that is no longer than the sample gives each of its indices once. -/
theorem evenly_spaced_indices (length size : Int) :
    (1 ≤ size → size < length →
      StepsEvenly length.toNat size.toNat (evenlySpacedOfInt length size) ∧
      (evenlySpacedOfInt length size).Pairwise (· < ·) ∧
      (∀ i ∈ evenlySpacedOfInt length size, i < length.toNat) ∧
      ∀ p < length.toNat, ∃ i ∈ evenlySpacedOfInt length size,
        i ≤ p ∧ p < i + length.toNat ⌈/⌉ size.toNat) ∧
    (0 ≤ length → length ≤ size → evenlySpacedOfInt length size = List.range length.toNat) := by
  refine ⟨fun hsize hlt => ?_, fun _ hle => ?_⟩
  · have hpos : 0 < size.toNat := by omega
    have hlt : size.toNat < length.toNat := by omega
    have hsteps : StepsEvenly length.toNat size.toNat (evenlySpacedOfInt length size) :=
      stepsEvenly_evenlySpaced hlt hpos
    obtain ⟨hascending, -, hbelow⟩ :=
      List.pairwise_append.mp (hsteps.pairwise_lt hpos (Nat.le_of_lt hlt))
    exact ⟨hsteps, hascending, fun i hi => hbelow i hi _ (List.mem_singleton_self _),
      fun p hp => hsteps.exists_near hp⟩
  · exact evenlySpaced_of_le (Int.toNat_le_toNat hle)

/-- Steps of two and of three positions, and a sequence all of which is inspected. -/
theorem evenly_spaced_indices_uneven :
    let indices := [0, 2, 5, 7]
    (1 : Int) ≤ 4 ∧ (4 : Int) < 10 ∧ evenlySpacedOfInt 10 4 = indices ∧ StepsEvenly 10 4 indices ∧
      indices.Pairwise (· < ·) ∧ (∀ i ∈ indices, i < 10) ∧
      (∀ p < 10, ∃ i ∈ indices, i ≤ p ∧ p < i + 3) ∧
      (0 : Int) ≤ 3 ∧ (3 : Int) ≤ 4 ∧ evenlySpacedOfInt 3 4 = [0, 1, 2] := by
  intro indices
  obtain ⟨hlong, -⟩ := evenly_spaced_indices 10 4
  obtain ⟨-, hshort⟩ := evenly_spaced_indices 3 4
  obtain ⟨hsteps, hascending, hbelow, hnear⟩ := hlong (by decide) (by decide)
  exact ⟨by decide, by decide, rfl, hsteps, hascending, hbelow, hnear, by decide, by decide,
    hshort (by decide) (by decide)⟩

end JsonShape
