/-!
# Sampling

Which elements of a sequence are inspected: all of a sequence that is short enough, and otherwise a
fixed number of evenly spaced ones.
-/

namespace JsonShape

/-- At most `size` ascending indices into a sequence of the given length. -/
def evenlySpaced (length size : Nat) : List Nat :=
  if length ≤ size then List.range length
  else (List.range size).map fun i => i * length / size

/-- Sampling for counts of any sign; a negative one counts as zero. -/
def evenlySpacedOfInt (length size : Int) : List Nat := evenlySpaced length.toNat size.toNat

theorem evenlySpaced_of_le {length size : Nat} (h : length ≤ size) :
    evenlySpaced length size = List.range length := if_pos h

theorem evenlySpaced_of_lt {length size : Nat} (h : size < length) :
    evenlySpaced length size = (List.range size).map fun i => i * length / size :=
  if_neg (Nat.not_le_of_lt h)

theorem lt_of_mem_evenlySpaced {length size i : Nat} (h : i ∈ evenlySpaced length size) :
    i < length := by
  rcases Nat.lt_or_ge size length with hlt | hle
  · rw [evenlySpaced_of_lt hlt] at h
    obtain ⟨j, hj, rfl⟩ := List.mem_map.1 h
    have hj := List.mem_range.1 hj
    rw [Nat.div_lt_iff_lt_mul (by omega), Nat.mul_comm]
    exact Nat.mul_lt_mul_of_pos_left hj (by omega)
  · rw [evenlySpaced_of_le hle] at h
    exact List.mem_range.1 h

theorem evenlySpaced_eq_nil_iff {length size : Nat} :
    evenlySpaced length size = [] ↔ length = 0 ∨ size = 0 := by
  unfold evenlySpaced
  split <;> simp <;> omega

end JsonShape
