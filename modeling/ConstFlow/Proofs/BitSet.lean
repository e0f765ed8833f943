import ConstFlow.BitSet

/-!
# Membership in bit sets

`contains_empty`, `contains_mark` and `contains_unmark` say what the three ways to make a set do to
`BitSet.contains`. They need enough words for the capacity (`BitSet.Sized`), which every set made
from `BitSet.empty` has. `bit_mark` and `bit_unmark` say it of the bits, beyond the capacity too.
-/

namespace ConstFlow

namespace BitSet

/-- There is a bit for every number below the capacity. -/
def Sized (s : BitSet) : Prop :=
  s.capacity ≤ 64 * s.words.size

theorem sized_empty (n : Nat) : (empty n).Sized := by
  simp only [Sized, empty, Array.size_replicate]
  omega

@[simp] theorem capacity_mark (s : BitSet) (i : Nat) : (s.mark i).capacity = s.capacity := by
  unfold mark
  split <;> rfl

@[simp] theorem capacity_unmark (s : BitSet) (i : Nat) : (s.unmark i).capacity = s.capacity := by
  unfold unmark
  split <;> rfl

theorem Sized.mark {s : BitSet} (h : s.Sized) (i : Nat) : (s.mark i).Sized := by
  unfold BitSet.mark
  split
  · simpa [Sized] using h
  · exact h

theorem Sized.unmark {s : BitSet} (h : s.Sized) (i : Nat) : (s.unmark i).Sized := by
  unfold BitSet.unmark
  split
  · simpa [Sized] using h
  · exact h

/-- The bit of a number, below the capacity or not. -/
def bit (s : BitSet) (i : Nat) : Bool :=
  (s.words[i / 64]?.getD 0#64).getLsbD (i % 64)

theorem contains_eq (s : BitSet) (i : Nat) : s.contains i = (decide (i < s.capacity) && s.bit i) :=
  rfl

theorem lt_capacity_of_contains {s : BitSet} {i : Nat} (h : s.contains i = true) :
    i < s.capacity := by
  rw [contains_eq, Bool.and_eq_true, decide_eq_true_eq] at h
  exact h.1

@[simp] theorem bit_empty (n i : Nat) : (empty n).bit i = false := by
  simp only [bit, empty, Array.getElem?_replicate]
  split <;> simp

@[simp] theorem contains_empty (n i : Nat) : (empty n).contains i = false := by
  simp [contains_eq]

/-- Two numbers with the same word and the same bit are the same. -/
theorem eq_of_div_mod {i j : Nat} (hd : j / 64 = i / 64) (hm : j % 64 = i % 64) : j = i := by
  rw [← Nat.div_add_mod j 64, ← Nat.div_add_mod i 64, hd, hm]

theorem bit_mark {s : BitSet} (hs : s.Sized) {i : Nat} (hi : i < s.capacity) (j : Nat) :
    (s.mark i).bit j = (decide (j = i) || s.bit j) := by
  have hsize : i / 64 < s.words.size := by
    unfold Sized at hs
    omega
  simp only [bit, mark, if_pos hi, Array.getElem?_modify]
  by_cases hw : i / 64 = j / 64
  · rw [if_pos hw, ← hw, Array.getElem?_eq_getElem hsize]
    simp only [Option.map_some, Option.getD_some, BitVec.getLsbD_or, BitVec.getLsbD_twoPow]
    by_cases hj : j = i
    · subst hj
      simp [Nat.mod_lt]
    · have hm : i % 64 ≠ j % 64 := fun h => hj (eq_of_div_mod hw.symm h.symm)
      simp [hj, hm]
  · rw [if_neg hw]
    have hj : j ≠ i := fun h => hw (by rw [h])
    simp [hj]

theorem bit_unmark {s : BitSet} {i : Nat} (hi : i < s.capacity) (j : Nat) :
    (s.unmark i).bit j = (!decide (j = i) && s.bit j) := by
  simp only [bit, unmark, if_pos hi, Array.getElem?_modify]
  by_cases hw : i / 64 = j / 64
  · rw [if_pos hw, ← hw]
    cases hword : s.words[i / 64]? with
    | none => simp
    | some word =>
      simp only [Option.map_some, Option.getD_some, BitVec.getLsbD_and, BitVec.getLsbD_not,
        BitVec.getLsbD_twoPow]
      by_cases hj : j = i
      · subst hj
        simp [Nat.mod_lt]
      · have hm : i % 64 ≠ j % 64 := fun h => hj (eq_of_div_mod hw.symm h.symm)
        simp [hj, hm, Nat.mod_lt]
  · rw [if_neg hw]
    have hj : j ≠ i := fun h => hw (by rw [h])
    simp [hj]

theorem contains_mark {s : BitSet} (hs : s.Sized) {i : Nat} (hi : i < s.capacity) (j : Nat) :
    (s.mark i).contains j = (decide (j = i) || s.contains j) := by
  rw [contains_eq, contains_eq, capacity_mark, bit_mark hs hi]
  by_cases hj : j = i
  · simp [hj, hi]
  · simp [hj]

theorem contains_unmark (s : BitSet) (i j : Nat) :
    (s.unmark i).contains j = (!decide (j = i) && s.contains j) := by
  by_cases hi : i < s.capacity
  · rw [contains_eq, contains_eq, capacity_unmark, bit_unmark hi, Bool.and_left_comm]
  · rw [unmark, if_neg hi]
    by_cases hj : j = i
    · simp [hj, contains_eq, hi]
    · simp [hj]

end BitSet

end ConstFlow
