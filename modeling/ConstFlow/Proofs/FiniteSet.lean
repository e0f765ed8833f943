import ConstFlow.Proofs.BitSet
import Mathlib.Data.Finset.Card
import Mathlib.Data.Finset.Filter
import Mathlib.Data.Finset.Range

/-!
# Bit sets as finite sets

`BitSet.toFinset` is the set of the numbers that a bit set contains. The views of a bit set do not
all go through `BitSet.contains`: counting, the test for emptiness and the comparison read whole
words, while the cursor stops at the capacity. They agree on sets that are `BitSet.Tight`, with just
the words that the capacity asks for and no bit set beyond it. Every operation keeps this.

* `next?_eq_none`, `next?_eq_some` : what the cursor finds;
* `mem_members`, `pairwise_members` : what it finds from the start to the end;
* `Tight.count_eq`, `Tight.isEmpty_iff`, `Tight.ext` : the views that read words;
* `Tight.onBits`, `Tight.replies` : one call and any calls, on a bit set and on a finite set;
* `refines_finset` : any calls from the start, seen through every view.
-/

namespace ConstFlow

namespace BitSet

/-- The numbers that a bit set contains. -/
def toFinset (s : BitSet) : Finset Nat :=
  {i ∈ Finset.range s.capacity | s.contains i = true}

/-- There are just the words that the capacity asks for, and no bit is set beyond it. -/
structure Tight (s : BitSet) : Prop where
  size : s.words.size = (s.capacity + 63) / 64
  unused : ∀ i, s.capacity ≤ i → s.bit i = false

section Views
variable {s t : BitSet} {c c' : Cursor} {i : Nat}

@[simp] theorem mem_toFinset : i ∈ s.toFinset ↔ s.contains i = true := by
  rw [toFinset, Finset.mem_filter, Finset.mem_range]
  exact and_iff_right_of_imp lt_capacity_of_contains

theorem bit_word {k j : Nat} (hk : k < s.words.size) (hj : j < 64) :
    s.bit (64 * k + j) = s.words[k].getLsbD j := by
  have hdiv : (64 * k + j) / 64 = k := by omega
  have hmod : (64 * k + j) % 64 = j := by omega
  rw [bit, hdiv, hmod, Array.getElem?_eq_getElem hk, Option.getD_some]

theorem bit_of_size_le (hi : 64 * s.words.size ≤ i) : s.bit i = false := by
  have hword : s.words.size ≤ i / 64 := by omega
  rw [bit, Array.getElem?_eq_none hword, Option.getD_none, BitVec.getLsbD_zero]

/-! ## The cursor -/

theorem contains_index (hword : c.word < s.words.size) (hbit : c.bit < 64)
    (hindex : c.index < s.capacity) : s.contains c.index = s.words[c.word].getLsbD c.bit := by
  rw [contains_eq, decide_eq_true hindex, Bool.true_and, Cursor.index, bit_word hword hbit]

/-- Where the cursor finds nothing, no member is left. -/
theorem next?_eq_none (hc : c.bit ≤ 64) (h : s.next? c = none) (hi : c.index ≤ i) :
    s.contains i = false := by
  fun_induction next? s c with
  | case1 => cases h
  | case2 c hword hbit hindex hset ih =>
    rcases Nat.eq_or_lt_of_le hi with rfl | hlt
    · rw [contains_index hword hbit hindex]
      exact Bool.eq_false_of_not_eq_true hset
    · exact ih hbit h hlt
  | case3 c hword hbit hindex =>
    rw [contains_eq, decide_eq_false (by omega), Bool.false_and]
  | case4 c hword hbit ih =>
    refine ih (Nat.zero_le _) h ?_
    simp only [Cursor.index, Cursor.nextWord] at hi ⊢
    omega
  | case5 c hword =>
    have hsize : 64 * s.words.size ≤ i := by
      simp only [Cursor.index] at hi
      omega
    rw [contains_eq, bit_of_size_le hsize, Bool.and_false]

/-- The cursor finds the first member at its place or behind, and stops behind it. -/
theorem next?_eq_some (hc : c.bit ≤ 64) (h : s.next? c = some (i, c')) :
    s.contains i = true ∧ c.index ≤ i ∧ (∀ j, c.index ≤ j → j < i → s.contains j = false) ∧
      c'.index = i + 1 ∧ c'.bit ≤ 64 := by
  fun_induction next? s c with
  | case1 c hword hbit hindex hset =>
    cases h
    refine ⟨(contains_index hword hbit hindex).trans hset, Nat.le_refl _, ?_, rfl, hbit⟩
    intro j hle hlt
    omega
  | case2 c hword hbit hindex hset ih =>
    obtain ⟨hmem, hle, hfirst, hplace⟩ := ih hbit h
    refine ⟨hmem, Nat.le_of_succ_le hle, fun j hj hlt => ?_, hplace⟩
    rcases Nat.eq_or_lt_of_le hj with rfl | hj
    · rw [contains_index hword hbit hindex]
      exact Bool.eq_false_of_not_eq_true hset
    · exact hfirst j hj hlt
  | case3 => cases h
  | case4 c hword hbit ih =>
    have hindex : c.nextWord.index = c.index := by
      simp only [Cursor.index, Cursor.nextWord]
      omega
    rw [← hindex]
    exact ih (Nat.zero_le _) h
  | case5 => cases h

theorem mem_membersFrom (hc : c.bit ≤ 64) :
    i ∈ s.membersFrom c ↔ c.index ≤ i ∧ s.contains i = true := by
  fun_induction membersFrom s c with
  | case1 c h =>
    rw [List.mem_nil_iff, false_iff, not_and, Bool.not_eq_true]
    exact next?_eq_none hc h
  | case2 c k c' h ih =>
    obtain ⟨hmem, hle, hfirst, hplace, hc'⟩ := next?_eq_some hc h
    rw [List.mem_cons, ih hc', hplace]
    constructor
    · rintro (rfl | ⟨hlt, hi⟩)
      · exact ⟨hle, hmem⟩
      · exact ⟨by omega, hi⟩
    · rintro ⟨hge, hi⟩
      by_contra hne
      rw [not_or, not_and'] at hne
      -- a member before the one found would have been found first
      have hbefore : i < k := by
        have := hne.2 hi
        omega
      rw [hfirst i hge hbefore] at hi
      cases hi

theorem pairwise_membersFrom (hc : c.bit ≤ 64) : (s.membersFrom c).Pairwise (· < ·) := by
  fun_induction membersFrom s c with
  | case1 => exact List.Pairwise.nil
  | case2 c k c' h ih =>
    obtain ⟨-, -, -, hplace, hc'⟩ := next?_eq_some hc h
    refine List.pairwise_cons.mpr ⟨fun i hi => ?_, ih hc'⟩
    have hge := ((mem_membersFrom hc').mp hi).1
    omega

theorem mem_members : i ∈ s.members ↔ s.contains i = true := by
  rw [members, mem_membersFrom (Nat.zero_le _)]
  exact and_iff_right (Nat.zero_le _)

theorem pairwise_members (s : BitSet) : s.members.Pairwise (· < ·) :=
  pairwise_membersFrom (Nat.zero_le _)

/-! ## Views of whole words -/

/-- Counting word by word is counting the bits of all words. -/
theorem foldr_bitCount (ws : List (BitVec 64)) : ws.foldr (fun w n => bitCount w + n) 0 =
    (List.range (64 * ws.length)).countP fun i => (ws[i / 64]?.getD 0#64).getLsbD (i % 64) := by
  induction ws with
  | nil => rfl
  | cons w ws ih =>
    have hfirst : (List.range 64).countP
        (fun i => ((w :: ws)[i / 64]?.getD 0#64).getLsbD (i % 64)) = bitCount w := by
      refine List.countP_congr fun i hi => ?_
      have hi := List.mem_range.mp hi
      rw [Nat.div_eq_of_lt hi, Nat.mod_eq_of_lt hi]
      rfl
    have hrest : ((List.range (64 * ws.length)).map (64 + ·)).countP
        (fun i => ((w :: ws)[i / 64]?.getD 0#64).getLsbD (i % 64)) =
        ws.foldr (fun w n => bitCount w + n) 0 := by
      rw [ih, List.countP_map]
      refine List.countP_congr fun i _ => ?_
      have hdiv : (64 + i) / 64 = i / 64 + 1 := by omega
      have hmod : (64 + i) % 64 = i % 64 := by omega
      rw [Function.comp_apply, hdiv, hmod, List.getElem?_cons_succ]
    have hlength : 64 * (w :: ws).length = 64 + 64 * ws.length := by
      rw [List.length_cons]
      omega
    rw [hlength, List.range_add, List.countP_append, hfirst, hrest, List.foldr_cons]

theorem count_eq_countP (s : BitSet) : s.count = (List.range (64 * s.words.size)).countP s.bit := by
  rw [count, foldr_bitCount, Array.length_toList]
  refine List.countP_congr fun i _ => ?_
  rw [Array.getElem?_toList, bit]

theorem isEmpty_iff_bit : s.isEmpty = true ↔ ∀ i, s.bit i = false := by
  rw [isEmpty, Array.all_eq_true]
  constructor
  · intro h i
    by_cases hi : i / 64 < s.words.size
    · rw [bit, Array.getElem?_eq_getElem hi, Option.getD_some, beq_iff_eq.mp (h (i / 64) hi),
        BitVec.getLsbD_zero]
    · exact bit_of_size_le (by omega)
  · intro h k hk
    rw [beq_iff_eq]
    apply BitVec.eq_of_getLsbD_eq
    intro j hj
    rw [← bit_word hk hj, h, BitVec.getLsbD_zero]

namespace Tight

theorem sized (h : s.Tight) : s.Sized := by
  unfold Sized
  rw [h.size]
  omega

theorem bit_eq (h : s.Tight) (i : Nat) : s.bit i = s.contains i := by
  rw [contains_eq]
  by_cases hi : i < s.capacity
  · rw [decide_eq_true hi, Bool.true_and]
  · rw [decide_eq_false hi, Bool.false_and, h.unused i (Nat.le_of_not_lt hi)]

theorem count_eq (h : s.Tight) : s.count = s.toFinset.card := by
  have hset : s.toFinset = {i ∈ Finset.range (64 * s.words.size) | s.bit i = true} := by
    ext i
    rw [mem_toFinset, Finset.mem_filter, Finset.mem_range, h.bit_eq]
    refine (and_iff_right_of_imp fun hi => ?_).symm
    exact Nat.lt_of_lt_of_le (lt_capacity_of_contains hi) h.sized
  rw [count_eq_countP, hset, List.countP_eq_length_filter, Finset.card, Finset.filter_val,
    Finset.range_val, Multiset.range, Multiset.filter_coe, Multiset.coe_card]
  simp only [Bool.decide_eq_true]

theorem isEmpty_iff (h : s.Tight) : s.isEmpty = true ↔ s.toFinset = ∅ := by
  rw [isEmpty_iff_bit, Finset.eq_empty_iff_forall_notMem]
  refine forall_congr' fun i => ?_
  rw [h.bit_eq, mem_toFinset, Bool.not_eq_true]

/-- Tight sets of one capacity with the same members are the same. -/
theorem ext (hs : s.Tight) (ht : t.Tight) (hcapacity : s.capacity = t.capacity)
    (h : s.toFinset = t.toFinset) : s = t := by
  have hsize : s.words.size = t.words.size := by rw [hs.size, ht.size, hcapacity]
  have hbit : ∀ i, s.bit i = t.bit i := by
    intro i
    rw [hs.bit_eq, ht.bit_eq, Bool.eq_iff_iff, ← mem_toFinset, ← mem_toFinset, h]
  have hwords : s.words = t.words := by
    refine Array.ext hsize fun k hk hk' => ?_
    apply BitVec.eq_of_getLsbD_eq
    intro j hj
    rw [← bit_word hk hj, ← bit_word hk' hj, hbit]
  calc s = ⟨s.capacity, s.words⟩ := rfl
    _ = t := by rw [hcapacity, hwords]

end Tight

/-! ## Operations -/

theorem tight_empty (n : Nat) : (empty n).Tight where
  size := Array.size_replicate
  unused i _ := bit_empty n i

theorem Tight.mark (h : s.Tight) (hi : i < s.capacity) : (s.mark i).Tight where
  size := by
    rw [capacity_mark, ← h.size, BitSet.mark, if_pos hi, Array.size_modify]
  unused j hj := by
    rw [capacity_mark] at hj
    rw [bit_mark h.sized hi, h.unused j hj, decide_eq_false (by omega), Bool.or_false]

theorem Tight.unmark (h : s.Tight) (hi : i < s.capacity) : (s.unmark i).Tight where
  size := by
    rw [capacity_unmark, ← h.size, BitSet.unmark, if_pos hi, Array.size_modify]
  unused j hj := by
    rw [capacity_unmark] at hj
    rw [bit_unmark hi, h.unused j hj, Bool.and_false]

theorem bit_clear (s : BitSet) (i : Nat) : s.clear.bit i = false := by
  rw [bit, clear, Array.getElem?_map]
  cases s.words[i / 64]? <;> simp

theorem Tight.clear (h : s.Tight) : s.clear.Tight where
  size := by
    rw [BitSet.clear, Array.size_map, h.size]
  unused i _ := s.bit_clear i

theorem toFinset_empty (n : Nat) : (empty n).toFinset = ∅ := by
  ext i
  simp

theorem toFinset_mark (h : s.Tight) (hi : i < s.capacity) :
    (s.mark i).toFinset = Insert.insert i s.toFinset := by
  ext j
  rw [mem_toFinset, contains_mark h.sized hi, Finset.mem_insert, mem_toFinset, Bool.or_eq_true,
    decide_eq_true_eq]

theorem toFinset_unmark (s : BitSet) (i : Nat) : (s.unmark i).toFinset = s.toFinset.erase i := by
  ext j
  rw [mem_toFinset, contains_unmark, Finset.mem_erase, mem_toFinset, Bool.and_eq_true,
    Bool.not_eq_true', decide_eq_false_iff_not]

theorem toFinset_clear (s : BitSet) : s.clear.toFinset = ∅ := by
  ext i
  rw [mem_toFinset, contains_eq, bit_clear]
  simp

end Views

/-! ## Calls -/

/-- A call that can be made on a set. -/
inductive Call where
  | insert (i : Nat)
  | erase (i : Nat)
  | contains (i : Nat)
  | clear
deriving DecidableEq, Repr

/-- What a call answers: nothing for `clear`, and an error for a write beyond the capacity. -/
abbrev Reply := Except OutOfBounds (Option Bool)

namespace Call

/-- A write on a bit set. A refused write leaves the set as it is. -/
def written (s : BitSet) : Except OutOfBounds (Bool × BitSet) → Reply × BitSet
  | .ok (answer, s') => (.ok (some answer), s')
  | .error e => (.error e, s)

/-- A call on a bit set. -/
def onBits (s : BitSet) : Call → Reply × BitSet
  | .insert i => written s (s.insert i)
  | .erase i => written s (s.erase i)
  | .contains i => (.ok (some (s.contains i)), s)
  | .clear => (.ok none, s.clear)

/-- The same call on a finite set of numbers below `n`. -/
def onFinset (n : Nat) (m : Finset Nat) : Call → Reply × Finset Nat
  | .insert i =>
    if i < n then (.ok (some (decide (i ∉ m))), Insert.insert i m) else (.error ⟨i, n⟩, m)
  | .erase i =>
    if i < n then (.ok (some (decide (i ∈ m))), m.erase i) else (.error ⟨i, n⟩, m)
  | .contains i => (.ok (some (decide (i ∈ m))), m)
  | .clear => (.ok none, ∅)

/-- Calls in order: the replies, and what is left. -/
def replies {α : Type} (call : α → Call → Reply × α) : List Call → α → List Reply × α
  | [], a => ([], a)
  | c :: cs, a =>
    let rest := replies call cs (call a c).2
    ((call a c).1 :: rest.1, rest.2)

/-- Calls on the empty bit set of capacity `n`. -/
def bits (n : Nat) (cs : List Call) : List Reply × BitSet :=
  replies onBits cs (empty n)

/-- The same calls on the empty finite set. -/
def finset (n : Nat) (cs : List Call) : List Reply × Finset Nat :=
  replies (onFinset n) cs ∅

end Call

section Calls
variable {s : BitSet}

theorem decide_mem_toFinset (s : BitSet) (i : Nat) : decide (i ∈ s.toFinset) = s.contains i := by
  rw [Bool.eq_iff_iff, decide_eq_true_eq, mem_toFinset]

/-- One call answers as on the finite set and leaves a tight set for the finite set that is left. -/
theorem Tight.onBits (h : s.Tight) (c : Call) : (c.onBits s).2.Tight ∧
    (c.onBits s).2.capacity = s.capacity ∧
    c.onFinset s.capacity s.toFinset = ((c.onBits s).1, (c.onBits s).2.toFinset) := by
  cases c with
  | insert i =>
    rw [Call.onBits, BitSet.insert, Call.onFinset]
    by_cases hi : i < s.capacity
    · rw [if_pos hi, if_pos hi, decide_not, decide_mem_toFinset, ← toFinset_mark h hi]
      exact ⟨h.mark hi, capacity_mark s i, rfl⟩
    · rw [if_neg hi, if_neg hi]
      exact ⟨h, rfl, rfl⟩
  | erase i =>
    rw [Call.onBits, BitSet.erase, Call.onFinset]
    by_cases hi : i < s.capacity
    · rw [if_pos hi, if_pos hi, decide_mem_toFinset, ← toFinset_unmark]
      exact ⟨h.unmark hi, capacity_unmark s i, rfl⟩
    · rw [if_neg hi, if_neg hi]
      exact ⟨h, rfl, rfl⟩
  | contains i =>
    rw [Call.onBits, Call.onFinset, decide_mem_toFinset]
    exact ⟨h, rfl, rfl⟩
  | clear =>
    rw [Call.onBits, Call.onFinset, ← toFinset_clear s]
    exact ⟨h.clear, rfl, rfl⟩

/-- Any calls answer as on the finite set, and leave a tight set for the finite set that is left. -/
theorem Tight.replies (cs : List Call) (h : s.Tight) :
    (Call.replies Call.onBits cs s).2.Tight ∧
    (Call.replies Call.onBits cs s).2.capacity = s.capacity ∧
    Call.replies (Call.onFinset s.capacity) cs s.toFinset =
      ((Call.replies Call.onBits cs s).1, (Call.replies Call.onBits cs s).2.toFinset) := by
  induction cs generalizing s with
  | nil => exact ⟨h, rfl, rfl⟩
  | cons c cs ih =>
    obtain ⟨htight, hcapacity, hcall⟩ := h.onBits c
    obtain ⟨htight', hcapacity', hrest⟩ := ih htight
    rw [hcapacity] at hrest
    refine ⟨htight', hcapacity'.trans hcapacity, ?_⟩
    simp only [Call.replies, hcall, hrest]

theorem tight_bits (n : Nat) (cs : List Call) : (Call.bits n cs).2.Tight :=
  ((tight_empty n).replies cs).1

theorem capacity_bits (n : Nat) (cs : List Call) : (Call.bits n cs).2.capacity = n :=
  ((tight_empty n).replies cs).2.1

theorem finset_eq (n : Nat) (cs : List Call) :
    Call.finset n cs = ((Call.bits n cs).1, (Call.bits n cs).2.toFinset) := by
  have h := ((tight_empty n).replies cs).2.2
  rw [toFinset_empty] at h
  exact h

end Calls

/-- Any calls on an empty bit set of capacity `n` are answered as on the empty finite set: a write
is refused just if it lies beyond the capacity, and changes nothing then. What is left contains the
members of the finite set that is left and lists them in ascending order. Its count is their number,
it is empty if there are none, and it is the same as what other calls leave just if the members are
the same. -/
theorem refines_finset (n : Nat) (cs : List Call) :
    (Call.bits n cs).1 = (Call.finset n cs).1 ∧
    (Call.bits n cs).2.capacity = n ∧
    (∀ i ∈ (Call.finset n cs).2, i < n) ∧
    (∀ i, (Call.bits n cs).2.contains i = decide (i ∈ (Call.finset n cs).2)) ∧
    (Call.bits n cs).2.members.Pairwise (· < ·) ∧
    (∀ i, i ∈ (Call.bits n cs).2.members ↔ i ∈ (Call.finset n cs).2) ∧
    (Call.bits n cs).2.count = (Call.finset n cs).2.card ∧
    ((Call.bits n cs).2.isEmpty = true ↔ (Call.finset n cs).2 = ∅) ∧
    ∀ ds, (Call.bits n cs).2 = (Call.bits n ds).2 ↔
      (Call.finset n cs).2 = (Call.finset n ds).2 := by
  have htight := tight_bits n cs
  simp only [finset_eq, true_and]
  refine ⟨capacity_bits n cs, fun i hi => ?_, fun i => (decide_mem_toFinset _ i).symm,
    pairwise_members _, fun i => mem_members.trans mem_toFinset.symm, htight.count_eq,
    htight.isEmpty_iff, fun ds => ⟨congrArg toFinset, ?_⟩⟩
  · exact capacity_bits n cs ▸ lt_capacity_of_contains (mem_toFinset.mp hi)
  · exact htight.ext (tight_bits n ds) ((capacity_bits n cs).trans (capacity_bits n ds).symm)

-- a write beyond the capacity is refused, and the members come in order across the words
example : Call.bits 130 [.insert 129, .insert 5, .insert 130, .insert 64] |>.2.members =
    [5, 64, 129] := by
  decide +kernel

end BitSet

end ConstFlow
