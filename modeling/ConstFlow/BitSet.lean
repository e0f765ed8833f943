/-!
# Sets of small numbers

A `BitSet` holds numbers below a fixed capacity, one bit each, in words of 64 bits.

* `BitSet.empty`, `BitSet.contains`, `BitSet.count`, `BitSet.isEmpty` : the set and its views;
* `BitSet.next?`, `BitSet.members` : the members in order, as a cursor finds them in the words;
* `BitSet.mark`, `BitSet.unmark` : the two writes on one bit, which touch no bit beyond the
  capacity;
* `BitSet.insert`, `BitSet.erase` : the same writes, refused with `BitSet.OutOfBounds` beyond the
  capacity, with the answer whether the set changed.

No operation sets a bit beyond the capacity, so whole words can be counted and compared.
-/

namespace ConstFlow

/-- A set of numbers below `capacity`: number `i` is bit `i % 64` of word `i / 64`. -/
structure BitSet where
  capacity : Nat
  words : Array (BitVec 64)
deriving DecidableEq, Repr

namespace BitSet

/-- A write beyond the capacity of a set. -/
structure OutOfBounds where
  index : Nat
  capacity : Nat
deriving DecidableEq, Repr

def OutOfBounds.message (_ : OutOfBounds) : String :=
  "index out of bounds"

def empty (n : Nat) : BitSet :=
  ⟨n, Array.replicate ((n + 63) / 64) 0#64⟩

/-- Membership; a number beyond the capacity is no member. -/
def contains (s : BitSet) (i : Nat) : Bool :=
  decide (i < s.capacity) && (s.words[i / 64]?.getD 0#64).getLsbD (i % 64)

/-- The set with `i` added, if `i` is below the capacity. -/
def mark (s : BitSet) (i : Nat) : BitSet :=
  if i < s.capacity then
    { s with words := s.words.modify (i / 64) (· ||| BitVec.twoPow 64 (i % 64)) }
  else s

def unmark (s : BitSet) (i : Nat) : BitSet :=
  if i < s.capacity then
    { s with words := s.words.modify (i / 64) (· &&& ~~~(BitVec.twoPow 64 (i % 64))) }
  else s

/-- Adds `i` and says whether it is new. -/
def insert (s : BitSet) (i : Nat) : Except OutOfBounds (Bool × BitSet) :=
  if i < s.capacity then .ok (!s.contains i, s.mark i) else .error ⟨i, s.capacity⟩

/-- Removes `i` and says whether it was there. -/
def erase (s : BitSet) (i : Nat) : Except OutOfBounds (Bool × BitSet) :=
  if i < s.capacity then .ok (s.contains i, s.unmark i) else .error ⟨i, s.capacity⟩

def clear (s : BitSet) : BitSet :=
  { s with words := s.words.map fun _ => 0#64 }

def bitCount (w : BitVec 64) : Nat :=
  (List.range 64).countP w.getLsbD

/-- The number of members, counted word by word. -/
def count (s : BitSet) : Nat :=
  s.words.toList.foldr (fun w n => bitCount w + n) 0

def isEmpty (s : BitSet) : Bool :=
  s.words.all (· == 0#64)

/-! ## Members in order -/

/-- A place in the words of a set. -/
structure Cursor where
  word : Nat
  bit : Nat
deriving DecidableEq, Repr

namespace Cursor

def index (c : Cursor) : Nat :=
  64 * c.word + c.bit

def nextBit (c : Cursor) : Cursor :=
  { c with bit := c.bit + 1 }

def nextWord (c : Cursor) : Cursor :=
  ⟨c.word + 1, 0⟩

end Cursor

/-- The steps that a cursor can still make: over the bits of its word, and from word to word. -/
def stepsLeft (s : BitSet) (c : Cursor) : Nat :=
  65 * (s.words.size - c.word) + (64 - c.bit)

theorem stepsLeft_nextBit {s : BitSet} {c : Cursor} (h : c.bit < 64) :
    s.stepsLeft c.nextBit < s.stepsLeft c := by
  simp only [stepsLeft, Cursor.nextBit]
  omega

theorem stepsLeft_nextWord {s : BitSet} {c : Cursor} (h : c.word < s.words.size) :
    s.stepsLeft c.nextWord < s.stepsLeft c := by
  simp only [stepsLeft, Cursor.nextWord]
  omega

/-- The first member at a place or behind it, with the place behind that member. Words are read bit
by bit, up to the capacity. -/
def next? (s : BitSet) (c : Cursor) : Option (Nat × Cursor) :=
  if hword : c.word < s.words.size then
    if hbit : c.bit < 64 then
      if c.index < s.capacity then
        if s.words[c.word].getLsbD c.bit then some (c.index, c.nextBit) else s.next? c.nextBit
      else none
    else s.next? c.nextWord
  else none
termination_by s.stepsLeft c
decreasing_by
  · exact stepsLeft_nextBit hbit
  · exact stepsLeft_nextWord hword

/-- Finding a member moves the cursor. -/
theorem stepsLeft_next {s : BitSet} {c c' : Cursor} {i : Nat} (h : s.next? c = some (i, c')) :
    s.stepsLeft c' < s.stepsLeft c := by
  fun_induction next? s c with
  | case1 c hword hbit hindex hset =>
    cases h
    exact stepsLeft_nextBit hbit
  | case2 c hword hbit hindex hset ih => exact Nat.lt_trans (ih h) (stepsLeft_nextBit hbit)
  | case3 => cases h
  | case4 c hword hbit ih => exact Nat.lt_trans (ih h) (stepsLeft_nextWord hword)
  | case5 => cases h

set_option linter.unusedVariables false in
/-- The members at a place and behind it, one after another. -/
def membersFrom (s : BitSet) (c : Cursor) : List Nat :=
  match h : s.next? c with
  | none => []
  | some (i, c') => i :: s.membersFrom c'
termination_by s.stepsLeft c
decreasing_by exact stepsLeft_next h

/-- The members in ascending order. -/
def members (s : BitSet) : List Nat :=
  s.membersFrom ⟨0, 0⟩

def text (s : BitSet) : String :=
  "\x7b" ++ ", ".intercalate (s.members.map toString) ++ "\x7d"

end BitSet

end ConstFlow
