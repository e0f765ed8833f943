import ConstFlow.Func.Basic

/-!
# Visits to blocks

A block may be visited once for every edge into it, and at least once. `Visits` counts what was
done and knows what is still allowed. A block is reachable once it was visited.
-/

namespace ConstFlow

/-- The visits to one block so far, and the number of its incoming edges. -/
structure Tally where
  done : Nat
  edges : Nat
deriving DecidableEq, Repr

namespace Tally

def isOpen (t : Tally) : Bool :=
  t.done == 0 || decide (t.done < t.edges)

def left (t : Tally) : Nat :=
  max 1 t.edges - t.done

def succ (t : Tally) : Tally :=
  { t with done := t.done + 1 }

/-- A visit that is allowed uses one up. -/
theorem left_succ_lt {t : Tally} (h : t.isOpen) : t.succ.left < t.left := by
  simp only [isOpen, Bool.or_eq_true, beq_iff_eq, decide_eq_true_eq] at h
  simp only [left, succ]
  omega

end Tally

structure Visits where
  tallies : Array Tally
deriving DecidableEq, Repr

namespace Visits

/-- No visit yet, with the given numbers of incoming edges. -/
def ofEdges (edges : List Nat) : Visits :=
  ⟨(edges.map (Tally.mk 0)).toArray⟩

/-- No visit yet, with the stored predecessors of a function. -/
def ofFunc (f : Func) : Visits :=
  ofEdges (f.blocks.toList.map (·.preds.length))

def size (x : Visits) : Nat :=
  x.tallies.size

def tally? (x : Visits) (b : BlockId) : Option Tally :=
  x.tallies[b]?

/-- The visits to a block so far; none to a block that does not exist. -/
def done (x : Visits) (b : BlockId) : Nat :=
  match x.tally? b with
  | some t => t.done
  | none => 0

def reached (x : Visits) (b : BlockId) : Bool :=
  decide (0 < x.done b)

/-- The block exists and may be visited again. -/
def isOpen (x : Visits) (b : BlockId) : Bool :=
  match x.tally? b with
  | some t => t.isOpen
  | none => false

/-- Counts one visit, and gives the number of visits to the block. -/
def enter (x : Visits) (b : BlockId) : Except Error (Nat × Visits) :=
  match x.tally? b with
  | some t => .ok (t.succ.done, ⟨x.tallies.setIfInBounds b t.succ⟩)
  | none => .error (.unknownBlock b)

def counts (x : Visits) : List Nat :=
  x.tallies.toList.map (·.done)

end Visits

end ConstFlow
