import ConstFlow.Flow.Fact
import ConstFlow.Func.Basic

/-!
# The fact of every value

A `FactMap` keeps one fact per slot of a function. Only live slots answer; asking for another one
is an error. `FactMap.update` joins, so an entry is the join of everything it was given.
-/

namespace ConstFlow

/-- A fact per slot, and the set of the slots that are live. -/
structure FactMap where
  facts : Array Fact
  live : BitSet
deriving DecidableEq, Repr

namespace FactMap

/-- A map of `n` live entries of which nothing is known. -/
def ofSize (n : Nat) : FactMap :=
  ⟨Array.replicate n .unknown, (List.range n).foldl BitSet.mark (BitSet.empty n)⟩

/-- A map for a function, live at its live instructions. -/
def ofFunc (f : Func) : Except Error FactMap :=
  match f.instrs.foldlM (fun s i => (s.insert i.id).map (·.2)) (BitSet.empty f.slotCount) with
  | .ok live => .ok ⟨Array.replicate f.slotCount .unknown, live⟩
  | .error e => .error (.outOfBounds e)

def size (m : FactMap) : Nat :=
  m.facts.size

/-- The slot is live. -/
def contains (m : FactMap) (id : InstrId) : Bool :=
  m.live.contains id

def get? (m : FactMap) (id : InstrId) : Option Fact :=
  if m.contains id then m.facts[id]? else none

def get (m : FactMap) (id : InstrId) : Except Error Fact :=
  match m.get? id with
  | some v => .ok v
  | none => .error (.missingFact id)

/-- The fact of an operand; of an undefined one nothing is known. -/
def resolve (m : FactMap) : Operand → Except Error Fact
  | .const c => .ok (.const c)
  | .value id => m.get id
  | .undef => .ok .unknown

/-- Joins a fact into a live slot. The answer holds the new fact if it differs from the old one. -/
def update (m : FactMap) (id : InstrId) (v : Fact) : Except Error (Option Fact × FactMap) :=
  match m.get? id with
  | none => .error (.missingFact id)
  | some old =>
    if old.join v = old then .ok (none, m)
    else .ok (some (old.join v), { m with facts := m.facts.setIfInBounds id (old.join v) })

/-- The live slots in ascending order with their facts. -/
def entries (m : FactMap) : List (InstrId × Fact) :=
  (List.range m.size).filterMap fun id => (m.get? id).map (id, ·)

end FactMap

end ConstFlow
