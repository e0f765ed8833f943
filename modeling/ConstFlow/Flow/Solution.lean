import ConstFlow.Flow.FactMap

/-!
# Results of the analysis

A `Solution` is detached from the function it was computed for: it stays readable while the
function changes, since numbers of instructions are stable.
-/

namespace ConstFlow

/-- What the analysis found: the final facts, the visits to every block, and if asked for the facts
that each slot went through. -/
structure Solution where
  function : String
  facts : FactMap
  visits : Array Nat
  history : Option (Array (List Fact))
  blockVisits : Nat
  instrVisits : Nat
  changes : Nat
deriving DecidableEq, Repr

namespace Solution

def fact? (r : Solution) (id : InstrId) : Option Fact :=
  r.facts.get? id

/-- The constant that a value always has. -/
def const? (r : Solution) (id : InstrId) : Option Int64 :=
  (r.fact? id).bind Fact.const?

def operandConst? (r : Solution) : Operand → Option Int64
  | .const c => some c
  | .value id => r.const? id
  | .undef => none

def visitsTo (r : Solution) (b : BlockId) : Nat :=
  r.visits[b]?.getD 0

/-- Control may reach the block. -/
def reached (r : Solution) (b : BlockId) : Bool :=
  decide (0 < r.visitsTo b)

def reachedBlocks (r : Solution) : List BlockId :=
  (List.range r.visits.size).filter r.reached

def constants (r : Solution) : List (InstrId × Int64) :=
  r.facts.entries.filterMap fun e => e.2.const?.map (e.1, ·)

/-- The facts that a slot went through, if they were recorded. -/
def history? (r : Solution) (id : InstrId) : Option (List Fact) :=
  r.history.bind (·[id]?)

/-- The written form: every live fact, then the reached blocks. -/
def text (r : Solution) : String :=
  s!"lattice of {r.function}:\n" ++
    String.join (r.facts.entries.map fun e => s!"  {valueName e.1}: {e.2.text}\n") ++
    "reachable: [" ++ ", ".intercalate (r.reachedBlocks.map blockName) ++ "]"

end Solution

end ConstFlow
