import ConstFlow.Flow.Fact
import ConstFlow.Operand

/-!
# The journal

While it works, the library notes what it does. A `Note` is a structured record; `Note.level` and
`Note.message` give its line.
-/

namespace ConstFlow

/-- The weight of a note. -/
inductive Level where
  | debug
  | trace
  | warn
deriving DecidableEq, Repr

def Level.name : Level → String
  | .debug => "DEBUG"
  | .trace => "TRACE"
  | .warn => "WARN"

/-- Something noted during the work. -/
inductive Note where
  /-- A block came up that may not be visited again. -/
  | limitReached (block : BlockId)
  /-- A block is visited, for the given time. -/
  | blockVisited (block : BlockId) (count : Nat)
  /-- The fact of a value rose. -/
  | factRaised (id : InstrId) (fact : Fact)
  /-- The analysis of a function ended. -/
  | solved (function : String) (blockVisits instrVisits changes : Nat)
  /-- A solution does not fit the function it is used on. -/
  | sizeMismatch (entries : Nat) (function : String) (slots : Nat)
  /-- An instruction was replaced by a constant. -/
  | folded (instr : String) (value : Int64) (uses : Nat)
  /-- A branch was replaced by a jump. -/
  | branchDecided (block : BlockId) (branch : String) (target : BlockId)
  /-- A function was changed. -/
  | simplified (count : Nat) (function : String)
  /-- A pass over a function ended. -/
  | passEnded (pass function : String) (constants reached blocks changes : Nat)
  /-- A run of all passes ended. -/
  | scheduleEnded (passes functions rounds : Nat) (summary : String)
deriving DecidableEq, Repr

namespace Note

def level : Note → Level
  | .limitReached _ | .blockVisited .. | .factRaised .. | .folded .. | .branchDecided .. => .trace
  | .solved .. | .simplified .. | .passEnded .. | .scheduleEnded .. => .debug
  | .sizeMismatch .. => .warn

def message : Note → String
  | .limitReached b => s!"{blockName b}: revisit limit reached"
  | .blockVisited b count => s!"{blockName b}: evaluation #{count}"
  | .factRaised id fact => s!"{valueName id} -> {fact.text}"
  | .solved function blockVisits instrVisits changes =>
    s!"sccp '{function}': {blockVisits} block evaluations, {instrVisits} instruction evaluations, {changes} value changes"
  | .sizeMismatch entries function slots =>
    s!"lattice of {entries} entries applied to '{function}' with {slots} instruction slots"
  | .folded instr value uses => s!"{instr} -> {value.toInt} ({uses} uses)"
  | .branchDecided b branch target => s!"{blockName b}: {branch} -> jmp {blockName target}"
  | .simplified count function => s!"rewrote {count} instructions in '{function}'"
  | .passEnded pass function constants reached blocks changes =>
    s!"{pass} on '{function}': {constants} constants, {reached}/{blocks} blocks reachable, {changes} rewrites"
  | .scheduleEnded passes functions rounds summary =>
    s!"scheduler: {passes} passes over {functions} functions, {rounds} iterations, {summary}"

/-- The line of a note: its level and its wording. -/
def line (n : Note) : String :=
  n.level.name ++ " " ++ n.message

end Note

end ConstFlow
