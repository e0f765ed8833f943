import ConstFlow.Flow.Transfer
import ConstFlow.Flow.Worklist
import ConstFlow.Journal

/-!
# The analysis step by step

The analysis starts with nothing known and the entry block waiting. Blocks wait in one list and
instructions in another. Visiting an instruction makes the targets of its edges wait and joins the
new fact into the old one; when the fact rises, the users that stand in reached blocks wait.
Visiting a block visits its instructions in order, and on the first visit makes the phis wait that
take a value from it.

* `State` : facts, visits, the two lists and what is counted and noted;
* `State.visit` : one instruction;
* `perform` : one task, a block or an instruction;
* `State.next?` : the task that is due. All waiting blocks come before instructions, and all
  waiting instructions before the next blocks.
-/

namespace ConstFlow

inductive Task where
  | block (b : BlockId)
  | instr (id : InstrId)
deriving DecidableEq, Repr

/-- The list whose turn it is. -/
inductive Turn where
  | blocks
  | instrs
deriving DecidableEq, Repr

/-- The analysis between two tasks. -/
structure State where
  facts : FactMap
  visits : Visits
  blocks : Worklist
  instrs : Worklist
  turn : Turn
  history : Option (Array (List Fact))
  blockVisits : Nat
  instrVisits : Nat
  changes : Nat
  notes : Array Note
deriving DecidableEq, Repr

/-- A computation on the state. A failure leaves the state reached so far. -/
abbrev Run := EStateM Error State

namespace State

def note (s : State) (n : Note) : State :=
  { s with notes := s.notes.push n }

def enqueueBlock (f : Func) (s : State) (b : BlockId) : Except Error State :=
  if b < f.blockCount then
    match s.blocks.push b with
    | .error e => .error e
    | .ok w => .ok { s with blocks := w }
  else .error (.unknownBlock b)

/-- Makes an instruction wait, if it has a slot. -/
def enqueueInstr (s : State) (id : InstrId) : Except Error State :=
  if id < s.instrs.queued.capacity then
    match s.instrs.push id with
    | .error e => .error e
    | .ok w => .ok { s with instrs := w }
  else .ok s

/-- The instruction is live and stands in a block that was reached. -/
def isActive (f : Func) (x : Visits) (id : InstrId) : Bool :=
  match f.instr? id with
  | some i => x.reached i.block
  | none => false

/-- Makes a user wait, if it is active. -/
def enqueueUser (f : Func) (s : State) (id : InstrId) : Except Error State :=
  if isActive f s.visits id then s.enqueueInstr id else .ok s

def raise (s : State) (id : InstrId) (v : Fact) (facts : FactMap) : State :=
  { s with
    facts := facts
    changes := s.changes + 1
    history := s.history.map (·.modify id (· ++ [v]))
    notes := s.notes.push (.factRaised id v) }

/-- Visits one instruction: the targets of its edges wait, then its fact is joined, then its users
wait if the fact rose. -/
def visit (f : Func) (s : State) (id : InstrId) : Except Error State := do
  let i ← f.instr id
  let y ← evaluate s.facts s.visits i
  let s ← y.targets.foldlM (enqueueBlock f) s
  match ← s.facts.update id y.fact with
  | (none, _) => return s
  | (some v, facts) => (f.usersOf id).foldlM (enqueueUser f) (s.raise id v facts)

def enterBlock (s : State) (b : BlockId) (count : Nat) (x : Visits) : State :=
  { s with
    visits := x
    blockVisits := s.blockVisits + 1
    notes := s.notes.push (.blockVisited b count) }

end State

/-- The phis in reached successors of `b`, itself excepted, that take a value from `b`. Blocks come
in ascending order. -/
def phisFedBy (f : Func) (x : Visits) (b : BlockId) : List InstrId :=
  ((List.range f.blockCount).filter fun a =>
      decide (a ∈ f.succs b) && a != b && x.reached a).flatMap fun a =>
    ((f.blockInstrs a).filter fun i => i.op.phiInputs.any (·.pred == b)).map (·.id)

/-- Visits instructions in order, up to the first failure. -/
def visitAll (f : Func) : List InstrId → Run Unit
  | [], s => .ok () s
  | id :: ids, s =>
    match s.visit f id with
    | .ok s' => visitAll f ids s'
    | .error e => .error e s

/-- Visits a block that was entered: on the first visit the phis it feeds wait, then its
instructions are visited. -/
def visitBlock (f : Func) (b : BlockId) (first : Bool) : Run Unit := fun s =>
  match (if first then phisFedBy f s.visits b else []).foldlM State.enqueueInstr s with
  | .error e => .error e s
  | .ok s' =>
    match f.block b with
    | .error e => .error e s'
    | .ok blk => visitAll f blk.instrs s'

/-- Does one task. A block that may not be visited again is passed over. -/
def perform (f : Func) : Task → Run Unit
  | .block b, s =>
    if s.visits.isOpen b then
      match s.visits.enter b with
      | .error e => .error e s
      | .ok (count, x) => visitBlock f b (!s.visits.reached b) (s.enterBlock b count x)
    else .ok () (s.note (.limitReached b))
  | .instr id, s =>
    let s := { s with instrVisits := s.instrVisits + 1 }
    match s.visit f id with
    | .ok s' => .ok () s'
    | .error e => .error e s

namespace State

def popBlock? (s : State) : Except Error (Option (Task × State)) :=
  match s.blocks.pop? with
  | .error e => .error e
  | .ok none => .ok none
  | .ok (some (b, w)) => .ok (some (.block b, { s with blocks := w, turn := .blocks }))

def popInstr? (s : State) : Except Error (Option (Task × State)) :=
  match s.instrs.pop? with
  | .error e => .error e
  | .ok none => .ok none
  | .ok (some (id, w)) => .ok (some (.instr id, { s with instrs := w, turn := .instrs }))

/-- Takes the task that is due; a list keeps its turn until it is empty. -/
def next? (s : State) : Except Error (Option (Task × State)) :=
  match s.turn with
  | .blocks =>
    match s.popBlock? with
    | .ok none => s.popInstr?
    | r => r
  | .instrs =>
    match s.popInstr? with
    | .ok none => s.popBlock?
    | r => r

/-- Nothing is known and the entry block waits. -/
def start (f : Func) (history : Bool) : Except Error State := do
  let facts ← FactMap.ofFunc f
  if f.isEmpty then throw .empty
  enqueueBlock f
    { facts := facts
      visits := Visits.ofFunc f
      blocks := Worklist.empty f.blockCount
      instrs := Worklist.empty f.slotCount
      turn := .blocks
      history := if history then some (Array.replicate f.slotCount [.unknown]) else none
      blockVisits := 0
      instrVisits := 0
      changes := 0
      notes := #[] }
    Func.entry

end State

end ConstFlow
