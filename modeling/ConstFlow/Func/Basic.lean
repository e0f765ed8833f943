import ConstFlow.Error
import ConstFlow.Graph.Basic

/-!
# Functions

A function keeps its instructions in an arena, one slot per number; a removed or not yet defined
instruction leaves its slot empty. Blocks list the numbers of their instructions in order. Two
indexes are stored beside them: the predecessors of each block and the users of each slot. They
are computed by `Func.recomputePreds` and `Func.rebuildUsers`.

* `Func.instr?`, `Func.instrs`, `Func.blockInstrs` : live instructions;
* `Func.succs`, `Func.preds`, `Func.graph` : control flow;
* `Func.usersOf` : the stored users of a value;
* `Func.text` : the written form.
-/

namespace ConstFlow

/-- A basic block: its number, its instructions in order, and the source of every edge into it. -/
structure Block where
  id : BlockId
  instrs : List InstrId
  preds : List BlockId
deriving DecidableEq, Repr

namespace Block

def new (id : BlockId) : Block :=
  ⟨id, [], []⟩

/-- The last instruction listed. -/
def terminator? (b : Block) : Option InstrId :=
  b.instrs.getLast?

def push (b : Block) (id : InstrId) : Block :=
  { b with instrs := b.instrs ++ [id] }

/-- The block without the first listing of an instruction. -/
def detach (b : Block) (id : InstrId) : Block :=
  { b with instrs := b.instrs.erase id }

end Block

/-- A function in static single assignment form. -/
structure Func where
  name : String
  blocks : Array Block
  arena : Array (Option Instr)
  users : Array (List InstrId)
deriving DecidableEq, Repr

namespace Func

/-! ## Queries -/

def blockCount (f : Func) : Nat :=
  f.blocks.size

/-- The number of slots of the arena, empty ones included. -/
def slotCount (f : Func) : Nat :=
  f.arena.size

def isEmpty (f : Func) : Bool :=
  f.blocks.isEmpty

/-- The instruction in slot `id`, if it is live. -/
def instr? (f : Func) (id : InstrId) : Option Instr :=
  f.arena[id]?.join

/-- The instruction in slot `id`, which must be live. -/
def instr (f : Func) (id : InstrId) : Except Error Instr :=
  match f.instr? id with
  | some i => .ok i
  | none => .error (.unknownInstr id)

/-- The live instructions in slot order. -/
def instrs (f : Func) : List Instr :=
  f.arena.toList.filterMap fun i => i

def block? (f : Func) (b : BlockId) : Option Block :=
  f.blocks[b]?

def block (f : Func) (b : BlockId) : Except Error Block :=
  match f.block? b with
  | some blk => .ok blk
  | none => .error (.unknownBlock b)

/-- The live instructions that a block lists, in its order. -/
def blockInstrs (f : Func) (b : BlockId) : List Instr :=
  match f.block? b with
  | some blk => blk.instrs.filterMap f.instr?
  | none => []

def listedCount (f : Func) : Nat :=
  (f.blocks.toList.flatMap (·.instrs)).length

/-- The stored users of a value, and none beyond the arena. -/
def usersOf (f : Func) (id : InstrId) : List InstrId :=
  f.users[id]?.getD []

/-- The blocks to which the last instruction of a block may pass control. -/
def succs (f : Func) (b : BlockId) : List BlockId :=
  match ((f.block? b).bind Block.terminator?).bind f.instr? with
  | some i => i.op.successors
  | none => []

/-- The stored predecessors of a block. -/
def preds (f : Func) (b : BlockId) : List BlockId :=
  match f.block? b with
  | some blk => blk.preds
  | none => []

/-- The block where control enters. -/
def entry : BlockId := 0

def graph (f : Func) : Graph :=
  ⟨f.blockCount, f.succs⟩

/-! ## Indexes -/

/-- Enters `a` at the target of each of its edges; one that leads to no block is passed over. -/
def pushEdges (f : Func) (lists : Array (List BlockId)) (a : BlockId) : Array (List BlockId) :=
  (f.succs a).foldl (fun lists b => lists.modify b (· ++ [a])) lists

/-- The sources of the edges into each block, as the terminators give them. -/
def edgeLists (f : Func) : Array (List BlockId) :=
  (List.range f.blockCount).foldl f.pushEdges (Array.replicate f.blockCount [])

def recomputePreds (f : Func) : Func :=
  let lists := f.edgeLists
  { f with blocks := f.blocks.mapIdx fun b blk => { blk with preds := lists[b]?.getD [] } }

def addUser (id : InstrId) (users : List InstrId) : List InstrId :=
  if id ∈ users then users else users ++ [id]

/-- Enters `id` as a user of every value in the list; a value beyond the arena has no entry. -/
def enroll (id : InstrId) (values : List InstrId) (users : Array (List InstrId)) :
    Array (List InstrId) :=
  values.foldl (fun users v => users.modify v (addUser id)) users

def rebuildUsers (f : Func) : Func :=
  { f with users :=
      f.instrs.foldl (fun users i => enroll i.id i.op.uses users) (Array.replicate f.slotCount []) }

/-! ## Written form -/

/-- A block's heading, with its predecessors if there are any. -/
def headingText (blk : Block) : String :=
  blockName blk.id ++ ":" ++
    (if blk.preds.isEmpty then "" else "  ; preds: " ++ ", ".intercalate (blk.preds.map blockName))

def blockText (f : Func) (blk : Block) : String :=
  String.join ((headingText blk ++ "\n") :: (f.blockInstrs blk.id).map fun i => s!"  {i.text}\n")

/-- The function's name and its blocks in braces. -/
def text (f : Func) : String :=
  s!"fn {f.name} \x7b\n" ++ String.join (f.blocks.toList.map f.blockText) ++ "\x7d"

end Func

end ConstFlow
