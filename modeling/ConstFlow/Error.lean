import ConstFlow.BitSet
import ConstFlow.Op

/-!
# Errors

An `Error` is a cause. `Error.message` is the only place that gives it words, and a malformed
function carries the exact `Defect` found in it.
-/

namespace ConstFlow

/-- A way in which a function fails to be well formed, or an edit to keep it so. -/
inductive Defect where
  /-- A block lists no instruction. -/
  | emptyBlock (block : BlockId)
  /-- A block lists an instruction that is gone. -/
  | listsRemoved (block : BlockId) (id : InstrId)
  /-- A block lists an instruction that another block owns. -/
  | foreignOwner (id : InstrId) (block owner : BlockId)
  /-- A terminator stands before the end of a block, or something else stands at its end. -/
  | terminatorPlace (block : BlockId) (id : InstrId)
  /-- An edge leads to a block that does not exist. -/
  | missingTarget (id : InstrId) (block target : BlockId)
  /-- A phi has an entry for a block that is no predecessor. -/
  | phiPredecessor (id : InstrId) (pred block : BlockId)
  /-- An operand names an instruction that computes no value. -/
  | valueless (id used : InstrId)
  /-- An operand names an instruction that does not exist. -/
  | undefinedValue (id used : InstrId)
  /-- Some instruction stands in no block. -/
  | unplaced (live listed : Nat)
  /-- A block was to end in an operation that is no terminator. -/
  | notTerminator (block : BlockId) (op : Op)
  /-- The block whose terminator was to change is empty. -/
  | lacksTerminator (block : BlockId)
  /-- The block whose terminator was to change does not end in one. -/
  | unterminated (block : BlockId)
deriving DecidableEq, Repr

def Defect.message : Defect → String
  | .emptyBlock b => s!"block {blockName b} is empty"
  | .listsRemoved b id => s!"block {blockName b} lists removed instruction {valueName id}"
  | .foreignOwner id b owner =>
    s!"instruction {valueName id} is listed in {blockName b} but owned by {blockName owner}"
  | .terminatorPlace b id =>
    s!"block {blockName b} must end with exactly one terminator (at {valueName id})"
  | .missingTarget id b target =>
    s!"{valueName id} in {blockName b} targets missing block {blockName target}"
  | .phiPredecessor id pred b =>
    s!"phi {valueName id} names {blockName pred} which is not a predecessor of {blockName b}"
  | .valueless id used =>
    s!"{valueName id} uses {valueName used} which does not produce a value"
  | .undefinedValue id used => s!"{valueName id} uses {valueName used} which does not exist"
  | .unplaced live listed =>
    s!"{live} live instructions but only {listed} are placed in blocks"
  | .notTerminator b op =>
    s!"replacement for terminator of {blockName b} is not a terminator: {op.text}"
  | .lacksTerminator b => s!"block {blockName b} has no terminator"
  | .unterminated b => s!"block {blockName b} does not end in a terminator"

/-- Why an operation failed. -/
inductive Error where
  /-- The function is not well formed. -/
  | malformed (defect : Defect)
  /-- The function has no blocks. -/
  | empty
  /-- No fact is kept for an instruction. -/
  | missingFact (id : InstrId)
  /-- A branch is decided by a constant that is neither zero nor one. -/
  | invalidCondition (block : BlockId) (value : Int64)
  /-- There is no such block. -/
  | unknownBlock (block : BlockId)
  /-- There is no such instruction. -/
  | unknownInstr (id : InstrId)
  /-- A set of numbers was written beyond its capacity. -/
  | outOfBounds (cause : BitSet.OutOfBounds)
deriving DecidableEq, Repr

/-- The wording of an error. Before the defect of a malformed function a program may also name the
line of its own text that noticed it; that line is no part of the model and is left out. -/
def Error.message : Error → String
  | .malformed d => s!"Malformed - {d.message}"
  | .empty => "Provided function was empty"
  | .missingFact id => s!"No lattice entry for instruction {valueName id}"
  | .invalidCondition b value =>
    s!"Branch condition in block {blockName b} folded to {value.toInt}, expected 0 or 1"
  | .unknownBlock b => s!"Block {blockName b} does not exist"
  | .unknownInstr id => s!"Instruction {valueName id} does not exist"
  | .outOfBounds cause => cause.message

end ConstFlow
