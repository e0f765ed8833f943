import ConstFlow.Func.Basic

/-!
# Well-formed functions

`Func.defect?` finds the first defect of a function, block by block and instruction by
instruction; `Func.validate` refuses a function that has one, or that has no blocks.
-/

namespace ConstFlow

namespace Func

def useDefect? (f : Func) (id used : InstrId) : Option Defect :=
  match f.instr? used with
  | some d => if d.op.producesValue then none else some (.valueless id used)
  | none => some (.undefinedValue id used)

/-- What is wrong with the operation of `id`, which block `b` lists: its edges, then its phi
entries, then its operands. -/
def opDefect? (f : Func) (b : BlockId) (id : InstrId) (op : Op) : Option Defect :=
  (op.successors.findSome? fun t =>
    if t < f.blockCount then none else some (.missingTarget id b t)).or
  ((op.phiInputs.findSome? fun p =>
    if p.pred ∈ f.preds b then none else some (.phiPredecessor id p.pred b)).or
  (op.uses.findSome? (f.useDefect? id)))

/-- What is wrong with the instruction `id` that block `b` lists, at its end or before. -/
def instrDefect? (f : Func) (b : BlockId) (atEnd : Bool) (id : InstrId) : Option Defect :=
  match f.instr? id with
  | none => some (.listsRemoved b id)
  | some i =>
    if i.block ≠ b then some (.foreignOwner id b i.block)
    else if i.op.isTerminator ≠ atEnd then some (.terminatorPlace b id)
    else f.opDefect? b id i.op

def listDefect? (f : Func) (b : BlockId) : List InstrId → Option Defect
  | [] => none
  | id :: ids => (f.instrDefect? b ids.isEmpty id).or (f.listDefect? b ids)

def blockDefect? (f : Func) (b : BlockId) (blk : Block) : Option Defect :=
  if blk.instrs.isEmpty then some (.emptyBlock b) else f.listDefect? b blk.instrs

/-- What is wrong with the number of instructions listed. -/
def countDefect? (f : Func) : Option Defect :=
  if f.listedCount = f.instrs.length then none
  else some (.unplaced f.instrs.length f.listedCount)

def defect? (f : Func) : Option Defect :=
  (f.blocks.toList.zipIdx.findSome? fun p => f.blockDefect? p.2 p.1).or f.countDefect?

/-- Accepts a function with at least one block and no defect. -/
def validate (f : Func) : Except Error Unit :=
  if f.isEmpty then .error .empty
  else
    match f.defect? with
    | some d => .error (.malformed d)
    | none => .ok ()

end Func

end ConstFlow
