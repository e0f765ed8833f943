import ConstFlow.Func.Basic

/-!
# Editing functions

Three edits keep the user index in step with the operands: `Func.replaceUses`, `Func.remove` and
`Func.replaceTerminator`. An edit that fails leaves the function as it was. The predecessor lists
are kept as they are; `Func.recomputePreds` brings them up to date.
-/

namespace ConstFlow

namespace Func

/-! ## The user index -/

def link (id : InstrId) (values : List InstrId) (f : Func) : Func :=
  { f with users := enroll id values f.users }

/-- Strikes `id` as a user of every value in the list. -/
def unlink (id : InstrId) (values : List InstrId) (f : Func) : Func :=
  { f with users := values.foldl (fun users v => users.modify v (·.filter (· ≠ id))) f.users }

/-- The function with the operation of slot `id` replaced, if the slot is live. -/
def setOp (id : InstrId) (op : Op) (f : Func) : Func :=
  { f with arena := f.arena.modify id (Option.map fun i => { i with op := op }) }

/-! ## Edits -/

/-- Replaces the value `old` by `new` in one user, which becomes a user of `new`. The number counts
the operands replaced; a user that is gone has none. -/
def replaceIn (old : InstrId) (new : Operand) (p : Nat × Func) (user : InstrId) : Nat × Func :=
  match p.2.instr? user with
  | some i =>
    (p.1 + i.op.uses.count old,
      (p.2.setOp user (i.op.substitute old new)).link user new.value?.toList)
  | none => p

/-- Replaces the value `id` by `new` in all its users, and counts the operands replaced. Replacing
a value by itself does nothing. -/
def replaceUses (f : Func) (id : InstrId) (new : Operand) : Except Error (Nat × Func) :=
  match f.instr? id with
  | none => .error (.unknownInstr id)
  | some _ =>
    if new.references id then .ok (0, f)
    else
      .ok ((f.usersOf id).foldl (replaceIn id new)
        (0, { f with users := f.users.setIfInBounds id [] }))

/-- Removes an instruction from its slot, its block and the user lists of what it reads. -/
def remove (f : Func) (id : InstrId) : Except Error (Instr × Func) :=
  match f.instr? id with
  | none => .error (.unknownInstr id)
  | some i =>
    .ok (i, { f with
      arena := f.arena.setIfInBounds id none
      blocks := f.blocks.modify i.block (·.detach id) }.unlink id i.op.uses)

/-- Ends a block in another operation, and gives the operation it had. -/
def replaceTerminator (f : Func) (b : BlockId) (op : Op) : Except Error (Op × Func) :=
  if op.isTerminator then
    match f.block? b with
    | none => .error (.unknownBlock b)
    | some blk =>
      match blk.terminator? with
      | none => .error (.malformed (.lacksTerminator b))
      | some id =>
        match f.instr? id with
        | none => .error (.malformed (.unterminated b))
        | some i =>
          if i.op.isTerminator then
            .ok (i.op, ((f.setOp id op).unlink id i.op.uses).link id op.uses)
          else .error (.malformed (.unterminated b))
  else .error (.malformed (.notTerminator b op))

end Func

end ConstFlow
