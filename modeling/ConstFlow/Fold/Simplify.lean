import ConstFlow.Flow.Solution
import ConstFlow.Fold.Options
import ConstFlow.Fold.Workspace
import ConstFlow.Func.Edit

/-!
# Putting a solution to use

A value that is always one constant is replaced by it and its instruction removed. A branch in a
reached block that always goes one way becomes a jump. All changes are planned on the function as
it stands, then made one after another.

* `plan` : the changes, block by block;
* `Change.commit` : one change, with its note and its events;
* `simplify` : the whole, with the number of changes.
-/

namespace ConstFlow

/-- A planned change, with the instruction as it stood when it was planned. -/
inductive Change where
  /-- The value becomes a constant. -/
  | foldValue (block : BlockId) (instr : Instr) (value : Int64)
  /-- The branch becomes a jump. -/
  | foldBranch (block : BlockId) (instr : Instr) (target : BlockId)
deriving DecidableEq, Repr

/-! ## Planning -/

/-- The change to a branch on `cond` at the end of block `b`. The condition, if it is decided, is
zero or one. -/
def planBranch (r : Solution) (b : BlockId) (i : Instr) (cond : Operand)
    (onTrue onFalse : BlockId) : Except Error (Option Change) :=
  match r.operandConst? cond with
  | none => .ok none
  | some c =>
    if c = 1 then .ok (some (.foldBranch b i onTrue))
    else if c = 0 then .ok (some (.foldBranch b i onFalse))
    else .error (.invalidCondition b c)

/-- The change to one instruction of block `b`, if there is one. -/
def planInstr (r : Solution) (o : Options) (b : BlockId) (i : Instr) :
    Except Error (Option Change) :=
  match i.op with
  | .branch cond onTrue onFalse =>
    if o.foldBranches && r.reached b then planBranch r b i cond onTrue onFalse else .ok none
  | op =>
    if op.isFoldable && o.foldValues then
      .ok ((r.const? i.id).map (Change.foldValue b i))
    else .ok none

/-- The changes to a list of instructions, each with its block, up to the first failure. -/
def planAll (r : Solution) (o : Options) : List (BlockId × Instr) → Except Error (List Change)
  | [] => .ok []
  | (b, i) :: rest =>
    match planInstr r o b i with
    | .error e => .error e
    | .ok change =>
      match planAll r o rest with
      | .error e => .error e
      | .ok changes => .ok (change.toList ++ changes)

/-- The live instructions that the blocks list, each with its block. -/
def Func.placed (f : Func) : List (BlockId × Instr) :=
  f.blocks.toList.flatMap fun blk => (f.blockInstrs blk.id).map (blk.id, ·)

/-- The changes that a solution allows. -/
def plan (r : Solution) (o : Options) (f : Func) : Except Error (List Change) :=
  planAll r o f.placed

/-! ## Making the changes -/

def Workspace.recordAt (w : Workspace) (kind : EventKind) (b : BlockId) (message : String)
    (pass : Option String) : Workspace :=
  w.record
    { kind := kind, function := some w.func.name, block := some b, message := some message,
      pass := pass }

def Change.commit (pass : Option String) : Change → Work Unit
  | .foldValue b i c, w =>
    match w.func.replaceUses i.id (.const c) with
    | .error e => .error e w
    | .ok (uses, f₁) =>
      match f₁.remove i.id with
      | .error e => .error e { w with func := f₁ }
      | .ok (_, f₂) =>
        let kind := if i.op.isPhi then .phiSimplified else .constantFolded
        .ok () (((({ w with func := f₂ } : Workspace).note (.folded i.text c uses)).recordAt
          kind b s!"{i.text} -> {c.toInt}" pass).recordAt
          .instructionRemoved b (valueName i.id) pass)
  | .foldBranch b i target, w =>
    match w.func.replaceTerminator b (.jump target) with
    | .error e => .error e w
    | .ok (_, f) =>
      .ok () ((({ w with func := f } : Workspace).note (.branchDecided b i.text target)).recordAt
        .branchSimplified b s!"{i.text} -> {(Op.jump target).text}" pass)

/-- Makes changes in order, up to the first failure. -/
def commitAll (pass : Option String) : List Change → Work Unit
  | [], w => .ok () w
  | c :: cs, w =>
    match c.commit pass w with
    | .ok _ w' => commitAll pass cs w'
    | .error e w' => .error e w'

/-- Tells that a solution has another number of slots than the function. -/
def warnSize (r : Solution) (pass : Option String) (w : Workspace) : Workspace :=
  if r.facts.size = w.func.slotCount then w
  else
    let n : Note := .sizeMismatch r.facts.size w.func.name w.func.slotCount
    (w.note n).record
      { kind := .warning, function := some w.func.name, message := some n.message, pass := pass }

/-- Changes the function under work as a solution allows, and counts the changes. A plan that
fails changes nothing. -/
def simplify (r : Solution) (o : Options) (pass : Option String) : Work Nat := fun w =>
  let w := warnSize r pass w
  match plan r o w.func with
  | .error e => .error e w
  | .ok changes =>
    match commitAll pass changes w with
    | .error e w' => .error e w'
    | .ok _ w' =>
      .ok changes.length
        (if changes.isEmpty then w' else w'.note (.simplified changes.length w'.func.name))

end ConstFlow
