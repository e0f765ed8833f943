import ConstFlow.Operand
import ConstFlow.Predicate

/-!
# Operations

The operations of an instruction: three that end a block (`jump`, `branch`, `ret`), four that the
analysis can fold (`compare`, `phi`, `add`, `sub`), and `uninterpreted`, which stands for every
operation without a folding rule.

* `Op.operands` : the operands in reading order;
* `Op.mapOperands` : the same operation on other operands, taken in the same order;
* `Op.successors` : the blocks to which control may pass, one entry per edge;
* `Op.text` : the written form.
-/

namespace ConstFlow

/-- One entry of a phi: the value taken when control comes from `pred`. -/
structure PhiInput where
  value : Operand
  pred : BlockId
deriving DecidableEq, Repr

def PhiInput.text (p : PhiInput) : String :=
  s!"[{p.value.text}, {blockName p.pred}]"

/-- What an instruction does. -/
inductive Op where
  | jump (target : BlockId)
  | branch (cond : Operand) (onTrue onFalse : BlockId)
  | ret (value : Option Operand)
  | compare (p : Predicate) (left right : Operand)
  | phi (inputs : List PhiInput)
  | add (left right : Operand)
  | sub (left right : Operand)
  | uninterpreted (name : String) (args : List Operand)
deriving DecidableEq, Repr

namespace Op

def isTerminator : Op → Bool
  | .jump _ | .branch .. | .ret _ => true
  | _ => false

def producesValue (op : Op) : Bool :=
  !op.isTerminator

def isPhi : Op → Bool
  | .phi _ => true
  | _ => false

/-- The operation can be replaced by a constant. -/
def isFoldable : Op → Bool
  | .compare .. | .phi _ | .add .. | .sub .. => true
  | _ => false

def mnemonic : Op → String
  | .jump _ => "jmp"
  | .branch .. => "br"
  | .ret _ => "ret"
  | .compare .. => "icmp"
  | .phi _ => "phi"
  | .add .. => "add"
  | .sub .. => "sub"
  | .uninterpreted name _ => name

/-- The operands in reading order. -/
def operands : Op → List Operand
  | .jump _ => []
  | .branch cond _ _ => [cond]
  | .ret value => value.toList
  | .compare _ left right => [left, right]
  | .phi inputs => inputs.map (·.value)
  | .add left right => [left, right]
  | .sub left right => [left, right]
  | .uninterpreted _ args => args

/-- The operation with every operand changed by `f`. -/
def mapOperands (f : Operand → Operand) : Op → Op
  | .jump target => .jump target
  | .branch cond onTrue onFalse => .branch (f cond) onTrue onFalse
  | .ret value => .ret (value.map f)
  | .compare p left right => .compare p (f left) (f right)
  | .phi inputs => .phi (inputs.map fun i => { i with value := f i.value })
  | .add left right => .add (f left) (f right)
  | .sub left right => .sub (f left) (f right)
  | .uninterpreted name args => .uninterpreted name (args.map f)

/-- The entries of a phi, and none for other operations. -/
def phiInputs : Op → List PhiInput
  | .phi inputs => inputs
  | _ => []

/-- The blocks to which control may pass, one entry per edge. -/
def successors : Op → List BlockId
  | .jump target => [target]
  | .branch _ onTrue onFalse => [onTrue, onFalse]
  | _ => []

/-- Changing operands moves no edge. -/
@[simp] theorem successors_mapOperands (f : Operand → Operand) (op : Op) :
    (op.mapOperands f).successors = op.successors := by
  cases op <;> rfl

@[simp] theorem operands_mapOperands (f : Operand → Operand) (op : Op) :
    (op.mapOperands f).operands = op.operands.map f := by
  cases op with
  | ret value => cases value <;> rfl
  | phi inputs => simp [mapOperands, operands, Function.comp_def]
  | _ => rfl

/-- The values read, in reading order. -/
def uses (op : Op) : List InstrId :=
  op.operands.filterMap Operand.value?

/-- The operation with every reading of the value `id` replaced. -/
def substitute (id : InstrId) (new : Operand) (op : Op) : Op :=
  op.mapOperands fun o => if o.references id then new else o

/-- A word followed by its arguments. -/
def spread (word : String) (args : List String) : String :=
  if args.isEmpty then word else word ++ " " ++ ", ".intercalate args

def text : Op → String
  | .jump target => s!"jmp {blockName target}"
  | .branch cond onTrue onFalse => s!"br {cond.text}, {blockName onTrue}, {blockName onFalse}"
  | .ret none => "ret"
  | .ret (some value) => s!"ret {value.text}"
  | .compare p left right => s!"icmp {p.name} {left.text}, {right.text}"
  | .phi inputs => spread "phi" (inputs.map PhiInput.text)
  | .add left right => s!"add {left.text}, {right.text}"
  | .sub left right => s!"sub {left.text}, {right.text}"
  | .uninterpreted name args => spread name (args.map Operand.text)

end Op

/-- An instruction: its number, the block that owns it, and what it does. -/
structure Instr where
  id : InstrId
  block : BlockId
  op : Op
deriving DecidableEq, Repr

/-- The written form: a value is assigned, an operation without a value stands alone. -/
def Instr.text (i : Instr) : String :=
  if i.op.producesValue then s!"{valueName i.id} = {i.op.text}" else i.op.text

end ConstFlow
