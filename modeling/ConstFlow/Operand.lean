/-!
# Operands

An instruction computes at most one value, and the value is named by the instruction's number.
Constants are 64-bit words, read as signed numbers where they are printed.
-/

namespace ConstFlow

/-- The number of an instruction, which also names the value it computes. -/
abbrev InstrId := Nat

/-- The number of a basic block. -/
abbrev BlockId := Nat

def valueName (id : InstrId) : String :=
  s!"%{id}"

def blockName (b : BlockId) : String :=
  s!"B{b}"

/-- What an instruction reads. -/
inductive Operand where
  | const (c : Int64)
  | value (id : InstrId)
  | undef
deriving DecidableEq, Repr

namespace Operand

def const? : Operand → Option Int64
  | .const c => some c
  | _ => none

def value? : Operand → Option InstrId
  | .value id => some id
  | _ => none

def isUndef : Operand → Bool
  | .undef => true
  | _ => false

/-- The operand reads the value `id`. -/
def references (o : Operand) (id : InstrId) : Bool :=
  o == .value id

/-- The constant one for true and zero for false. -/
def ofBool (b : Bool) : Operand :=
  .const (if b then 1 else 0)

/-- The written form: a signed decimal, `%` and a number, or `undef`. -/
def text : Operand → String
  | .const c => toString c.toInt
  | .value id => valueName id
  | .undef => "undef"

end Operand

end ConstFlow
