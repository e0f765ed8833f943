import ConstFlow.Flow.FactMap
import ConstFlow.Flow.Visits

/-!
# Transfer functions

`evaluate` says what one instruction yields under the current facts: the fact of its value and the
blocks to which control may pass. An operand of which nothing is known keeps a result unknown
unless the other operand is overdefined already.
-/

namespace ConstFlow

/-- What an instruction yields: the fact of its value, and the edges that may be taken. -/
structure Yield where
  fact : Fact
  targets : List BlockId
deriving DecidableEq, Repr

/-- The fact of an operation on two constants, lifted to facts. -/
def Fact.lift₂ (g : Int64 → Int64 → Int64) : Fact → Fact → Fact
  | .overdefined, _ => .overdefined
  | _, .overdefined => .overdefined
  | .const a, .const b => .const (g a b)
  | _, _ => .unknown

/-- The word one for a comparison that holds, and zero for one that does not. -/
def Predicate.word (p : Predicate) (a b : Int64) : Int64 :=
  if p.holds a b then 1 else 0

/-- Evaluates an operation of two operands, the left one first. -/
def evalBinary (m : FactMap) (g : Int64 → Int64 → Int64) (left right : Operand) :
    Except Error Yield :=
  match m.resolve left with
  | .error e => .error e
  | .ok a =>
    match m.resolve right with
    | .error e => .error e
    | .ok b => .ok ⟨a.lift₂ g b, []⟩

/-- A phi entry counts if its value is defined and control came from its predecessor. -/
def PhiInput.counts (x : Visits) (p : PhiInput) : Bool :=
  !p.value.isUndef && x.reached p.pred

/-- Joins the phi entries that count into `acc`, and stops once the result is overdefined. -/
def evalPhi (m : FactMap) (x : Visits) (acc : Fact) : List PhiInput → Except Error Fact
  | [] => .ok acc
  | p :: ps =>
    if p.counts x then
      match m.resolve p.value with
      | .error e => .error e
      | .ok v =>
        if (acc.join v).isOverdefined then .ok (acc.join v) else evalPhi m x (acc.join v) ps
    else evalPhi m x acc ps

/-- The edges of a branch on `v` in block `b` that may be taken. A constant condition is zero or
one. -/
def branchTargets (b : BlockId) (v : Fact) (onTrue onFalse : BlockId) :
    Except Error (List BlockId) :=
  match v with
  | .const c =>
    if c = 1 then .ok [onTrue]
    else if c = 0 then .ok [onFalse]
    else .error (.invalidCondition b c)
  | _ => .ok [onTrue, onFalse]

/-- What an instruction yields under the facts `m` and the visits `x`. -/
def evaluate (m : FactMap) (x : Visits) (i : Instr) : Except Error Yield :=
  match i.op with
  | .jump target => .ok ⟨.overdefined, [target]⟩
  | .branch cond onTrue onFalse =>
    match m.resolve cond with
    | .error e => .error e
    | .ok v => (branchTargets i.block v onTrue onFalse).map (Yield.mk v)
  | .compare p left right => evalBinary m p.word left right
  | .add left right => evalBinary m (· + ·) left right
  | .sub left right => evalBinary m (· - ·) left right
  | .phi inputs => (evalPhi m x .unknown inputs).map (Yield.mk · [])
  | .ret _ | .uninterpreted .. => .ok ⟨.overdefined, []⟩

end ConstFlow
