import ConstFlow.Flow.Solve
import ConstFlow.Fold.Simplify
import ConstFlow.Func.Validity

/-!
# Passes

A `Pass` works on one function at a time and says whether it changed it. `constantPropagation` is
the pass that analyses a function and simplifies it by the result.
-/

namespace ConstFlow

/-- Work that can be done on every function. -/
structure Pass where
  name : String
  description : String := "No description available"
  /-- The pass has something to do on the function. -/
  applies : Func → Bool := fun _ => true
  /-- Does the work, and says whether the function changed. -/
  run : Work Bool

namespace ConstantPropagation

def name : String := "conditional-constant-propagation"

def description : String :=
  "Propagates constants along executable paths and folds decided branches using SCCP"

/-- The facts that a value went through, in words, if there was more than one. -/
def historyText? (r : Solution) (id : InstrId) : Option String :=
  match r.history? id with
  | some (v :: v' :: vs) =>
    some (valueName id ++ ": " ++ " -> ".intercalate ((v :: v' :: vs).map Fact.text))
  | _ => none

/-- One event for every live instruction whose fact rose. -/
def historyEvents (r : Solution) (f : Func) : List EventDraft :=
  f.instrs.filterMap fun i => (historyText? r i.id).map fun message =>
    { kind := .info, function := some f.name, block := some i.block, message := some message,
      pass := some name }

/-- Checks the function under work, if asked to. -/
def verify (o : Options) : Work Unit := fun w =>
  if o.verifyInput then
    match w.func.validate with
    | .ok _ => .ok () w
    | .error e => .error e w
  else .ok () w

/-- Analyses the function under work, and tells the histories if they are recorded. -/
def analyse (o : Options) : Work Solution := fun w =>
  let a := w.func.analyse o.recordHistory
  let w := { w with notes := w.notes ++ a.notes }
  match a.result with
  | .error e => .error e w
  | .ok r =>
    .ok r (if o.recordHistory then (historyEvents r w.func).foldl Workspace.record w else w)

/-- Simplifies the function under work, if the options allow a change. -/
def transform (o : Options) (r : Solution) : Work Nat := fun w =>
  if o.allowsChange then simplify r o (some name) w else .ok 0 w

def started (w : Workspace) : Workspace :=
  w.record { kind := .passStarted, function := some w.func.name, pass := some name }

def completed (r : Solution) (changes : Nat) (w : Workspace) : Workspace :=
  (w.note (.passEnded name w.func.name r.constants.length r.reachedBlocks.length
    w.func.blockCount changes)).record
    { kind := .passCompleted, function := some w.func.name,
      message := some s!"{changes} rewrites", pass := some name }

/-- Checks, analyses and simplifies the function under work. -/
def run (o : Options) : Work Bool := do
  modify started
  verify o
  let r ← analyse o
  let changes ← transform o r
  modify (completed r changes)
  return decide (0 < changes)

end ConstantPropagation

/-- Conditional constant propagation. -/
def constantPropagation (o : Options) : Pass where
  name := ConstantPropagation.name
  description := ConstantPropagation.description
  applies f := !f.isEmpty
  run := ConstantPropagation.run o

end ConstFlow
