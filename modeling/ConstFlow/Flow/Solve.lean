import ConstFlow.Flow.Potential
import ConstFlow.Flow.Solution

/-!
# The analysis as a whole

`runTasks` performs tasks until none is due. It ends because `State.potential` falls with every
task. `Func.analyse` runs the analysis of a function and keeps the notes taken, also on failure;
`Func.solve` keeps the result alone.
-/

namespace ConstFlow

set_option linter.unusedVariables false in
/-- Performs the tasks that are due until none is left. -/
def runTasks (f : Func) : Run Unit := fun s =>
  match hn : s.next? with
  | .error e => .error e s
  | .ok none => .ok () s
  | .ok (some (t, s₁)) =>
    match hp : perform f t s₁ with
    | .error e s₂ => .error e s₂
    | .ok _ s₂ => runTasks f s₂
termination_by s => s.potential f
decreasing_by exact potential_perform_lt hn hp

def State.solution (s : State) (function : String) : Solution where
  function := function
  facts := s.facts
  visits := s.visits.counts.toArray
  history := s.history
  blockVisits := s.blockVisits
  instrVisits := s.instrVisits
  changes := s.changes

/-- An analysis: its result, and the notes taken up to the end or the failure. -/
structure Analysis where
  result : Except Error Solution
  notes : Array Note

/-- Analyses a function, and records the facts of every slot if asked to. -/
def Func.analyse (f : Func) (history : Bool) : Analysis :=
  match State.start f history with
  | .error e => ⟨.error e, #[]⟩
  | .ok s =>
    match runTasks f s with
    | .error e s' => ⟨.error e, s'.notes⟩
    | .ok _ s' =>
      ⟨.ok (s'.solution f.name),
        s'.notes.push (.solved f.name s'.blockVisits s'.instrVisits s'.changes)⟩

def Func.solve (f : Func) (history : Bool) : Except Error Solution :=
  (f.analyse history).result

end ConstFlow
