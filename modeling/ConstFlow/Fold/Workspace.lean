import ConstFlow.Event
import ConstFlow.Func.Basic
import ConstFlow.Journal

/-!
# Work on one function

A `Workspace` holds the function under work with the events and notes recorded so far. `Work` is a
computation on it; a failure keeps what was done and recorded before.
-/

namespace ConstFlow

/-- The function under work, and what was recorded. -/
structure Workspace where
  func : Func
  events : EventLog
  notes : Array Note
deriving DecidableEq, Repr

namespace Workspace

/-- A function of which nothing was recorded yet. -/
def ofFunc (f : Func) : Workspace :=
  ⟨f, .empty, #[]⟩

def record (w : Workspace) (d : EventDraft) : Workspace :=
  { w with events := w.events.record d }

def note (w : Workspace) (n : Note) : Workspace :=
  { w with notes := w.notes.push n }

end Workspace

/-- A computation on a workspace. -/
abbrev Work := EStateM Error Workspace

end ConstFlow
