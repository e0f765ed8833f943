import ConstFlow.Fold.Pass

/-!
# Schedules

A `Schedule` runs its passes over a list of functions, round after round, until a round changes
nothing or the limit is reached.

Within a pass no function depends on another, and they may be taken in any order or side by side.
How they are taken is the `Iteration` of the schedule. `Pass.sweep` goes along the list and stops at
the first failure. If some function fails, that is one outcome of several: another iteration may
meet another failure first, and may by then have worked on more of the functions or on fewer.
-/

namespace ConstFlow

/-- The functions under work, and what was recorded. -/
structure Batch where
  funcs : List Func
  events : EventLog
  notes : Array Note
deriving DecidableEq, Repr

def Batch.cons (f : Func) (b : Batch) : Batch :=
  { b with funcs := f :: b.funcs }

/-- The event that tells of a failed pass. -/
def Pass.failure (p : Pass) (function : String) (e : Error) : EventDraft :=
  { kind := .error, function := some function, pass := some p.name, message := some e.message }

/-- A way to run a pass over a list of functions. It adds to what was recorded before, and says
whether a function changed. -/
abbrev Iteration := Pass → List Func → EventLog → Array Note → EStateM.Result Error Batch Bool

/-- Takes the functions in order, up to the first failure. The functions behind a failure stay as
they are. -/
def Pass.sweep (p : Pass) : List Func → EventLog → Array Note → EStateM.Result Error Batch Bool
  | [], events, notes => .ok false ⟨[], events, notes⟩
  | f :: fs, events, notes =>
    if p.applies f then
      match p.run (Workspace.ofFunc f) with
      | .error e w =>
        .error e ⟨w.func :: fs, (events.merge w.events).record (p.failure w.func.name e),
          notes ++ w.notes⟩
      | .ok changed w =>
        match p.sweep fs (events.merge w.events) (notes ++ w.notes) with
        | .error e b => .error e (b.cons w.func)
        | .ok later b => .ok (changed || later) (b.cons w.func)
    else
      match p.sweep fs events notes with
      | .error e b => .error e (b.cons f)
      | .ok later b => .ok later (b.cons f)

/-- Passes to run in order, the largest number of rounds, and how a pass takes the functions. -/
structure Schedule where
  passes : List Pass
  maxRounds : Nat := 5
  iterate : Iteration := Pass.sweep

/-- Runs a list of passes in order, each over all functions. -/
def sweepAll (it : Iteration) : List Pass → EStateM Error Batch Bool
  | [], b => .ok false b
  | p :: ps, b =>
    match it p b.funcs b.events b.notes with
    | .error e b' => .error e b'
    | .ok changed b' =>
      match sweepAll it ps b' with
      | .error e b'' => .error e b''
      | .ok later b'' => .ok (changed || later) b''

namespace Schedule

/-- One round: every pass over every function. Says whether something changed. -/
def round (s : Schedule) : EStateM Error Batch Bool :=
  sweepAll s.iterate s.passes

/-- At most `n` rounds, and none after a round without a change. Counts the rounds. -/
def rounds (s : Schedule) : Nat → EStateM Error Batch Nat
  | 0, b => .ok 0 b
  | n + 1, b =>
    match s.round b with
    | .error e b' => .error e b'
    | .ok false b' => .ok 1 b'
    | .ok true b' =>
      match s.rounds n b' with
      | .error e b'' => .error e b''
      | .ok k b'' => .ok (k + 1) b''

/-- Runs the schedule to its end, and counts the rounds. -/
def run (s : Schedule) : EStateM Error Batch Nat := fun b =>
  match s.rounds s.maxRounds b with
  | .error e b' => .error e b'
  | .ok k b' =>
    .ok k { b' with
      notes := b'.notes.push
        (.scheduleEnded s.passes.length b'.funcs.length k b'.events.summary) }

end Schedule

end ConstFlow
