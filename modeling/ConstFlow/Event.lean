import ConstFlow.Operand

/-!
# Events

An event says what a pass did to which function. An `EventLog` keeps events in the order in which
they were recorded.

* `Event` : a finished event;
* `EventDraft` : an event under construction, whose message defaults to the words of its kind;
* `EventLog.summary` : what a log adds up to, in words.
-/

namespace ConstFlow

/-- What an event is about: four kinds tell of changes, the last three are diagnostics. -/
inductive EventKind where
  | constantFolded
  | phiSimplified
  | branchSimplified
  | instructionRemoved
  | passStarted
  | passCompleted
  | info
  | warning
  | error
deriving DecidableEq, Repr

namespace EventKind

def all : List EventKind :=
  [.constantFolded, .phiSimplified, .branchSimplified, .instructionRemoved, .passStarted,
    .passCompleted, .info, .warning, .error]

def description : EventKind → String
  | .constantFolded => "constant folded"
  | .phiSimplified => "phi simplified"
  | .branchSimplified => "branch simplified"
  | .instructionRemoved => "instruction removed"
  | .passStarted => "pass started"
  | .passCompleted => "pass completed"
  | .info => "info"
  | .warning => "warning"
  | .error => "error"

def isTransformation : EventKind → Bool
  | .constantFolded | .phiSimplified | .branchSimplified | .instructionRemoved => true
  | _ => false

def isDiagnostic : EventKind → Bool
  | .info | .warning | .error => true
  | _ => false

end EventKind

/-- Something that happened to a function. -/
structure Event where
  kind : EventKind
  function : Option String
  block : Option BlockId
  message : String
  pass : Option String
deriving DecidableEq, Repr

namespace Event

/-- The function and block of an event; a block is told only with its function. -/
def placeText (e : Event) : String :=
  match e.function, e.block with
  | some function, some b => s!" {function}:{blockName b}"
  | some function, none => s!" {function}"
  | none, _ => ""

/-- The written form: the words for the kind, the place, and the message. -/
def text (e : Event) : String :=
  s!"[{e.kind.description}]{e.placeText} {e.message}"

end Event

/-- An event under construction. -/
structure EventDraft where
  kind : EventKind
  function : Option String := none
  block : Option BlockId := none
  message : Option String := none
  pass : Option String := none
deriving DecidableEq, Repr

def EventDraft.finish (d : EventDraft) : Event where
  kind := d.kind
  function := d.function
  block := d.block
  message := d.message.getD d.kind.description
  pass := d.pass

/-- Events in the order in which they were recorded. -/
structure EventLog where
  events : Array Event
deriving DecidableEq, Repr

namespace EventLog

def empty : EventLog :=
  ⟨#[]⟩

def ofList (es : List Event) : EventLog :=
  ⟨es.toArray⟩

def toList (l : EventLog) : List Event :=
  l.events.toList

def size (l : EventLog) : Nat :=
  l.events.size

def isEmpty (l : EventLog) : Bool :=
  l.events.isEmpty

def record (l : EventLog) (d : EventDraft) : EventLog :=
  ⟨l.events.push d.finish⟩

def merge (l other : EventLog) : EventLog :=
  ⟨l.events ++ other.events⟩

def filter (l : EventLog) (p : Event → Bool) : List Event :=
  l.toList.filter p

def ofKind (l : EventLog) (k : EventKind) : List Event :=
  l.filter (·.kind == k)

def count (l : EventLog) (k : EventKind) : Nat :=
  (l.ofKind k).length

def has (l : EventLog) (k : EventKind) : Bool :=
  l.toList.any (·.kind == k)

def transformations (l : EventLog) : List Event :=
  l.filter (·.kind.isTransformation)

def diagnostics (l : EventLog) : List Event :=
  l.filter (·.kind.isDiagnostic)

def forFunction (l : EventLog) (name : String) : List Event :=
  l.filter (·.function == some name)

/-- The number of functions of which changes are told. -/
def changedFunctions (l : EventLog) : Nat :=
  (l.transformations.filterMap (·.function)).eraseDups.length

/-- The kinds that occur, with their counts, in listing order. -/
def countsByKind (l : EventLog) : List (EventKind × Nat) :=
  (EventKind.all.map fun k => (k, l.count k)).filter fun p => decide (0 < p.2)

/-- The counts of the kinds of change that occur, as texts in alphabetical order. -/
def changeCounts (l : EventLog) : List String :=
  ((l.countsByKind.filter (·.1.isTransformation)).map fun p =>
    s!"{p.2} {p.1.description}").mergeSort (fun a b => decide (a ≤ b))

/-- What the log adds up to: the changes by kind if there are any, else the number of events. -/
def summary (l : EventLog) : String :=
  if l.isEmpty then "no events"
  else if l.changeCounts.isEmpty then s!"{l.size} events"
  else ", ".intercalate l.changeCounts

end EventLog

end ConstFlow
