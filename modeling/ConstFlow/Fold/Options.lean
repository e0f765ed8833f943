/-!
# Options of constant propagation
-/

namespace ConstFlow

/-- What constant propagation may do to a function. -/
structure Options where
  /-- Replace values that are always one constant. -/
  foldValues : Bool := true
  /-- Replace branches that always go one way. -/
  foldBranches : Bool := true
  /-- Refuse functions that are not well formed. -/
  verifyInput : Bool := true
  /-- Record the facts that each value goes through. -/
  recordHistory : Bool := false
deriving DecidableEq, Repr

namespace Options

/-- Change nothing. -/
def analysisOnly : Options :=
  { foldValues := false, foldBranches := false }

/-- Record histories. -/
def debugging : Options :=
  { recordHistory := true }

/-- Accept any function. -/
def unchecked : Options :=
  { verifyInput := false }

def allowsChange (o : Options) : Bool :=
  o.foldValues || o.foldBranches

end Options

end ConstFlow
