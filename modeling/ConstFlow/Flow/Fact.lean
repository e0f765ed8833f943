/-!
# Facts about values

What the analysis knows of a value: nothing yet, that it is one constant, or that no single
constant will do. `Fact.join` is the least upper bound for this order, and facts only rise.
-/

namespace ConstFlow

/-- What is known of a value. -/
inductive Fact where
  | unknown
  | const (c : Int64)
  | overdefined
deriving DecidableEq, Repr

namespace Fact

instance : Inhabited Fact := ⟨.unknown⟩

def const? : Fact → Option Int64
  | .const c => some c
  | _ => none

def isUnknown (v : Fact) : Bool :=
  v == .unknown

def isConst (v : Fact) : Bool :=
  v.const?.isSome

/-- The highest fact, which no join changes. -/
def isOverdefined (v : Fact) : Bool :=
  v == .overdefined

/-- The number of steps from the bottom. -/
def height : Fact → Nat
  | .unknown => 0
  | .const _ => 1
  | .overdefined => 2

/-- The least fact above both. -/
def join : Fact → Fact → Fact
  | .unknown, b => b
  | a, .unknown => a
  | .const a, .const b => if a = b then .const a else .overdefined
  | _, _ => .overdefined

/-- The joins of `acc` with ever more facts of a list. -/
def runningJoins (acc : Fact) : List Fact → List Fact
  | [] => []
  | v :: vs => acc.join v :: runningJoins (acc.join v) vs

/-- The order of two facts; different constants are not comparable. -/
def compare? : Fact → Fact → Option Ordering
  | .const a, .const b => if a = b then some .eq else none
  | a, b => some (compare a.height b.height)

def text : Fact → String
  | .unknown => "unknown"
  | .const c => s!"const {c.toInt}"
  | .overdefined => "overdefined"

theorem height_le_two (v : Fact) : v.height ≤ 2 := by
  cases v <;> simp [height]

/-- A join that is not the old fact is higher than it. -/
theorem height_lt_join {a b : Fact} (h : a.join b ≠ a) : a.height < (a.join b).height := by
  cases a <;> cases b <;> simp_all [join, height]
  split at h <;> simp_all

end Fact

end ConstFlow
