/-!
# Comparison predicates

The ten comparisons of 64-bit words: equality, and the four orders read once as signed and once as
unsigned numbers.
-/

namespace ConstFlow

/-- A comparison of two words. -/
inductive Predicate where
  | eq
  | ne
  | sgt
  | sge
  | slt
  | sle
  | ugt
  | uge
  | ult
  | ule
deriving DecidableEq, Repr

/-- A text that names no predicate. -/
structure UnknownPredicate where
  name : String
deriving DecidableEq, Repr

def UnknownPredicate.message (_ : UnknownPredicate) : String :=
  "Matching variant not found"

namespace Predicate

def all : List Predicate :=
  [.eq, .ne, .sgt, .sge, .slt, .sle, .ugt, .uge, .ult, .ule]

def name : Predicate → String
  | .eq => "eq"
  | .ne => "ne"
  | .sgt => "sgt"
  | .sge => "sge"
  | .slt => "slt"
  | .sle => "sle"
  | .ugt => "ugt"
  | .uge => "uge"
  | .ult => "ult"
  | .ule => "ule"

/-- The predicate with the given name, letter for letter. -/
def ofName (s : String) : Except UnknownPredicate Predicate :=
  match all.find? (·.name == s) with
  | some p => .ok p
  | none => .error ⟨s⟩

/-- An order of signed numbers. -/
def isSigned : Predicate → Bool
  | .sgt | .sge | .slt | .sle => true
  | _ => false

/-- An order of unsigned numbers. -/
def isUnsigned : Predicate → Bool
  | .ugt | .uge | .ult | .ule => true
  | _ => false

def holds : Predicate → Int64 → Int64 → Bool
  | .eq, a, b => a == b
  | .ne, a, b => a != b
  | .sgt, a, b => decide (b < a)
  | .sge, a, b => decide (b ≤ a)
  | .slt, a, b => decide (a < b)
  | .sle, a, b => decide (a ≤ b)
  | .ugt, a, b => decide (b.toUInt64 < a.toUInt64)
  | .uge, a, b => decide (b.toUInt64 ≤ a.toUInt64)
  | .ult, a, b => decide (a.toUInt64 < b.toUInt64)
  | .ule, a, b => decide (a.toUInt64 ≤ b.toUInt64)

end Predicate

end ConstFlow
