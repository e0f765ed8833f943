import ConstFlow.Error

/-!
# Work lists

A `Worklist` is a first-in first-out queue of numbers together with the set of its entries, so that
a number waits at most once.
-/

namespace ConstFlow

/-- The numbers that wait, in order, and the set of them. -/
structure Worklist where
  pending : List Nat
  queued : BitSet
deriving DecidableEq, Repr

namespace Worklist

def empty (n : Nat) : Worklist :=
  ⟨[], BitSet.empty n⟩

/-- Puts a number at the end, unless it waits already. -/
def push (w : Worklist) (i : Nat) : Except Error Worklist :=
  match w.queued.insert i with
  | .error e => .error (.outOfBounds e)
  | .ok (fresh, queued) => .ok ⟨if fresh then w.pending ++ [i] else w.pending, queued⟩

/-- Takes the first number, if one waits. -/
def pop? (w : Worklist) : Except Error (Option (Nat × Worklist)) :=
  match w.pending with
  | [] => .ok none
  | i :: rest =>
    match w.queued.erase i with
    | .error e => .error (.outOfBounds e)
    | .ok (_, queued) => .ok (some (i, ⟨rest, queued⟩))

/-- A push adds at most one entry. -/
theorem length_push {w w' : Worklist} {i : Nat} (h : w.push i = .ok w') :
    w'.pending.length ≤ w.pending.length + 1 := by
  unfold push at h
  split at h
  · cases h
  · cases h
    simp only
    split <;> simp

/-- A pop takes one entry away. -/
theorem length_pop {w w' : Worklist} {i : Nat} (h : w.pop? = .ok (some (i, w'))) :
    w.pending.length = w'.pending.length + 1 := by
  unfold pop? at h
  split at h
  · cases h
  · split at h
    · cases h
    · simp only [Except.ok.injEq, Option.some.injEq, Prod.mk.injEq] at h
      obtain ⟨rfl, rfl⟩ := h
      simp_all

end Worklist

end ConstFlow
