import ConstFlow.Graph.Basic

/-!
# Depth-first orders

* `Graph.preorder g start` : the nodes met from `start`, each when it comes off the stack. A node
  is claimed when it is put on the stack, so it is listed once;
* `Graph.walk g start` : the nodes entered and left from `start`. A node is claimed when it is
  entered;
* `Graph.postorder g start` : the nodes of that walk in the order in which they are left;
* `Graph.reversePostorder g start` : the reverse of the latter.

Both walks carry the list of nodes not yet claimed. It only shrinks, and what its nodes can still
put on the stack bounds the walk. A start out of range gives the empty order.
-/

namespace ConstFlow

namespace Graph

/-! ## Preorder -/

/-- Puts a node on the stack and claims it, unless it is claimed already or out of range. The pair
holds the unclaimed nodes and the stack. -/
def claim (n : Nat) (p : List Nat × List Nat) : List Nat × List Nat :=
  if n ∈ p.1 then (p.1.erase n, n :: p.2) else p

/-- Claiming moves a node between the two lists. -/
theorem length_claim (n : Nat) (p : List Nat × List Nat) :
    (claim n p).1.length + (claim n p).2.length = p.1.length + p.2.length := by
  unfold claim
  split
  · next h =>
    have := List.length_pos_of_mem h
    simp only [List.length_erase_of_mem h, List.length_cons]
    omega
  · rfl

/-- Claims the nodes of a list, the last one first, so that the first one ends on top. -/
def claimAll (ns : List Nat) (p : List Nat × List Nat) : List Nat × List Nat :=
  ns.foldr claim p

theorem length_claimAll (ns : List Nat) (p : List Nat × List Nat) :
    (claimAll ns p).1.length + (claimAll ns p).2.length = p.1.length + p.2.length := by
  induction ns with
  | nil => rfl
  | cons n ns ih => exact (length_claim n (claimAll ns p)).trans ih

/-- Takes nodes off the stack until it is empty. -/
def preorderFrom (g : Graph) (unclaimed : List Nat) : List Nat → List Nat
  | [] => []
  | n :: stack =>
    n :: preorderFrom g (claimAll (g.succs n) (unclaimed, stack)).1
      (claimAll (g.succs n) (unclaimed, stack)).2
termination_by stack => unclaimed.length + stack.length
decreasing_by
  rw [length_claimAll]
  simp only [List.length_cons]
  omega

/-- The nodes reached from `start` in the order in which they come off the stack. -/
def preorder (g : Graph) (start : Nat) : List Nat :=
  if start < g.size then g.preorderFrom ((List.range g.size).erase start) [start] else []

/-! ## Postorder -/

/-- A moment of a walk: control comes to a node, or is done with all that lies below it. -/
inductive Visit where
  | enter (n : Nat)
  | leave (n : Nat)
deriving DecidableEq, Repr

namespace Visit

def entered? : Visit → Option Nat
  | .enter n => some n
  | .leave _ => none

def left? : Visit → Option Nat
  | .enter _ => none
  | .leave n => some n

end Visit

/-- What is to be done at a node: enter those of its successors that nobody has claimed, in order,
then leave it. -/
def agenda (g : Graph) (unclaimed : List Nat) (n : Nat) : List Visit :=
  ((g.succs n).filter (· ∈ unclaimed)).map .enter ++ [.leave n]

/-- A bound on the visits that the nodes of a list can still put on the stack. -/
def visitsLeft (g : Graph) (ns : List Nat) : Nat :=
  ns.length + (ns.flatMap g.succs).length

theorem visitsLeft_erase (g : Graph) {n : Nat} {ns : List Nat} (h : n ∈ ns) :
    g.visitsLeft (ns.erase n) + (g.succs n).length + 1 = g.visitsLeft ns := by
  have hperm := List.perm_cons_erase h
  have hnodes := hperm.length_eq
  have hedges := (hperm.flatMap_right g.succs).length_eq
  simp only [List.length_cons, List.flatMap_cons, List.length_append] at hnodes hedges
  unfold visitsLeft
  omega

theorem length_agenda_le (g : Graph) (unclaimed : List Nat) (n : Nat) :
    (g.agenda unclaimed n).length ≤ (g.succs n).length + 1 := by
  simpa [agenda] using List.length_filter_le _ _

/-- Works off the stack of visits. Entering a node claims it; a node that was claimed since it was
put on the stack is passed over. -/
def walkFrom (g : Graph) (unclaimed : List Nat) : List Visit → List Visit
  | [] => []
  | .leave n :: rest => .leave n :: walkFrom g unclaimed rest
  | .enter n :: rest =>
    if n ∈ unclaimed then
      .enter n :: walkFrom g (unclaimed.erase n) (g.agenda (unclaimed.erase n) n ++ rest)
    else walkFrom g unclaimed rest
termination_by rest => g.visitsLeft unclaimed + rest.length
decreasing_by
  · simp only [List.length_cons]
    omega
  · next h =>
    have := g.visitsLeft_erase h
    have := g.length_agenda_le (unclaimed.erase n) n
    simp only [List.length_append, List.length_cons]
    omega
  · simp only [List.length_cons]
    omega

def walk (g : Graph) (start : Nat) : List Visit :=
  g.walkFrom (List.range g.size) [.enter start]

/-- The nodes reached from `start`, each after the nodes found below it. -/
def postorder (g : Graph) (start : Nat) : List Nat :=
  (g.walk start).filterMap Visit.left?

def reversePostorder (g : Graph) (start : Nat) : List Nat :=
  (g.postorder start).reverse

end Graph

end ConstFlow
