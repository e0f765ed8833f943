/-!
# Directed graphs

A `Graph` has the nodes `0, …, size - 1` and an ordered list of successors for every node. A
successor may lie out of range; such an edge leads nowhere.
-/

namespace ConstFlow

/-- A directed graph on the nodes below `size`, with ordered successors. -/
structure Graph where
  size : Nat
  succs : Nat → List Nat

namespace Graph

/-- The graph with the given edges; the successors of a node keep the order of the list. -/
def ofEdges (size : Nat) (edges : List (Nat × Nat)) : Graph where
  size := size
  succs n := edges.filterMap fun e => if e.1 = n then some e.2 else none

def label (n : Nat) : String :=
  s!"B{n}"

/-- The label of a node followed by its number as a tagged index. -/
def taggedLabel (n : Nat) : String :=
  s!"{label n} NodeId({n})"

end Graph

end ConstFlow
