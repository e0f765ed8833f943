import ConstFlow.Func.Basic

/-!
# Building functions

A function is written as a list of statements, and `Func.ofScript` replays them. Values may be
used before they are defined: `Stmt.reserve` hands out numbers ahead of time, and `Item.place`
fills a number later. Placing a number that is defined already moves the instruction.
-/

namespace ConstFlow

/-- One instruction of a block under construction. -/
inductive Item where
  /-- An instruction under the next free number. -/
  | append (op : Op)
  /-- An instruction under a given number. -/
  | place (id : InstrId) (op : Op)
deriving DecidableEq, Repr

/-- One statement of a function under construction. -/
inductive Stmt where
  /-- Sets numbers aside. -/
  | reserve (n : Nat)
  /-- Adds instructions at the end of a block, which is created if need be. -/
  | block (b : BlockId) (items : List Item)
deriving DecidableEq, Repr

/-- A function under construction: its blocks and its arena, without indexes. -/
structure Draft where
  blocks : Array Block
  arena : Array (Option Instr)
deriving DecidableEq, Repr

namespace Draft

def empty : Draft :=
  ⟨#[], #[]⟩

/-- Adds empty slots until there are at least `n`. -/
def growArena (d : Draft) (n : Nat) : Draft :=
  { d with arena := d.arena ++ Array.replicate (n - d.arena.size) none }

/-- Adds empty blocks until there are at least `n`. -/
def growBlocks (d : Draft) (n : Nat) : Draft :=
  { d with blocks :=
      d.blocks ++ ((List.range' d.blocks.size (n - d.blocks.size)).map Block.new).toArray }

/-- Takes the instruction `id` out of the block that owns it and empties its slot. -/
def vacate (d : Draft) (id : InstrId) : Draft :=
  match d.arena[id]?.join with
  | some i =>
    { blocks := d.blocks.modify i.block (·.detach id), arena := d.arena.setIfInBounds id none }
  | none => d

/-- Puts an instruction at the end of block `b` under the number `id`. -/
def place (d : Draft) (b : BlockId) (id : InstrId) (op : Op) : Draft :=
  let d := ((d.growArena (id + 1)).vacate id).growBlocks (b + 1)
  { blocks := d.blocks.modify b (·.push id), arena := d.arena.setIfInBounds id (some ⟨id, b, op⟩) }

def add (b : BlockId) (d : Draft) : Item → Draft
  | .append op => d.place b d.arena.size op
  | .place id op => d.place b id op

def replay (d : Draft) : Stmt → Draft
  | .reserve n => d.growArena (d.arena.size + n)
  | .block b items => items.foldl (add b) (d.growBlocks (b + 1))

/-- The function of a finished draft, with both indexes computed. -/
def finish (d : Draft) (name : String) : Func :=
  (Func.mk name d.blocks d.arena #[]).recomputePreds.rebuildUsers

end Draft

/-- The function that a list of statements describes. -/
def Func.ofScript (name : String) (script : List Stmt) : Func :=
  (script.foldl Draft.replay Draft.empty).finish name

end ConstFlow
