import ConstFlow.Func.Edit
import ConstFlow.Func.Script
import Mathlib.Data.List.Nodup

/-!
# Where instructions stand

The arena, the owner that each instruction names and the lists of the blocks are three accounts of
one relation. `Placed` says that they agree: slot `k` holds instruction `k`, block `b` carries the
number `b`, and a block lists exactly the live instructions that it owns, each once.

Three changes keep the accounts together, and every operation on functions is made of them:
`Placed.vacate` takes an instruction out, `Placed.settle` puts one at the end of a block, and
`Placed.setOp` changes what an instruction does.

* `placed_finish`, `Func.placed_ofScript` : every function made from a script is placed;
* `Func.instrs_eq` : the live instructions, read slot by slot;
* `Func.Placed.listedCount_eq` : the blocks list each of them once.
-/

namespace ConstFlow

/-! ## Slots of the arena -/

section Slots
variable {arena : Array (Option Instr)} {k id : InstrId}

theorem slot_vacated : (arena.setIfInBounds id none)[k]?.join =
    if k = id then none else arena[k]?.join := by
  by_cases hk : k = id
  · subst hk
    rw [if_pos rfl, Array.getElem?_setIfInBounds, if_pos rfl]
    split <;> rfl
  · rw [if_neg hk, Array.getElem?_setIfInBounds_ne (Ne.symm hk)]

theorem slot_filled (hid : id < arena.size) (i : Instr) :
    (arena.setIfInBounds id (some i))[k]?.join = if k = id then some i else arena[k]?.join := by
  by_cases hk : k = id
  · subst hk
    rw [if_pos rfl, Array.getElem?_setIfInBounds_self_of_lt hid]
    rfl
  · rw [if_neg hk, Array.getElem?_setIfInBounds_ne (Ne.symm hk)]

theorem slot_mapped (g : Instr → Instr) : (arena.modify id (Option.map g))[k]?.join =
    if k = id then arena[k]?.join.map g else arena[k]?.join := by
  rw [Array.getElem?_modify]
  by_cases hk : k = id
  · subst hk
    rw [if_pos rfl, if_pos rfl]
    cases arena[k]? with
    | none => rfl
    | some o => rfl
  · rw [if_neg hk, if_neg (Ne.symm hk)]

theorem slot_grown (n : Nat) :
    (arena ++ Array.replicate n none)[k]?.join = arena[k]?.join := by
  rw [Array.getElem?_append]
  split
  · rfl
  · next h =>
    rw [Array.getElem?_replicate, Array.getElem?_eq_none (Nat.le_of_not_lt h)]
    split <;> rfl

theorem lt_size_of_slot {i : Instr} (h : arena[k]?.join = some i) : k < arena.size := by
  by_contra hk
  rw [Array.getElem?_eq_none (Nat.le_of_not_lt hk)] at h
  cases h

end Slots

/-! ## The three accounts -/

/-- Slots hold their own instructions, blocks carry their own numbers, and a block lists exactly
the live instructions that name it as their owner, each once. -/
structure Placed (blocks : Array Block) (arena : Array (Option Instr)) : Prop where
  slot : ∀ {k : InstrId} {i : Instr}, arena[k]?.join = some i → i.id = k
  number : ∀ {b : BlockId} {blk : Block}, blocks[b]? = some blk → blk.id = b
  nodup : ∀ {b : BlockId} {blk : Block}, blocks[b]? = some blk → blk.instrs.Nodup
  mem : ∀ {b : BlockId} {blk : Block}, blocks[b]? = some blk → ∀ id : InstrId,
    id ∈ blk.instrs ↔ ∃ i, arena[id]?.join = some i ∧ i.block = b
  owner : ∀ {k : InstrId} {i : Instr}, arena[k]?.join = some i → i.block < blocks.size

section Changes
variable {blocks : Array Block} {arena : Array (Option Instr)}

/-- Takes an instruction out of its slot and out of the block that owns it. -/
theorem Placed.vacate (h : Placed blocks arena) {id : InstrId} {i : Instr}
    (hi : arena[id]?.join = some i) :
    Placed (blocks.modify i.block (·.detach id)) (arena.setIfInBounds id none) where
  slot hk := by
    rw [slot_vacated] at hk
    split at hk
    · cases hk
    · exact h.slot hk
  number {b blk} hb := by
    rw [Array.getElem?_modify] at hb
    split at hb
    · obtain ⟨old, hold, rfl⟩ := Option.map_eq_some_iff.mp hb
      show old.id = b
      exact h.number hold
    · exact h.number hb
  nodup {b blk} hb := by
    rw [Array.getElem?_modify] at hb
    split at hb
    · obtain ⟨old, hold, rfl⟩ := Option.map_eq_some_iff.mp hb
      exact (h.nodup hold).erase id
    · exact h.nodup hb
  mem {b blk} hb j := by
    rw [slot_vacated]
    rw [Array.getElem?_modify] at hb
    split at hb
    · next hown =>
      obtain ⟨old, hold, rfl⟩ := Option.map_eq_some_iff.mp hb
      rw [show (old.detach id).instrs = old.instrs.erase id from rfl, (h.nodup hold).mem_erase_iff,
        h.mem hold]
      by_cases hj : j = id
      · simp [hj]
      · simp [hj]
    · next hown =>
      rw [h.mem hb]
      by_cases hj : j = id
      · subst hj
        rw [if_pos rfl, hi]
        simp [hown]
      · rw [if_neg hj]
  owner hk := by
    rw [slot_vacated] at hk
    split at hk
    · cases hk
    · simpa using h.owner hk

/-- Puts an instruction into an empty slot and at the end of a block. -/
theorem Placed.settle (h : Placed blocks arena) {id : InstrId} {b : BlockId}
    (hid : id < arena.size) (hfree : arena[id]?.join = none) (hb : b < blocks.size) (op : Op) :
    Placed (blocks.modify b (·.push id)) (arena.setIfInBounds id (some ⟨id, b, op⟩)) where
  slot hk := by
    rw [slot_filled hid] at hk
    split at hk
    · next heq =>
      cases hk
      exact heq.symm
    · exact h.slot hk
  number {a blk} ha := by
    rw [Array.getElem?_modify] at ha
    split at ha
    · obtain ⟨old, hold, rfl⟩ := Option.map_eq_some_iff.mp ha
      show old.id = a
      exact h.number hold
    · exact h.number ha
  nodup {a blk} ha := by
    rw [Array.getElem?_modify] at ha
    split at ha
    · obtain ⟨old, hold, rfl⟩ := Option.map_eq_some_iff.mp ha
      have hnot : id ∉ old.instrs := by
        rw [h.mem hold, hfree]
        simp
      rw [show (old.push id).instrs = old.instrs ++ [id] from rfl]
      exact List.nodup_append.mpr ⟨h.nodup hold, by simp, by
        rintro x hx y hy rfl
        rw [List.mem_singleton] at hy
        exact hnot (hy ▸ hx)⟩
    · exact h.nodup ha
  mem {a blk} ha j := by
    rw [slot_filled hid]
    rw [Array.getElem?_modify] at ha
    split at ha
    · next hown =>
      obtain ⟨old, hold, rfl⟩ := Option.map_eq_some_iff.mp ha
      rw [show (old.push id).instrs = old.instrs ++ [id] from rfl, List.mem_append,
        List.mem_singleton, h.mem hold]
      by_cases hj : j = id
      · simp [hj, hown]
      · simp [hj]
    · next hown =>
      rw [h.mem ha]
      by_cases hj : j = id
      · subst hj
        simp [hfree, hown]
      · rw [if_neg hj]
  owner hk := by
    rw [slot_filled hid] at hk
    split at hk
    · cases hk
      simpa using hb
    · simpa using h.owner hk

/-- Changes what an instruction does. -/
theorem Placed.setOp (h : Placed blocks arena) (id : InstrId) (op : Op) :
    Placed blocks (arena.modify id (Option.map fun i => { i with op := op })) := by
  have hslot : ∀ k, (arena.modify id (Option.map fun i => { i with op := op }))[k]?.join =
      arena[k]?.join.map fun i => if k = id then { i with op := op } else i := by
    intro k
    rw [slot_mapped]
    by_cases hk : k = id
    · simp [hk]
    · simp [hk]
  constructor
  case slot =>
    intro k i hi
    rw [hslot, Option.map_eq_some_iff] at hi
    obtain ⟨j, hj, rfl⟩ := hi
    rw [← h.slot hj]
    split <;> rfl
  case number => exact h.number
  case nodup => exact h.nodup
  case mem =>
    intro b blk hb k
    rw [h.mem hb, hslot]
    constructor
    · rintro ⟨i, hi, rfl⟩
      refine ⟨_, by rw [hi]; rfl, ?_⟩
      split <;> rfl
    · rintro ⟨i, hi, hown⟩
      obtain ⟨j, hj, rfl⟩ := Option.map_eq_some_iff.mp hi
      refine ⟨j, hj, ?_⟩
      split at hown
      · exact hown
      · exact hown
  case owner =>
    intro k i hi
    rw [hslot, Option.map_eq_some_iff] at hi
    obtain ⟨j, hj, rfl⟩ := hi
    have := h.owner hj
    split <;> exact this

/-- Adds empty slots. -/
theorem Placed.growArena (h : Placed blocks arena) (n : Nat) :
    Placed blocks (arena ++ Array.replicate n none) where
  slot hk := h.slot (by rwa [slot_grown] at hk)
  number := h.number
  nodup := h.nodup
  mem hb id := by
    rw [slot_grown]
    exact h.mem hb id
  owner hk := h.owner (by rwa [slot_grown] at hk)

/-- Adds empty blocks under the numbers that follow. -/
theorem Placed.growBlocks (h : Placed blocks arena) (n : Nat) :
    Placed (blocks ++ ((List.range' blocks.size n).map Block.new).toArray) arena := by
  have hget : ∀ {b : BlockId} {blk : Block},
      (blocks ++ ((List.range' blocks.size n).map Block.new).toArray)[b]? = some blk →
      blocks[b]? = some blk ∨ blocks.size ≤ b ∧ blk = Block.new b := by
    intro b blk hb
    rw [Array.getElem?_append] at hb
    split at hb
    · exact .inl hb
    · next hlt =>
      rw [List.getElem?_toArray, List.getElem?_map, Option.map_eq_some_iff] at hb
      obtain ⟨a, ha, rfl⟩ := hb
      obtain ⟨hlen, rfl⟩ := List.getElem?_eq_some_iff.mp ha
      rw [List.getElem_range', Nat.one_mul, Nat.add_sub_cancel' (Nat.le_of_not_lt hlt)]
      exact .inr ⟨Nat.le_of_not_lt hlt, rfl⟩
  constructor
  case slot => exact h.slot
  case number =>
    intro b blk hb
    rcases hget hb with hb | ⟨-, rfl⟩
    · exact h.number hb
    · rfl
  case nodup =>
    intro b blk hb
    rcases hget hb with hb | ⟨-, rfl⟩
    · exact h.nodup hb
    · exact List.nodup_nil
  case mem =>
    intro b blk hb id
    rcases hget hb with hb | ⟨hle, rfl⟩
    · exact h.mem hb id
    · -- no instruction is owned by a block that did not exist
      refine ⟨fun hmem => absurd hmem List.not_mem_nil, ?_⟩
      rintro ⟨i, hi, rfl⟩
      exact absurd (h.owner hi) (Nat.not_lt_of_le hle)
  case owner =>
    intro k i hi
    rw [Array.size_append]
    exact Nat.lt_add_right _ (h.owner hi)

/-- Stores other predecessors. -/
theorem Placed.setPreds (h : Placed blocks arena) (g : BlockId → List BlockId) :
    Placed (blocks.mapIdx fun b blk => { blk with preds := g b }) arena := by
  have hget : ∀ {b : BlockId} {blk : Block},
      (blocks.mapIdx fun b blk => { blk with preds := g b })[b]? = some blk →
        ∃ old, blocks[b]? = some old ∧ old.id = blk.id ∧ old.instrs = blk.instrs := by
    intro b blk hb
    rw [Array.getElem?_mapIdx, Option.map_eq_some_iff] at hb
    obtain ⟨old, hold, rfl⟩ := hb
    exact ⟨old, hold, rfl, rfl⟩
  constructor
  case slot => exact h.slot
  case number =>
    intro b blk hb
    obtain ⟨old, hold, hid, -⟩ := hget hb
    rw [← hid, h.number hold]
  case nodup =>
    intro b blk hb
    obtain ⟨old, hold, -, hlist⟩ := hget hb
    rw [← hlist]
    exact h.nodup hold
  case mem =>
    intro b blk hb id
    obtain ⟨old, hold, -, hlist⟩ := hget hb
    rw [← hlist]
    exact h.mem hold id
  case owner =>
    intro k i hi
    simpa using h.owner hi

end Changes

/-! ## Scripts -/

namespace Draft

/-- The draft keeps its three accounts together. -/
def Placed (d : Draft) : Prop :=
  ConstFlow.Placed d.blocks d.arena

theorem placed_empty : empty.Placed where
  slot hk := by simp [empty] at hk
  number hb := by simp [empty] at hb
  nodup hb := by simp [empty] at hb
  mem hb := by simp [empty] at hb
  owner hk := by simp [empty] at hk

theorem size_growArena (d : Draft) (n : Nat) :
    (d.growArena n).arena.size = max d.arena.size n := by
  simp only [growArena, Array.size_append, Array.size_replicate]
  omega

theorem size_growBlocks (d : Draft) (n : Nat) :
    (d.growBlocks n).blocks.size = max d.blocks.size n := by
  simp only [growBlocks, Array.size_append, List.size_toArray, List.length_map, List.length_range']
  omega

theorem arena_growBlocks (d : Draft) (n : Nat) : (d.growBlocks n).arena = d.arena := rfl

/-- After an instruction is taken out its slot is empty, whether it was live or not. -/
theorem placed_vacate {d : Draft} (h : d.Placed) (id : InstrId) :
    (d.vacate id).Placed ∧ (d.vacate id).arena[id]?.join = none ∧
      (d.vacate id).arena.size = d.arena.size := by
  unfold vacate
  split
  · next i hi => exact ⟨ConstFlow.Placed.vacate h hi, by rw [slot_vacated, if_pos rfl], by simp⟩
  · next hnone => exact ⟨h, hnone, rfl⟩

theorem placed_growBlocks {d : Draft} (h : d.Placed) (n : Nat) : (d.growBlocks n).Placed :=
  ConstFlow.Placed.growBlocks h (n - d.blocks.size)

theorem placed_growArena {d : Draft} (h : d.Placed) (n : Nat) : (d.growArena n).Placed :=
  ConstFlow.Placed.growArena h (n - d.arena.size)

theorem placed_place {d : Draft} (h : d.Placed) (b : BlockId) (id : InstrId) (op : Op) :
    (d.place b id op).Placed := by
  obtain ⟨hvac, hfree, hsize⟩ := placed_vacate (placed_growArena h (id + 1)) id
  have hid : id < ((d.growArena (id + 1)).vacate id).arena.size := by
    rw [hsize, size_growArena]
    exact Nat.le_max_right _ _
  have hb := size_growBlocks ((d.growArena (id + 1)).vacate id) (b + 1)
  have hgrown := placed_growBlocks hvac (b + 1)
  unfold place
  generalize hd : ((d.growArena (id + 1)).vacate id).growBlocks (b + 1) = d' at hb hgrown
  have harena : d'.arena = ((d.growArena (id + 1)).vacate id).arena := by
    rw [← hd, arena_growBlocks]
  rw [← harena] at hid hfree
  exact ConstFlow.Placed.settle hgrown hid hfree (hb ▸ Nat.le_max_right _ _) op

theorem placed_add {d : Draft} (h : d.Placed) (b : BlockId) (item : Item) :
    (d.add b item).Placed := by
  cases item with
  | append op => exact placed_place h b _ op
  | place id op => exact placed_place h b id op

theorem placed_replay {d : Draft} (h : d.Placed) (stmt : Stmt) : (d.replay stmt).Placed := by
  cases stmt with
  | reserve n => exact placed_growArena h _
  | block b items =>
    have hgrown := placed_growBlocks h (b + 1)
    show (items.foldl (add b) (d.growBlocks (b + 1))).Placed
    generalize d.growBlocks (b + 1) = d' at hgrown
    induction items generalizing d' with
    | nil => exact hgrown
    | cons item items ih => exact ih _ (placed_add hgrown b item)

theorem placed_script (script : List Stmt) {d : Draft} (h : d.Placed) :
    (script.foldl replay d).Placed := by
  induction script generalizing d with
  | nil => exact h
  | cons stmt script ih => exact ih (placed_replay h stmt)

end Draft

namespace Func

/-- The function keeps its three accounts together. -/
def Placed (f : Func) : Prop :=
  ConstFlow.Placed f.blocks f.arena

theorem Placed.recomputePreds {f : Func} (h : f.Placed) : f.recomputePreds.Placed :=
  ConstFlow.Placed.setPreds h fun b => f.edgeLists[b]?.getD []

/-- Every function made from a script is placed. -/
theorem placed_ofScript (name : String) (script : List Stmt) : (ofScript name script).Placed :=
  Placed.recomputePreds (f := ⟨name, _, _, #[]⟩) (Draft.placed_script script Draft.placed_empty)

/-! ## Live instructions -/

theorem instrs_eq (f : Func) : f.instrs = (List.range f.slotCount).filterMap f.instr? := by
  have harena : f.arena.toList = (List.range f.slotCount).map fun k => (f.arena[k]?).join := by
    apply List.ext_getElem
    · simp [slotCount]
    · intro k h₁ h₂
      have hk : k < f.arena.size := by simpa using h₁
      simp [hk]
  unfold instrs
  rw [harena, List.filterMap_map]
  rfl

theorem lt_slotCount {f : Func} {id : InstrId} {i : Instr} (h : f.instr? id = some i) :
    id < f.slotCount :=
  lt_size_of_slot h

theorem instr_eq_ok {f : Func} {id : InstrId} {i : Instr} :
    f.instr id = .ok i ↔ f.instr? id = some i := by
  unfold instr
  cases f.instr? id with
  | none => simp
  | some j => simp

theorem block_eq_ok {f : Func} {b : BlockId} {blk : Block} :
    f.block b = .ok blk ↔ f.block? b = some blk := by
  unfold block
  cases f.block? b with
  | none => simp
  | some blk' => simp

theorem mem_instrs {f : Func} {i : Instr} : i ∈ f.instrs ↔ ∃ id, f.instr? id = some i := by
  rw [instrs_eq, List.mem_filterMap]
  constructor
  · rintro ⟨id, -, hid⟩
    exact ⟨id, hid⟩
  · rintro ⟨id, hid⟩
    exact ⟨id, List.mem_range.mpr (lt_slotCount hid), hid⟩

/-- Two live slots of a placed function never hold the same instruction. -/
theorem Placed.nodup_ids {f : Func} (h : f.Placed) : (f.instrs.map (·.id)).Nodup := by
  rw [instrs_eq, List.map_filterMap]
  refine List.nodup_range.filterMap fun a b c hac hbc => ?_
  simp only [Option.mem_def, Option.map_eq_some_iff] at hac hbc
  obtain ⟨i, hi, rfl⟩ := hac
  obtain ⟨j, hj, hij⟩ := hbc
  rw [← h.slot hi, ← h.slot hj, hij]

theorem block_lt {f : Func} {b : BlockId} {blk : Block} (h : f.block? b = some blk) :
    b < f.blockCount :=
  (Array.getElem?_eq_some_iff.mp h).1

theorem exists_block {f : Func} {b : BlockId} (h : b < f.blockCount) :
    ∃ blk, f.block? b = some blk :=
  ⟨_, Array.getElem?_eq_getElem h⟩

/-- A live instruction is listed by the block that it names. -/
theorem Placed.listed {f : Func} (h : f.Placed) {id : InstrId} {i : Instr}
    (hi : f.instr? id = some i) :
    ∃ blk, f.block? i.block = some blk ∧ id ∈ blk.instrs := by
  obtain ⟨blk, hblk⟩ := exists_block (h.owner hi)
  exact ⟨blk, hblk, (h.mem hblk id).mpr ⟨i, hi, rfl⟩⟩

theorem Placed.mem_blockInstrs {f : Func} (h : f.Placed) {b : BlockId} {i : Instr} :
    i ∈ f.blockInstrs b ↔ f.instr? i.id = some i ∧ i.block = b := by
  unfold blockInstrs
  constructor
  · intro hmem
    split at hmem
    · next blk hblk =>
      obtain ⟨id, hid, hi⟩ := List.mem_filterMap.mp hmem
      obtain ⟨j, hj, hown⟩ := (h.mem hblk id).mp hid
      obtain rfl : j = i := Option.some.inj (hj.symm.trans hi)
      rw [h.slot hi]
      exact ⟨hi, hown⟩
    · cases hmem
  · rintro ⟨hi, rfl⟩
    obtain ⟨blk, hblk, hmem⟩ := h.listed hi
    rw [hblk]
    exact List.mem_filterMap.mpr ⟨_, hmem, hi⟩

/-- All instructions that a block lists are live. -/
theorem Placed.ids_blockInstrs {f : Func} (h : f.Placed) {b : BlockId} {blk : Block}
    (hb : f.block? b = some blk) : (f.blockInstrs b).map (·.id) = blk.instrs := by
  have hlive : ∀ id ∈ blk.instrs, (f.instr? id).map (·.id) = some id := by
    intro id hid
    obtain ⟨i, hi, -⟩ := (h.mem hb id).mp hid
    have hi : f.instr? id = some i := hi
    rw [hi, Option.map_some, h.slot hi]
  rw [blockInstrs, hb, List.map_filterMap, List.filterMap_congr hlive, List.filterMap_some]

/-- Over all blocks an instruction is listed once. -/
theorem Placed.nodup_listed {f : Func} (h : f.Placed) :
    (f.blocks.toList.flatMap (·.instrs)).Nodup := by
  rw [List.nodup_flatMap]
  constructor
  · intro blk hblk
    obtain ⟨b, hb⟩ := List.getElem?_of_mem hblk
    exact h.nodup (b := b) (by simpa using hb)
  · -- an instruction names its block, so two blocks never list the same one
    refine List.pairwise_iff_getElem.mpr fun a b ha hb hlt id hmem hmem' => ?_
    obtain ⟨i, hi, rfl⟩ := (h.mem (b := a) (by simp) id).mp hmem
    obtain ⟨j, hj, rfl⟩ := (h.mem (b := b) (by simp) id).mp hmem'
    obtain rfl : i = j := Option.some.inj (hi.symm.trans hj)
    exact Nat.lt_irrefl _ hlt

theorem Placed.mem_listed {f : Func} (h : f.Placed) {id : InstrId} :
    id ∈ f.blocks.toList.flatMap (·.instrs) ↔ ∃ i, f.instr? id = some i := by
  rw [List.mem_flatMap]
  constructor
  · rintro ⟨blk, hblk, hid⟩
    obtain ⟨b, hb⟩ := List.getElem?_of_mem hblk
    obtain ⟨i, hi, -⟩ := (h.mem (b := b) (by simpa using hb) id).mp hid
    exact ⟨i, hi⟩
  · rintro ⟨i, hi⟩
    obtain ⟨blk, hblk, hid⟩ := h.listed hi
    exact ⟨blk, Array.mem_toList_iff.mpr (Array.mem_of_getElem? hblk), hid⟩

/-- The blocks list as many instructions as there are live ones. -/
theorem Placed.listedCount_eq {f : Func} (h : f.Placed) : f.listedCount = f.instrs.length := by
  have hperm : (f.blocks.toList.flatMap (·.instrs)).Perm (f.instrs.map (·.id)) := by
    refine (List.perm_ext_iff_of_nodup h.nodup_listed h.nodup_ids).mpr fun id => ?_
    rw [h.mem_listed, List.mem_map]
    constructor
    · rintro ⟨i, hi⟩
      exact ⟨i, mem_instrs.mpr ⟨id, hi⟩, h.slot hi⟩
    · rintro ⟨i, hi, rfl⟩
      obtain ⟨id, hid⟩ := mem_instrs.mp hi
      exact ⟨i, h.slot hid ▸ hid⟩
  rw [listedCount, hperm.length_eq, List.length_map]

end Func

end ConstFlow
