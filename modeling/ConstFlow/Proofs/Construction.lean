import ConstFlow.Proofs.Users
import ConstFlow.Proofs.WellFormed
import Mathlib.Data.List.Nodup

/-!
# What a script describes

A draft changes in place: an instruction that is placed again leaves its block for the end of
another, and slots are added while earlier ones are filled. Beside it stands the plain account of
what was done, in order: which numbers were handed out, which instructions were placed and which
blocks were opened (`Draft.acts`). The finished function can be read off that account.

* `Draft.Records` : what a draft and an account have in common. `Draft.Records.hand`,
  `Draft.Records.openBlock` and `Draft.Records.place` keep it, one act each, and
  `Draft.Records.script` keeps it along whole scripts;
* `standing` : what is not placed again later, in the order of placing;
* `ofScript_described` : numbers, slots, block lists, blocks and predecessors of a function, by the
  account of its script.
-/

namespace ConstFlow

/-! ## The account of a script -/

/-- One thing done while a function is built. -/
inductive Act where
  /-- A number is handed out. -/
  | handOut (id : InstrId)
  /-- An instruction is placed at the end of its block. -/
  | put (i : Instr)
  /-- A block is opened. -/
  | openBlock (b : BlockId)
deriving DecidableEq, Repr

namespace Act

/-- The number that is handed out or filled. -/
def id? : Act → Option InstrId
  | .handOut id => some id
  | .put i => some i.id
  | .openBlock _ => none

/-- The instruction placed. -/
def put? : Act → Option Instr
  | .put i => some i
  | _ => none

/-- The block opened. -/
def block? : Act → Option BlockId
  | .openBlock b => some b
  | _ => none

end Act

namespace Draft

/-- What is done when an item is added to block `b`: an item without a number is handed one, which
is the number of slots so far. -/
def itemActs (d : Draft) (b : BlockId) : Item → List Act
  | .append op => [.handOut d.arena.size, .put ⟨d.arena.size, b, op⟩]
  | .place id op => [.put ⟨id, b, op⟩]

/-- What is done when items are added to block `b`. -/
def itemsActs (b : BlockId) : Draft → List Item → List Act
  | _, [] => []
  | d, item :: items => d.itemActs b item ++ itemsActs b (d.add b item) items

/-- What is done when a statement is replayed. -/
def stmtActs (d : Draft) : Stmt → List Act
  | .reserve n => (List.range' d.arena.size n).map .handOut
  | .block b items => .openBlock b :: itemsActs b (d.growBlocks (b + 1)) items

/-- What is done when a script is replayed. -/
def acts : Draft → List Stmt → List Act
  | _, [] => []
  | d, stmt :: script => d.stmtActs stmt ++ acts (d.replay stmt) script

end Draft

/-- What is done while the function of a script is built. -/
def scriptActs (script : List Stmt) : List Act :=
  Draft.empty.acts script

/-- The instructions placed, in the order of placing. -/
def placements (script : List Stmt) : List Instr :=
  (scriptActs script).filterMap Act.put?

/-- The instruction placed last under a number. -/
def lastAt (is : List Instr) (id : InstrId) : Option Instr :=
  (is.filter (·.id = id)).getLast?

/-- The instructions that are not followed by another one under the same number. -/
def standing : List Instr → List Instr
  | [] => []
  | i :: is => if ∃ j ∈ is, j.id = i.id then standing is else i :: standing is

/-- Those of them that are placed in block `b`. -/
def standingIn (is : List Instr) (b : BlockId) : List Instr :=
  (standing is).filter (·.block = b)

/-! ## One more placement -/

theorem lastAt_concat (is : List Instr) (i : Instr) (id : InstrId) :
    lastAt (is ++ [i]) id = if id = i.id then some i else lastAt is id := by
  rw [lastAt, List.filter_append]
  by_cases hid : id = i.id
  · rw [if_pos hid, List.filter_cons_of_pos (by simpa using hid.symm), List.filter_nil,
      List.getLast?_concat]
  · rw [if_neg hid, List.filter_cons_of_neg (by simpa using Ne.symm hid), List.filter_nil,
      List.append_nil, lastAt]

theorem standing_concat (is : List Instr) (i : Instr) :
    standing (is ++ [i]) = (standing is).filter (·.id ≠ i.id) ++ [i] := by
  induction is with
  | nil => simp [standing]
  | cons j is ih =>
    rw [List.cons_append, standing, standing, ih]
    by_cases hlater : ∃ k ∈ is, k.id = j.id
    · obtain ⟨k, hk, hkj⟩ := hlater
      rw [if_pos ⟨k, List.mem_append_left _ hk, hkj⟩, if_pos ⟨k, hk, hkj⟩]
    · rw [if_neg hlater]
      by_cases hij : i.id = j.id
      · rw [if_pos ⟨i, by simp, hij⟩, List.filter_cons_of_neg (by simpa using hij.symm)]
      · have hnone : ¬ ∃ k ∈ is ++ [i], k.id = j.id := by
          rintro ⟨k, hk, hkj⟩
          rcases List.mem_append.mp hk with hk | hk
          · exact hlater ⟨k, hk, hkj⟩
          · exact hij (List.mem_singleton.mp hk ▸ hkj)
        rw [if_neg hnone, List.filter_cons_of_pos (by simpa using Ne.symm hij), List.cons_append]

/-- The numbers listed for block `b` once `i` is placed. -/
theorem standingIn_concat (is : List Instr) (i : Instr) (b : BlockId) :
    (standingIn (is ++ [i]) b).map (·.id) =
      ((standingIn is b).map (·.id)).filter (· ≠ i.id) ++ if b = i.block then [i.id] else [] := by
  rw [standingIn, standing_concat, List.filter_append, List.map_append, standingIn,
    List.filter_map, List.filter_filter, List.filter_filter]
  congr 1
  · congr 1
    exact List.filter_congr fun j _ => Bool.and_comm _ _
  · by_cases hb : b = i.block
    · simp [hb]
    · simp [hb, Ne.symm hb]

/-- What stands is what was placed last. -/
theorem lastAt_of_mem_standing {is : List Instr} {i : Instr} (h : i ∈ standing is) :
    lastAt is i.id = some i := by
  induction is with
  | nil => cases h
  | cons j is ih =>
    have hcons : i ∈ standing is → lastAt (j :: is) i.id = some i := by
      intro hi
      have hlast := ih hi
      rw [lastAt, List.filter_cons]
      split
      · rw [List.getLast?_cons, ← lastAt, hlast, Option.getD_some]
      · exact hlast
    rw [standing] at h
    split at h
    · exact hcons h
    · next hlater =>
      rcases List.mem_cons.mp h with rfl | hi
      · have hnone : is.filter (·.id = i.id) = [] := by
          rw [List.filter_eq_nil_iff]
          exact fun k hk hki => hlater ⟨k, hk, by simpa using hki⟩
        rw [lastAt, List.filter_cons_of_pos (by simp), hnone]
        rfl
      · exact hcons hi

/-! ## Slots and lists of a draft -/

namespace Draft
variable {d : Draft} {id : InstrId} {b : BlockId}

/-- What block `b` lists, and nothing if there is no such block. -/
def listing (d : Draft) (b : BlockId) : List InstrId :=
  (d.blocks[b]?.map (·.instrs)).getD []

theorem mem_listing (h : d.Placed) :
    id ∈ d.listing b ↔ ∃ i, d.arena[id]?.join = some i ∧ i.block = b := by
  unfold listing
  cases hb : d.blocks[b]? with
  | none =>
    refine ⟨fun hmem => absurd hmem List.not_mem_nil, ?_⟩
    rintro ⟨i, hi, rfl⟩
    exact absurd (h.owner hi) (by simpa using hb)
  | some blk => exact h.mem hb id

theorem growArena_of_le {n : Nat} (h : n ≤ d.arena.size) : d.growArena n = d := by
  rw [growArena, Nat.sub_eq_zero_of_le h, Array.replicate_zero, Array.append_empty]

theorem slot_growArena (d : Draft) (n : Nat) (k : InstrId) :
    (d.growArena n).arena[k]?.join = d.arena[k]?.join :=
  slot_grown _

theorem slot_vacate (d : Draft) (id k : InstrId) :
    (d.vacate id).arena[k]?.join = if k = id then none else d.arena[k]?.join := by
  unfold vacate
  split
  · exact slot_vacated
  · next hnone =>
    split
    · next hk => rw [hk, hnone]
    · rfl

theorem sizes_vacate (d : Draft) (id : InstrId) :
    (d.vacate id).arena.size = d.arena.size ∧ (d.vacate id).blocks.size = d.blocks.size := by
  unfold vacate
  split
  · exact ⟨Array.size_setIfInBounds, Array.size_modify⟩
  · exact ⟨rfl, rfl⟩

theorem size_arena_place (d : Draft) (b : BlockId) (id : InstrId) (op : Op) :
    (d.place b id op).arena.size = max d.arena.size (id + 1) := by
  rw [place, Array.size_setIfInBounds, arena_growBlocks, (sizes_vacate _ _).1, size_growArena]

theorem size_blocks_place (d : Draft) (b : BlockId) (id : InstrId) (op : Op) :
    (d.place b id op).blocks.size = max d.blocks.size (b + 1) := by
  rw [place, Array.size_modify, size_growBlocks, (sizes_vacate _ _).2]
  rfl

theorem le_size_add (d : Draft) (b : BlockId) (item : Item) :
    d.blocks.size ≤ (d.add b item).blocks.size := by
  cases item with
  | append op =>
    rw [add, size_blocks_place]
    exact Nat.le_max_left _ _
  | place id op =>
    rw [add, size_blocks_place]
    exact Nat.le_max_left _ _

theorem slot_place (d : Draft) (b : BlockId) (id : InstrId) (op : Op) (k : InstrId) :
    (d.place b id op).arena[k]?.join =
      if k = id then some ⟨id, b, op⟩ else d.arena[k]?.join := by
  have hid : id < ((d.growArena (id + 1)).vacate id).arena.size := by
    rw [(sizes_vacate _ _).1, size_growArena]
    exact Nat.le_max_right _ _
  rw [place, arena_growBlocks, slot_filled hid, slot_vacate, slot_growArena]
  split <;> rfl

theorem listing_growBlocks (d : Draft) (n : Nat) (b : BlockId) :
    (d.growBlocks n).listing b = d.listing b := by
  unfold listing growBlocks
  rw [Array.getElem?_append]
  split
  · rfl
  · next hlt =>
    rw [Array.getElem?_eq_none (Nat.le_of_not_lt hlt), List.getElem?_toArray, List.getElem?_map]
    cases (List.range' d.blocks.size (n - d.blocks.size))[b - d.blocks.size]? with
    | none => rfl
    | some a => rfl

/-- A vacated number is listed nowhere. -/
theorem listing_vacate (h : d.Placed) (id : InstrId) (b : BlockId) :
    (d.vacate id).listing b = (d.listing b).filter (· ≠ id) := by
  unfold vacate
  split
  · next i hi =>
    have hblocks : (d.blocks.modify i.block (·.detach id))[b]? =
        d.blocks[b]?.map fun blk => { blk with instrs := blk.instrs.filter (· ≠ id) } :=
      Func.Placed.detach_eq (f := ⟨"", d.blocks, d.arena, #[]⟩) h hi b
    rw [listing, hblocks, listing]
    cases d.blocks[b]? with
    | none => rfl
    | some blk => rfl
  · next hnone =>
    refine (List.filter_eq_self.mpr fun k hk => decide_eq_true ?_).symm
    rintro rfl
    obtain ⟨i, hi, -⟩ := (mem_listing h).mp hk
    rw [hnone] at hi
    cases hi

/-- A number that is placed leaves the list it stood in for the end of another. -/
theorem listing_place (h : d.Placed) (b : BlockId) (id : InstrId) (op : Op) (a : BlockId) :
    (d.place b id op).listing a =
      (d.listing a).filter (· ≠ id) ++ if a = b then [id] else [] := by
  have hvacate := listing_vacate (placed_growArena h (id + 1)) id a
  rw [← listing_growBlocks _ (b + 1)] at hvacate
  rw [show d.listing a = (d.growArena (id + 1)).listing a from rfl, ← hvacate]
  have hlt : b < (((d.growArena (id + 1)).vacate id).growBlocks (b + 1)).blocks.size := by
    rw [size_growBlocks]
    exact Nat.le_max_right _ _
  unfold place
  generalize ((d.growArena (id + 1)).vacate id).growBlocks (b + 1) = e at hlt
  dsimp only
  rw [listing, listing, Array.getElem?_modify]
  by_cases hab : a = b
  · subst hab
    rw [if_pos rfl, if_pos rfl, Array.getElem?_eq_getElem hlt]
    rfl
  · rw [if_neg (Ne.symm hab), if_neg hab, List.append_nil]

end Draft

/-! ## Numbers and blocks -/

/-- Every number handed out or filled is below `size`, and a number is handed out only if it was
neither handed out nor filled before. -/
structure Numbered (size : Nat) (acts : List Act) : Prop where
  below : ∀ act ∈ acts, ∀ id ∈ act.id?, id < size
  fresh : acts.Pairwise fun act act' => ∀ id, act' = .handOut id → act.id? ≠ some id

/-- There are `count` blocks, just enough for those opened. -/
structure Counted (count : Nat) (acts : List Act) : Prop where
  lt : ∀ b ∈ acts.filterMap Act.block?, b < count
  highest : 0 < count → count - 1 ∈ acts.filterMap Act.block?

section Acts
variable {size size' count : Nat} {acts : List Act} {act : Act}

theorem numbered_nil : Numbered 0 [] :=
  ⟨fun _ h => absurd h List.not_mem_nil, .nil⟩

/-- Numbers are handed out above all that are in use. -/
theorem Numbered.hand (h : Numbered size acts) (n : Nat) :
    Numbered (size + n) (acts ++ (List.range' size n).map Act.handOut) := by
  constructor
  case below =>
    intro act hact id hid
    rcases List.mem_append.mp hact with hact | hact
    · exact Nat.lt_add_right n (h.below act hact id hid)
    · obtain ⟨k, hk, rfl⟩ := List.mem_map.mp hact
      cases hid
      exact (List.mem_range'_1.mp hk).2
  case fresh =>
    rw [List.pairwise_append, List.pairwise_map]
    refine ⟨h.fresh, (List.pairwise_lt_range' 1).imp fun hlt id hid hsame => ?_,
      fun act hact act' hact' id hid hsame => ?_⟩
    · cases hid
      cases hsame
      exact Nat.lt_irrefl _ hlt
    · obtain ⟨k, hk, rfl⟩ := List.mem_map.mp hact'
      cases hid
      exact Nat.not_lt_of_le (List.mem_range'_1.mp hk).1 (h.below act hact id hsame)

/-- Any other act is free to use a number. -/
theorem Numbered.concat (h : Numbered size acts) (hsize : size ≤ size')
    (hact : ∀ id ∈ act.id?, id < size') (hhand : ∀ id, act ≠ .handOut id) :
    Numbered size' (acts ++ [act]) := by
  constructor
  case below =>
    intro act' hact' id hid
    rcases List.mem_append.mp hact' with hact' | hact'
    · exact Nat.lt_of_lt_of_le (h.below act' hact' id hid) hsize
    · cases List.mem_singleton.mp hact'
      exact hact id hid
  case fresh =>
    rw [List.pairwise_append]
    refine ⟨h.fresh, List.pairwise_singleton _ _, fun _ _ act' hact' id hid => ?_⟩
    cases List.mem_singleton.mp hact'
    exact absurd hid (hhand id)

theorem counted_nil : Counted 0 [] :=
  ⟨fun _ h => absurd h List.not_mem_nil, fun h => absurd h (Nat.lt_irrefl 0)⟩

theorem Counted.openBlock (h : Counted count acts) (b : BlockId) :
    Counted (max count (b + 1)) (acts ++ [.openBlock b]) := by
  have hblocks : (acts ++ [Act.openBlock b]).filterMap Act.block? =
      acts.filterMap Act.block? ++ [b] := by
    simp [Act.block?]
  constructor
  case lt =>
    intro a ha
    rw [hblocks, List.mem_append, List.mem_singleton] at ha
    rcases ha with ha | rfl
    · exact Nat.lt_of_lt_of_le (h.lt a ha) (Nat.le_max_left _ _)
    · exact Nat.le_max_right _ _
  case highest =>
    intro _
    rw [hblocks, List.mem_append, List.mem_singleton]
    by_cases hlt : b < count
    · left
      rw [Nat.max_eq_left hlt]
      exact h.highest (Nat.zero_lt_of_lt hlt)
    · right
      rw [Nat.max_eq_right (Nat.le_succ_of_le (Nat.le_of_not_lt hlt))]
      rfl

/-- Without blocks being opened their number stays. -/
theorem Counted.append (h : Counted count acts) {acts' : List Act}
    (hacts : acts'.filterMap Act.block? = []) : Counted count (acts ++ acts') := by
  have hblocks : (acts ++ acts').filterMap Act.block? = acts.filterMap Act.block? := by
    rw [List.filterMap_append, hacts, List.append_nil]
  exact ⟨hblocks ▸ h.lt, hblocks ▸ h.highest⟩

/-- The number of blocks is one more than the highest opened. -/
theorem Counted.eq (h : Counted count acts) :
    count = (acts.filterMap Act.block?).max?.elim 0 (· + 1) := by
  cases count with
  | zero =>
    have hnone : acts.filterMap Act.block? = [] :=
      List.eq_nil_iff_forall_not_mem.mpr fun b hb => Nat.not_lt_zero b (h.lt b hb)
    rw [hnone]
    rfl
  | succ n =>
    have hmax : (acts.filterMap Act.block?).max? = some n :=
      List.max?_eq_some_iff.mpr ⟨h.highest (Nat.succ_pos n), fun b hb =>
        Nat.le_of_lt_succ (h.lt b hb)⟩
    rw [hmax]
    rfl

end Acts

/-! ## A draft and its account -/

namespace Draft
variable {d : Draft} {acts : List Act} {b : BlockId}

/-- The draft is what the account says. -/
structure Records (d : Draft) (acts : List Act) : Prop where
  placed : d.Placed
  numbered : Numbered d.arena.size acts
  counted : Counted d.blocks.size acts
  slot : ∀ id : InstrId, d.arena[id]?.join = lastAt (acts.filterMap Act.put?) id
  lists : ∀ b, d.listing b = (standingIn (acts.filterMap Act.put?) b).map (·.id)

namespace Records

theorem initial : Draft.empty.Records [] where
  placed := placed_empty
  numbered := numbered_nil
  counted := counted_nil
  slot _ := rfl
  lists _ := rfl

/-- Handing out numbers adds empty slots. -/
theorem hand (h : d.Records acts) (n : Nat) :
    (d.growArena (d.arena.size + n)).Records
      (acts ++ (List.range' d.arena.size n).map Act.handOut) := by
  have hput : (acts ++ (List.range' d.arena.size n).map Act.handOut).filterMap Act.put? =
      acts.filterMap Act.put? := by
    simp [Act.put?]
  constructor
  case placed => exact placed_growArena h.placed _
  case numbered =>
    rw [size_growArena, Nat.max_eq_right (Nat.le_add_right _ n)]
    exact h.numbered.hand n
  case counted => exact h.counted.append (by simp [Act.block?])
  case slot =>
    intro id
    rw [slot_growArena, hput]
    exact h.slot id
  case lists =>
    intro b
    rw [hput]
    exact h.lists b

theorem openBlock (h : d.Records acts) (b : BlockId) :
    (d.growBlocks (b + 1)).Records (acts ++ [.openBlock b]) := by
  have hput : (acts ++ [Act.openBlock b]).filterMap Act.put? = acts.filterMap Act.put? := by
    simp [Act.put?]
  constructor
  case placed => exact placed_growBlocks h.placed _
  case numbered =>
    exact h.numbered.concat (Nat.le_refl _) (fun id hid => nomatch hid) fun id hid => nomatch hid
  case counted =>
    rw [size_growBlocks]
    exact h.counted.openBlock b
  case slot =>
    intro id
    rw [arena_growBlocks, hput]
    exact h.slot id
  case lists =>
    intro a
    rw [listing_growBlocks, hput]
    exact h.lists a

/-- An instruction is placed in a block that is open. -/
theorem place (h : d.Records acts) (hb : b < d.blocks.size) (id : InstrId) (op : Op) :
    (d.place b id op).Records (acts ++ [.put ⟨id, b, op⟩]) := by
  have hput : (acts ++ [Act.put ⟨id, b, op⟩]).filterMap Act.put? =
      acts.filterMap Act.put? ++ [⟨id, b, op⟩] := by
    simp [Act.put?]
  constructor
  case placed => exact placed_place h.placed b id op
  case numbered =>
    rw [size_arena_place]
    refine h.numbered.concat (Nat.le_max_left _ _) (fun k hk => ?_) fun k hk => nomatch hk
    cases hk
    exact Nat.le_max_right _ _
  case counted =>
    rw [size_blocks_place, Nat.max_eq_left hb]
    exact h.counted.append rfl
  case slot =>
    intro k
    rw [slot_place, hput, lastAt_concat, h.slot]
  case lists =>
    intro a
    rw [listing_place h.placed, hput, standingIn_concat, h.lists]

/-! ## Scripts -/

theorem add (h : d.Records acts) (hb : b < d.blocks.size) (item : Item) :
    (d.add b item).Records (acts ++ d.itemActs b item) := by
  cases item with
  | append op =>
    -- the slot is there once its number is handed out, and placing adds no other
    have hplace : (d.growArena (d.arena.size + 1)).place b d.arena.size op =
        d.place b d.arena.size op := by
      rw [Draft.place, growArena_of_le (size_growArena d _ ▸ Nat.le_max_right _ _), Draft.place]
    have hput := (h.hand 1).place (b := b) hb d.arena.size op
    rw [hplace, List.append_assoc] at hput
    exact hput
  | place id op => exact h.place hb id op

theorem items (h : d.Records acts) (hb : b < d.blocks.size) (items : List Item) :
    (items.foldl (Draft.add b) d).Records (acts ++ d.itemsActs b items) := by
  induction items generalizing d acts with
  | nil =>
    rw [itemsActs, List.append_nil]
    exact h
  | cons item items ih =>
    rw [itemsActs, ← List.append_assoc]
    exact ih (h.add hb item) (Nat.lt_of_lt_of_le hb (d.le_size_add b item))

theorem replay (h : d.Records acts) (stmt : Stmt) :
    (d.replay stmt).Records (acts ++ d.stmtActs stmt) := by
  cases stmt with
  | reserve n => exact h.hand n
  | block b items =>
    have hopen := (h.openBlock b).items (b := b) ?_ items
    · rwa [List.append_assoc] at hopen
    · rw [size_growBlocks]
      exact Nat.le_max_right _ _

theorem script (h : d.Records acts) (script : List Stmt) :
    (script.foldl Draft.replay d).Records (acts ++ d.acts script) := by
  induction script generalizing d acts with
  | nil =>
    rw [Draft.acts, List.append_nil]
    exact h
  | cons stmt script ih =>
    rw [Draft.acts, ← List.append_assoc]
    exact ih (h.replay stmt)

end Records

end Draft

/-! ## The finished function -/

namespace Func

/-- Edges are listed by their source in ascending order, each as often as it occurs. -/
theorem sorted_edgesInto (f : Func) (b : BlockId) : (f.edgesInto b).Pairwise (· ≤ ·) := by
  rw [edgesInto, List.pairwise_flatMap]
  constructor
  · intro a _
    exact List.pairwise_replicate.mpr (.inr (Nat.le_refl a))
  · refine List.pairwise_lt_range.imp fun hlt p hp q hq => ?_
    rw [List.eq_of_mem_replicate hp, List.eq_of_mem_replicate hq]
    exact Nat.le_of_lt hlt

theorem count_flatMap_replicate {l : List BlockId} (h : l.Nodup) (times : BlockId → Nat)
    (a : BlockId) : (l.flatMap fun p => List.replicate (times p) p).count a =
      if a ∈ l then times a else 0 := by
  induction l with
  | nil => rfl
  | cons p l ih =>
    obtain ⟨hp, hl⟩ := List.nodup_cons.mp h
    rw [List.flatMap_cons, List.count_append, ih hl, List.count_replicate]
    by_cases hpa : p = a
    · subst hpa
      simp [hp]
    · simp [hpa, Ne.symm hpa]

theorem count_edgesInto (f : Func) (a b : BlockId) :
    (f.edgesInto b).count a = (f.succs a).count b := by
  rw [edgesInto, count_flatMap_replicate List.nodup_range]
  split
  · rfl
  · next ha =>
    refine (List.count_eq_zero.mpr fun hmem => ha ?_).symm
    exact List.mem_range.mpr (lt_blockCount_of_mem_succs hmem)

/-- The stored predecessors of a function just built. -/
theorem preds_ofScript {name : String} {script : List Stmt} {b : BlockId}
    (hb : b < (ofScript name script).blockCount) :
    (ofScript name script).preds b = (ofScript name script).edgesInto b := by
  unfold ofScript Draft.finish at hb ⊢
  generalize Func.mk name _ _ #[] = f at hb ⊢
  have hcount : f.recomputePreds.rebuildUsers.blockCount = f.blockCount := by
    simp [recomputePreds, rebuildUsers, blockCount]
  have hsuccs : f.recomputePreds.rebuildUsers.succs = f.succs :=
    funext fun a => succs_recomputePreds f a
  rw [hcount] at hb
  obtain ⟨blk, hblk⟩ := exists_block hb
  have hpreds : f.recomputePreds.preds b = f.edgesInto b := by
    rw [preds, block?_recomputePreds, hblk]
    rfl
  rw [edgesInto, hcount, hsuccs]
  exact hpreds

end Func

/-- The successors that a script gives block `b`, by what is placed last in it. -/
def lastSuccs (is : List Instr) (b : BlockId) : List BlockId :=
  (standingIn is b).getLast?.elim [] (·.op.successors)

section Script
variable {name : String} {script : List Stmt}

/-- The draft of a script is what its account says. -/
theorem records_script (script : List Stmt) :
    (script.foldl Draft.replay Draft.empty).Records (scriptActs script) :=
  Draft.Records.initial.script script

theorem instr?_ofScript (id : InstrId) :
    (Func.ofScript name script).instr? id = lastAt (placements script) id :=
  (records_script script).slot id

/-- What a block lists, and nothing if there is no such block. -/
theorem listing_ofScript (name : String) (script : List Stmt) (b : BlockId) :
    (((Func.ofScript name script).block? b).map (·.instrs)).getD [] =
      (standingIn (placements script) b).map (·.id) := by
  rw [placements, ← (records_script script).lists b, Func.ofScript]
  generalize script.foldl Draft.replay Draft.empty = d
  show ((Func.mk name d.blocks d.arena #[]).recomputePreds.block? b |>.map (·.instrs)).getD [] = _
  rw [Func.block?_recomputePreds, Option.map_map]
  rfl

theorem blockCount_ofScript : (Func.ofScript name script).blockCount =
    ((scriptActs script).filterMap Act.block?).max?.elim 0 (· + 1) := by
  rw [← (records_script script).counted.eq]
  simp [Func.ofScript, Draft.finish, Func.recomputePreds, Func.rebuildUsers, Func.blockCount]

theorem succs_ofScript (b : BlockId) :
    (Func.ofScript name script).succs b = lastSuccs (placements script) b := by
  have hlast : ((Func.ofScript name script).block? b).bind Block.terminator? =
      (standingIn (placements script) b).getLast?.map (·.id) := by
    rw [← List.getLast?_map, ← listing_ofScript name]
    cases (Func.ofScript name script).block? b with
    | none => rfl
    | some blk => rfl
  rw [Func.succs, hlast, lastSuccs]
  cases hi : (standingIn (placements script) b).getLast? with
  | none => rfl
  | some i =>
    have hstanding : i ∈ standing (placements script) :=
      List.mem_of_mem_filter (List.mem_of_getLast? hi)
    rw [Option.map_some, Option.bind_some, instr?_ofScript, lastAt_of_mem_standing hstanding]
    rfl

end Script

/-- A function is what its script describes. A number that is handed out was neither handed out nor
filled before. A slot holds what was placed last under its number, and a block lists what was placed
last in it, in the order of placing. There are as many blocks as the highest one opened asks for.
The predecessors of a block are the sources of the edges into it, in ascending order, one for each
time that it occurs among the successors of the last instruction of the source; an edge to a block
that does not exist is stored nowhere. -/
theorem ofScript_described (name : String) (script : List Stmt) (f : Func)
    (hf : f = Func.ofScript name script) :
    (∀ before id after, scriptActs script = before ++ .handOut id :: after →
      ∀ act ∈ before, act.id? ≠ some id) ∧
    (∀ id, f.instr? id = lastAt (placements script) id) ∧
    (∀ b blk, f.block? b = some blk →
      blk.instrs = (standingIn (placements script) b).map (·.id)) ∧
    f.blockCount = ((scriptActs script).filterMap Act.block?).max?.elim 0 (· + 1) ∧
    (∀ b < f.blockCount, (f.preds b).Pairwise (· ≤ ·) ∧
      ∀ a, (f.preds b).count a = (lastSuccs (placements script) a).count b) ∧
    ∀ b, f.blockCount ≤ b → f.preds b = [] := by
  subst hf
  refine ⟨fun before id after hacts act hact => ?_, instr?_ofScript, fun b blk hb => ?_,
    blockCount_ofScript, fun b hb => ?_, fun b hb => ?_⟩
  · have hfresh := (records_script script).numbered.fresh
    rw [hacts] at hfresh
    exact (List.pairwise_append.mp hfresh).2.2 act hact _ List.mem_cons_self id rfl
  · have hlist := listing_ofScript name script b
    rwa [hb] at hlist
  · rw [Func.preds_ofScript hb]
    refine ⟨Func.sorted_edgesInto _ b, fun a => ?_⟩
    rw [Func.count_edgesInto, succs_ofScript]
  · refine List.eq_nil_iff_forall_not_mem.mpr fun a ha => ?_
    exact Nat.not_lt_of_le hb (Func.mem_preds_ofScript.mp ha).1

/-- A number that is reserved, placed and moved to another block, one beyond all slots, and one
that is placed again in the block where it stands. -/
def movedAbout : List Stmt :=
  [.reserve 1,
    .block 0 [.place 0 (.uninterpreted "a" []), .append (.jump 2),
      .place 5 (.add (.const 1) (.const 2)), .append (.sub (.value 5) (.value 0))],
    .block 2 [.place 0 (.uninterpreted "b" []), .append (.branch (.value 0) 0 0)],
    .block 0 [.place 1 (.jump 2)]]

theorem ofScript_described_movedAbout :
    (∃ before after, scriptActs movedAbout = before ++ .handOut 6 :: after ∧
      ∀ act ∈ before, act.id? ≠ some 6) ∧
    (Func.ofScript "f" movedAbout).instr? 0 = some ⟨0, 2, .uninterpreted "b" []⟩ ∧
    (∃ blk, (Func.ofScript "f" movedAbout).block? 0 = some blk ∧ blk.instrs = [5, 6, 1]) ∧
    (Func.ofScript "f" movedAbout).blockCount = 3 ∧
    ((Func.ofScript "f" movedAbout).preds 0).count 2 = 2 := by
  obtain ⟨hfresh, hslot, hlists, hcount, hpreds, -⟩ :=
    ofScript_described "f" movedAbout _ rfl
  have hacts : scriptActs movedAbout = (scriptActs movedAbout).take 6 ++
      .handOut 6 :: (scriptActs movedAbout).drop 7 := by decide +kernel
  have hthree : (Func.ofScript "f" movedAbout).blockCount = 3 := hcount.trans (by decide +kernel)
  obtain ⟨blk, hblk⟩ := Func.exists_block (f := Func.ofScript "f" movedAbout) (b := 0)
    (by rw [hthree]; decide)
  refine ⟨⟨_, _, hacts, hfresh _ 6 _ hacts⟩, (hslot 0).trans (by decide +kernel),
    ⟨blk, hblk, (hlists 0 blk hblk).trans (by decide +kernel)⟩, hthree, ?_⟩
  exact ((hpreds 0 (by rw [hthree]; decide)).2 2).trans (by decide +kernel)

end ConstFlow
