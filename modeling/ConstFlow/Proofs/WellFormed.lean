import ConstFlow.Func.Validity
import ConstFlow.Proofs.Placement

/-!
# What a validated function looks like

`Func.validate` walks over the lists of the blocks and stops at the first defect. `Func.WellFormed`
says the same about all live instructions at once; `Func.WellFormed.of_validate` reads it off a
function that passed, given that the function is placed, and `Func.WellFormed.validate_ok` goes the
other way.

* `Func.WellFormed.last_iff` : terminators are the last instructions of their blocks and nothing
  else is;
* `Func.WellFormed.succs_eq` : the edges of a block are those of its terminator;
* `Func.mem_preds_ofScript` : at first the stored predecessors are the sources of the edges.
-/

namespace ConstFlow

namespace Func

/-- The operation may stand in block `b`: its edges lead to blocks, its phi entries name
predecessors and its operands name values. -/
structure Fits (f : Func) (b : BlockId) (op : Op) : Prop where
  target : ∀ t ∈ op.successors, t < f.blockCount
  pred : ∀ p ∈ op.phiInputs, p.pred ∈ f.preds b
  use : ∀ d ∈ op.uses, ∃ i, f.instr? d = some i ∧ i.op.isTerminator = false

/-- There is a block, every block ends in its only terminator, and every live instruction fits into
its block. -/
structure WellFormed (f : Func) : Prop where
  nonempty : 0 < f.blockCount
  filled : ∀ {b : BlockId} {blk : Block}, f.block? b = some blk → blk.instrs ≠ []
  last : ∀ {b : BlockId} {blk : Block}, f.block? b = some blk →
    ∀ {pre post : List InstrId} {id : InstrId} {i : Instr}, blk.instrs = pre ++ id :: post →
      f.instr? id = some i → (i.op.isTerminator = true ↔ post = [])
  fits : ∀ {id : InstrId} {i : Instr}, f.instr? id = some i → f.Fits i.block i.op

theorem fits_of_opDefect? {f : Func} {b : BlockId} {id : InstrId} {op : Op}
    (h : f.opDefect? b id op = none) : f.Fits b op := by
  unfold opDefect? at h
  rw [Option.or_eq_none_iff, Option.or_eq_none_iff] at h
  obtain ⟨htarget, hpred, huse⟩ := h
  rw [List.findSome?_eq_none_iff] at htarget hpred huse
  constructor
  case target =>
    intro t ht
    by_contra hlt
    simpa [hlt] using htarget t ht
  case pred =>
    intro p hp
    by_contra hnot
    simpa [hnot] using hpred p hp
  case use =>
    intro d hd
    have hdef := huse d hd
    unfold useDefect? at hdef
    split at hdef
    · next i hi =>
      refine ⟨i, hi, ?_⟩
      split at hdef
      · next hval => simpa [Op.producesValue] using hval
      · cases hdef
    · cases hdef

theorem of_instrDefect? {f : Func} {b : BlockId} {atEnd : Bool} {id : InstrId}
    (h : f.instrDefect? b atEnd id = none) :
    ∃ i, f.instr? id = some i ∧ i.op.isTerminator = atEnd ∧ f.Fits b i.op := by
  unfold instrDefect? at h
  split at h
  · cases h
  · next i hi =>
    refine ⟨i, hi, ?_⟩
    split at h
    · cases h
    · split at h
      · cases h
      · next hterm => exact ⟨by simpa using hterm, fits_of_opDefect? h⟩

theorem instrDefect?_of_listDefect? {f : Func} {b : BlockId} {l : List InstrId}
    (h : f.listDefect? b l = none) :
    ∀ {pre post : List InstrId} {id : InstrId}, l = pre ++ id :: post →
      f.instrDefect? b post.isEmpty id = none := by
  induction l with
  | nil =>
    intro pre post id hl
    simp at hl
  | cons a l ih =>
    rw [listDefect?, Option.or_eq_none_iff] at h
    intro pre post id hl
    cases pre with
    | nil =>
      rw [List.nil_append, List.cons.injEq] at hl
      obtain ⟨rfl, rfl⟩ := hl
      exact h.1
    | cons c pre =>
      rw [List.cons_append, List.cons.injEq] at hl
      exact ih h.2 hl.2

/-- A placed function that validates is well formed. -/
theorem WellFormed.of_validate {f : Func} (hp : f.Placed) (h : f.validate = .ok ()) :
    f.WellFormed := by
  unfold validate at h
  split at h
  · cases h
  · next hne =>
    have hblock : ∀ {b blk}, f.block? b = some blk → f.blockDefect? b blk = none := by
      intro b blk hb
      have hdef : f.defect? = none := by
        revert h
        cases f.defect? with
        | none => exact fun _ => rfl
        | some d => exact fun h => nomatch h
      rw [defect?, Option.or_eq_none_iff, List.findSome?_eq_none_iff] at hdef
      refine hdef.1 (blk, b) (List.mem_zipIdx_iff_getElem?.mpr ?_)
      simpa [block?] using hb
    have hlist : ∀ {b blk}, f.block? b = some blk →
        blk.instrs ≠ [] ∧ f.listDefect? b blk.instrs = none := by
      intro b blk hb
      have := hblock hb
      unfold blockDefect? at this
      split at this
      · cases this
      · next hfilled => exact ⟨by simpa using hfilled, this⟩
    constructor
    case nonempty =>
      rw [blockCount, Nat.pos_iff_ne_zero]
      simpa [isEmpty] using hne
    case filled => exact fun hb => (hlist hb).1
    case last =>
      intro b blk hb pre post id i hsplit hi
      obtain ⟨j, hj, hterm, -⟩ := of_instrDefect? (instrDefect?_of_listDefect? (hlist hb).2 hsplit)
      obtain rfl : j = i := Option.some.inj (hj.symm.trans hi)
      rw [hterm, List.isEmpty_iff]
    case fits =>
      intro id i hi
      obtain ⟨blk, hb, hmem⟩ := hp.listed hi
      obtain ⟨pre, post, hsplit⟩ := List.append_of_mem hmem
      obtain ⟨j, hj, -, hfits⟩ := of_instrDefect? (instrDefect?_of_listDefect? (hlist hb).2 hsplit)
      obtain rfl : j = i := Option.some.inj (hj.symm.trans hi)
      exact hfits

theorem opDefect?_eq_none {f : Func} {b : BlockId} {op : Op} (h : f.Fits b op) (id : InstrId) :
    f.opDefect? b id op = none := by
  unfold opDefect?
  rw [Option.or_eq_none_iff, Option.or_eq_none_iff]
  simp only [List.findSome?_eq_none_iff]
  refine ⟨fun t ht => if_pos (h.target t ht), fun p hp => if_pos (h.pred p hp), fun d hd => ?_⟩
  obtain ⟨i, hi, hterm⟩ := h.use d hd
  simp [useDefect?, hi, Op.producesValue, hterm]

/-- A placed function that is well formed validates. -/
theorem WellFormed.validate_ok {f : Func} (h : f.WellFormed) (hp : f.Placed) :
    f.validate = .ok () := by
  have hlist : ∀ {b blk}, f.block? b = some blk → ∀ {pre post : List InstrId},
      blk.instrs = pre ++ post → f.listDefect? b post = none := by
    intro b blk hb pre post
    induction post generalizing pre with
    | nil => exact fun _ => rfl
    | cons id post ih =>
      intro hsplit
      have hmem : id ∈ blk.instrs := by
        rw [hsplit]
        exact List.mem_append_right _ List.mem_cons_self
      obtain ⟨i, hi, rfl⟩ := (hp.mem hb id).mp hmem
      have hi : f.instr? id = some i := hi
      have hterm : i.op.isTerminator = post.isEmpty := by
        rw [Bool.eq_iff_iff, h.last hb hsplit hi, List.isEmpty_iff]
      rw [listDefect?, Option.or_eq_none_iff]
      constructor
      · simp [instrDefect?, hi, hterm, opDefect?_eq_none (h.fits hi)]
      · have hrest : blk.instrs = (pre ++ [id]) ++ post := by
          rw [hsplit, List.append_assoc]
          rfl
        exact ih hrest
  have hdefect : f.defect? = none := by
    rw [defect?, Option.or_eq_none_iff, List.findSome?_eq_none_iff]
    constructor
    · rintro ⟨blk, b⟩ hmem
      have hb : f.block? b = some blk := by
        simpa [block?] using List.mem_zipIdx_iff_getElem?.mp hmem
      rw [blockDefect?, if_neg (by simpa using h.filled hb)]
      exact hlist hb (List.nil_append _).symm
    · rw [countDefect?, if_pos hp.listedCount_eq]
  have hsome : f.isEmpty = false := by
    have := h.nonempty
    simp only [blockCount] at this
    simpa [isEmpty, Array.isEmpty] using Nat.ne_of_gt this
  rw [validate, hsome, hdefect]
  rfl

namespace WellFormed
variable {f : Func} {b : BlockId} {blk : Block} {id : InstrId} {i : Instr}

/-- An instruction is a terminator just if its block lists it last. -/
theorem last_iff (h : f.WellFormed) (hp : f.Placed) (hb : f.block? i.block = some blk)
    (hi : f.instr? id = some i) :
    i.op.isTerminator = true ↔ blk.instrs.getLast? = some id := by
  obtain ⟨pre, post, hsplit⟩ := List.append_of_mem ((hp.mem hb id).mpr ⟨i, hi, rfl⟩)
  rw [h.last hb hsplit hi]
  constructor
  · rintro rfl
    rw [hsplit, List.getLast?_append]
    rfl
  · -- a repetition of `id` at the end would contradict that blocks list it once
    intro hlast
    have hnodup := hp.nodup hb
    rw [hsplit] at hnodup hlast
    rw [List.getLast?_append_of_ne_nil _ (List.cons_ne_nil _ _)] at hlast
    cases post with
    | nil => rfl
    | cons a post =>
      rw [List.getLast?_cons_cons] at hlast
      have hmem : id ∈ a :: post := List.mem_of_getLast? hlast
      exact absurd hmem (List.nodup_cons.mp (List.nodup_append.mp hnodup).2.1).1

/-- The edges of a block are those of its terminator. -/
theorem succs_eq (h : f.WellFormed) (hp : f.Placed) (hi : f.instr? id = some i)
    (hterm : i.op.isTerminator = true) : f.succs i.block = i.op.successors := by
  obtain ⟨blk, hb, -⟩ := hp.listed hi
  have hlast := (h.last_iff hp hb hi).mp hterm
  unfold succs
  rw [hb, Option.bind_some, Block.terminator?, hlast, Option.bind_some, hi]

end WellFormed

/-! ## Predecessors -/

/-- The source of every edge into `b`, in block order. -/
def edgesInto (f : Func) (b : BlockId) : List BlockId :=
  (List.range f.blockCount).flatMap fun a => List.replicate ((f.succs a).count b) a

/-- A block is pushed onto a list as often as its edges lead there. -/
theorem getElem?_pushEdges (f : Func) (lists : Array (List BlockId)) (a b : BlockId) :
    (f.pushEdges lists a)[b]? =
      lists[b]?.map (· ++ List.replicate ((f.succs a).count b) a) := by
  unfold pushEdges
  generalize f.succs a = targets
  induction targets generalizing lists with
  | nil => simp
  | cons c targets ih =>
    rw [List.foldl_cons, ih, Array.getElem?_modify]
    by_cases hc : c = b
    · subst hc
      rw [if_pos rfl, Option.map_map, List.count_cons_self, List.replicate_succ]
      simp [Function.comp_def]
    · rw [if_neg hc, List.count_cons_of_ne hc]

/-- What the loop over the blocks leaves. -/
theorem edgeLists_eq (f : Func) : f.edgeLists = (Array.range f.blockCount).map f.edgesInto := by
  have hloop : ∀ (as : List BlockId) (lists : Array (List BlockId)) (b : BlockId),
      (as.foldl f.pushEdges lists)[b]? =
        lists[b]?.map (· ++ as.flatMap fun a => List.replicate ((f.succs a).count b) a) := by
    intro as lists b
    induction as generalizing lists with
    | nil => simp
    | cons a as ih =>
      rw [List.foldl_cons, ih, getElem?_pushEdges, Option.map_map]
      simp [Function.comp_def]
  refine Array.ext_getElem? fun b => ?_
  rw [edgeLists, hloop, Array.getElem?_map, Array.getElem?_range, Array.getElem?_replicate]
  split
  · rfl
  · rfl

theorem mem_edgesInto {f : Func} {a b : BlockId} :
    a ∈ f.edgesInto b ↔ a < f.blockCount ∧ b ∈ f.succs a := by
  simp only [edgesInto, List.mem_flatMap, List.mem_range, List.mem_replicate, ne_eq,
    List.count_eq_zero, not_not]
  constructor
  · rintro ⟨c, hc, hmem, rfl⟩
    exact ⟨hc, hmem⟩
  · rintro ⟨ha, hmem⟩
    exact ⟨a, ha, hmem, rfl⟩

theorem block?_recomputePreds (f : Func) (b : BlockId) :
    f.recomputePreds.block? b =
      (f.block? b).map fun blk => { blk with preds := f.edgesInto b } := by
  simp only [recomputePreds, block?, Array.getElem?_mapIdx]
  cases hb : f.blocks[b]? with
  | none => rfl
  | some blk => simp [edgeLists_eq, show b < f.blockCount from block_lt hb]

@[simp] theorem succs_recomputePreds (f : Func) (b : BlockId) :
    f.recomputePreds.succs b = f.succs b := by
  unfold succs
  rw [block?_recomputePreds]
  cases f.block? b with
  | none => rfl
  | some blk => rfl

theorem lt_blockCount_of_mem_succs {f : Func} {a b : BlockId} (h : b ∈ f.succs a) :
    a < f.blockCount := by
  unfold succs at h
  cases ha : f.block? a with
  | none => simp [ha] at h
  | some blk => exact block_lt ha

/-- The stored predecessors of a function just built are the sources of its edges. -/
theorem mem_preds_ofScript {name : String} {script : List Stmt} {a b : BlockId} :
    a ∈ (ofScript name script).preds b ↔
      b < (ofScript name script).blockCount ∧ b ∈ (ofScript name script).succs a := by
  unfold ofScript Draft.finish
  generalize Func.mk name _ _ #[] = f
  show a ∈ f.recomputePreds.preds b ↔ b < f.recomputePreds.blockCount ∧ b ∈ f.recomputePreds.succs a
  rw [succs_recomputePreds, preds, block?_recomputePreds]
  cases hb : f.block? b with
  | none =>
    have hge : ¬ b < f.recomputePreds.blockCount := by
      simpa [recomputePreds, blockCount, block?] using hb
    simp [hge]
  | some blk =>
    have hlt : b < f.recomputePreds.blockCount := by
      simpa [recomputePreds, blockCount] using block_lt hb
    rw [and_iff_right hlt]
    show a ∈ f.edgesInto b ↔ _
    rw [mem_edgesInto, and_iff_right_of_imp lt_blockCount_of_mem_succs]

end Func

end ConstFlow
