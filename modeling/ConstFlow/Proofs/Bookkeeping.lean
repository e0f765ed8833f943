import ConstFlow.Proofs.Edits
import ConstFlow.Proofs.WellFormed

/-!
# Accounts that edits keep

A function holds three things twice. Which instructions are live is said by the arena and by the
block lists; which block an instruction stands in, by the instruction and by the block; and who
reads a value, by the operands and by the user index. However a function is built and edited, and
whichever of the edits fail, the accounts agree:

* `usersOf_exact` : the user index is what the operands say;
* `lists_exact` : the block lists are what the arena says, and what is removed stays removed.

So `Func.validate` never finds them at odds (`Func.Placed.not_misplaced`); what it can find on a
built and edited function are defects of blocks, edges and operands.
-/

namespace ConstFlow

/-- The defect is that the arena and the block lists disagree. -/
def Defect.Misplaced : Defect → Prop
  | .listsRemoved _ _ | .foreignOwner _ _ _ | .unplaced _ _ => True
  | _ => False

namespace Func
variable {f : Func} {b : BlockId} {id : InstrId} {d : Defect}

/-! ## Defects that are not found -/

theorem not_misplaced_useDefect? {used : InstrId} (h : f.useDefect? id used = some d) :
    ¬ d.Misplaced := by
  unfold useDefect? at h
  split at h
  · split at h
    · cases h
    · cases h
      exact not_false
  · cases h
    exact not_false

theorem not_misplaced_opDefect? {op : Op} (h : f.opDefect? b id op = some d) :
    ¬ d.Misplaced := by
  unfold opDefect? at h
  rw [Option.or_eq_some_iff, Option.or_eq_some_iff] at h
  rcases h with htarget | ⟨-, hpred | ⟨-, huse⟩⟩
  · obtain ⟨t, -, ht⟩ := List.exists_of_findSome?_eq_some htarget
    split at ht
    · cases ht
    · cases ht
      exact not_false
  · obtain ⟨p, -, hp⟩ := List.exists_of_findSome?_eq_some hpred
    split at hp
    · cases hp
    · cases hp
      exact not_false
  · obtain ⟨used, -, hused⟩ := List.exists_of_findSome?_eq_some huse
    exact not_misplaced_useDefect? hused

namespace Placed
variable {blk : Block}

theorem not_misplaced_instrDefect? (hp : f.Placed) (hb : f.block? b = some blk)
    (hid : id ∈ blk.instrs) {atEnd : Bool} (h : f.instrDefect? b atEnd id = some d) :
    ¬ d.Misplaced := by
  obtain ⟨i, hi, hown⟩ := (hp.mem hb id).mp hid
  rw [instrDefect?, show f.instr? id = some i from hi] at h
  dsimp only at h
  rw [if_neg (not_not_intro hown)] at h
  split at h
  · cases h
    exact not_false
  · exact not_misplaced_opDefect? h

theorem not_misplaced_listDefect? (hp : f.Placed) (hb : f.block? b = some blk)
    {ids : List InstrId} (hids : ids ⊆ blk.instrs) (h : f.listDefect? b ids = some d) :
    ¬ d.Misplaced := by
  induction ids with
  | nil => cases h
  | cons id ids ih =>
    rw [List.cons_subset] at hids
    rw [listDefect?, Option.or_eq_some_iff] at h
    rcases h with h | ⟨-, h⟩
    · exact hp.not_misplaced_instrDefect? hb hids.1 h
    · exact ih hids.2 h

theorem not_misplaced_blockDefect? (hp : f.Placed) (hb : f.block? b = some blk)
    (h : f.blockDefect? b blk = some d) : ¬ d.Misplaced := by
  unfold blockDefect? at h
  split at h
  · cases h
    exact not_false
  · exact hp.not_misplaced_listDefect? hb (List.Subset.refl _) h

/-- Where arena and block lists agree, validation does not find them at odds. -/
theorem not_misplaced (hp : f.Placed) (h : f.validate = .error (.malformed d)) :
    ¬ d.Misplaced := by
  have hdefect : f.defect? = some d := by
    unfold validate at h
    split at h
    · cases h
    · split at h
      · next hd =>
        cases h
        exact hd
      · cases h
  rw [defect?, Option.or_eq_some_iff] at hdefect
  rcases hdefect with hblock | ⟨-, hcount⟩
  · obtain ⟨⟨blk, b⟩, hmem, hdef⟩ := List.exists_of_findSome?_eq_some hblock
    have hb : f.block? b = some blk := by
      simpa [block?] using List.mem_zipIdx_iff_getElem?.mp hmem
    exact hp.not_misplaced_blockDefect? hb hdef
  · rw [countDefect?, if_pos hp.listedCount_eq] at hcount
    cases hcount

end Placed

end Func

/-! ## The user index -/

/-- After any edits the users of a value, live or not, are the live instructions that read it, each
listed once. -/
theorem usersOf_exact (name : String) (script : List Stmt) (edits : List Edit) (f : Func)
    (hf : f = (Func.ofScript name script).edited edits) :
    f.users.size = f.slotCount ∧ ∀ d < f.slotCount, (f.usersOf d).Nodup ∧
      ∀ u, u ∈ f.usersOf d ↔ ∃ i ∈ f.instrs, i.id = u ∧ .value d ∈ i.op.operands := by
  obtain ⟨hp, hx⟩ : f.Consistent := hf ▸ Func.consistent_edited name script edits
  refine ⟨hx.size, fun d hd => ⟨hx.nodup d, fun u => ?_⟩⟩
  rw [hx.mem hd]
  constructor
  · rintro ⟨i, hi, huse⟩
    exact ⟨i, Func.mem_instrs.mpr ⟨u, hi⟩, hp.slot hi, Op.mem_uses.mp huse⟩
  · rintro ⟨i, hmem, rfl, huse⟩
    obtain ⟨k, hk⟩ := Func.mem_instrs.mp hmem
    obtain rfl := hp.slot hk
    exact ⟨i, hk, Op.mem_uses.mpr huse⟩

/-- A sum that comes to read itself, and is then removed while a phi reads it twice. -/
def selfReading : Func :=
  (Func.ofScript "f"
    [.block 0 [.append (.phi [⟨.value 0, 0⟩, ⟨.value 0, 0⟩]), .append (.add (.value 0) (.const 1)),
      .append (.jump 0)]]).edited
    [.replaceUses 0 (.value 1), .replaceUses 2 (.value 7), .remove 1, .remove 1]

theorem usersOf_exact_selfReading : selfReading.instr? 1 = none ∧ selfReading.usersOf 1 = [0] ∧
    selfReading.users.size = 3 ∧
    ∀ u, u ∈ selfReading.usersOf 1 ↔
      ∃ i ∈ selfReading.instrs, i.id = u ∧ .value 1 ∈ i.op.operands := by
  obtain ⟨hsize, hexact⟩ := usersOf_exact "f" _ _ selfReading rfl
  have hslots : selfReading.slotCount = 3 := by decide +kernel
  exact ⟨by decide +kernel, by decide +kernel, hsize.trans hslots,
    (hexact 1 (by decide +kernel)).2⟩

/-! ## The block lists -/

/-- After any edits each live instruction stands once in the lists of the blocks, in the list of the
block that it names, and nothing else is listed. More edits bring no slot and no block, and bring no
instruction back. -/
theorem lists_exact (name : String) (script : List Stmt) (edits : List Edit) (f : Func)
    (hf : f = (Func.ofScript name script).edited edits) :
    (∀ k i, f.instr? k = some i → i.id = k ∧
      (f.blocks.toList.flatMap (·.instrs)).count k = 1 ∧
      ∃ blk, f.block? i.block = some blk ∧ k ∈ blk.instrs) ∧
    (∀ b blk, f.block? b = some blk → blk.id = b ∧
      ∀ k ∈ blk.instrs, ∃ i, f.instr? k = some i ∧ i.block = b) ∧
    (∀ more, (f.edited more).slotCount = f.slotCount ∧
      (f.edited more).blockCount = f.blockCount ∧
      ∀ k, f.instr? k = none → (f.edited more).instr? k = none) ∧
    (∀ b k, f.validate ≠ .error (.malformed (.listsRemoved b k))) ∧
    (∀ k b owner, f.validate ≠ .error (.malformed (.foreignOwner k b owner))) ∧
    ∀ live listed, f.validate ≠ .error (.malformed (.unplaced live listed)) := by
  have hcons : f.Consistent := hf ▸ Func.consistent_edited name script edits
  have hp := hcons.placed
  refine ⟨fun k i hi => ⟨hp.slot hi, ?_, hp.listed hi⟩,
    fun b blk hb => ⟨hp.number hb, fun k hk => (hp.mem hb k).mp hk⟩, fun more => ?_,
    fun b k hv => hp.not_misplaced hv trivial, fun k b owner hv => hp.not_misplaced hv trivial,
    fun live listed hv => hp.not_misplaced hv trivial⟩
  · exact List.count_eq_one_of_mem hp.nodup_listed (hp.mem_listed.mpr ⟨i, hi⟩)
  · have hmore := hcons.derived_edited more
    exact ⟨hmore.slots, hmore.blocks, fun k => hmore.dead⟩

/-- A definition that moves to another block, whose first block is then emptied. -/
def rearranged : Func :=
  (Func.ofScript "f"
    [.block 1 [.place 3 (.add (.const 1) (.const 2)), .append (.ret (some (.value 3)))],
     .block 0 [.place 3 (.sub (.const 5) (.value 3)), .append (.jump 1)]]).edited
    [.remove 4, .replaceTerminator 1 (.ret none), .remove 4]

theorem lists_exact_rearranged :
    (∃ i, rearranged.instr? 3 = some i ∧ i.block = 0 ∧ i.id = 3 ∧
      (rearranged.blocks.toList.flatMap (·.instrs)).count 3 = 1 ∧
      ∃ blk, rearranged.block? i.block = some blk ∧ 3 ∈ blk.instrs) ∧
    (∃ blk, rearranged.block? 0 = some blk ∧ blk.instrs = [3, 5] ∧ blk.id = 0 ∧
      ∃ i, rearranged.instr? 5 = some i ∧ i.block = 0) ∧
    rearranged.instr? 4 = none ∧ (rearranged.edited [.replaceUses 3 (.value 4)]).instr? 4 = none ∧
    (rearranged.edited [.replaceUses 3 (.value 4)]).slotCount = 6 := by
  obtain ⟨hlive, hlists, hmore, -⟩ := lists_exact "f" _ _ rearranged rfl
  have hthree : rearranged.instr? 3 = some ⟨3, 0, .sub (.const 5) (.value 3)⟩ := by decide +kernel
  have hzero : rearranged.block? 0 = some ⟨0, [3, 5], []⟩ := by decide +kernel
  have hfour : rearranged.instr? 4 = none := by decide +kernel
  have hslots : rearranged.slotCount = 6 := by decide +kernel
  obtain ⟨hcount, -, hdead⟩ := hmore [.replaceUses 3 (.value 4)]
  exact ⟨⟨_, hthree, rfl, hlive 3 _ hthree⟩,
    ⟨_, hzero, rfl, (hlists 0 _ hzero).1, (hlists 0 _ hzero).2 5 (by decide)⟩, hfour,
    hdead 4 hfour, hcount.trans hslots⟩

end ConstFlow
