import ConstFlow.Proofs.Edits
import ConstFlow.Proofs.WellFormed

/-!
# Walks that miss no instruction

Two operations on functions never look at the arena as a whole. `Func.validate` follows the lists of
the blocks and stops at the first defect; `Func.replaceUses` follows the stored users of one value.
Both come to what a scan of all live instructions comes to, because the lists and the user index are
exact on every function that was built and edited.

* `Func.Terminated` : a block ends in its only terminator;
* `validate_iff` : what validation accepts, said of all live instructions;
* `Func.Rewritten.count_foldl` : the readings counted along a list of users;
* `Func.Indexed.count_users` : the users of a value hold all the readings of it;
* `replaceUses_eq_scan` : replacing a value, and the count, as one scan.
-/

namespace ConstFlow

/-! ## Validation -/

namespace Op
variable {op : Op}

theorem forall_successors {P : BlockId → Prop} : (∀ t ∈ op.successors, P t) ↔
    (∀ target, op = .jump target → P target) ∧
      ∀ cond onTrue onFalse, op = .branch cond onTrue onFalse → P onTrue ∧ P onFalse := by
  cases op with
  | jump target => simp [successors]
  | branch cond onTrue onFalse => simp [successors]
  | _ => simp [successors]

theorem forall_phiInputs {P : PhiInput → Prop} :
    (∀ p ∈ op.phiInputs, P p) ↔ ∀ inputs, op = .phi inputs → ∀ p ∈ inputs, P p := by
  cases op with
  | phi inputs => simp [phiInputs]
  | _ => simp [phiInputs]

theorem forall_uses {P : InstrId → Prop} :
    (∀ d ∈ op.uses, P d) ↔ ∀ d, .value d ∈ op.operands → P d := by
  simp only [mem_uses]

end Op

namespace Func
variable {f : Func} {b : BlockId}

/-- The block has a last instruction, which is a terminator, and no other instruction of it is. -/
def Terminated (f : Func) (b : BlockId) : Prop :=
  ∃ front last, f.blockInstrs b = front ++ [last] ∧ last.op.isTerminator = true ∧
    ∀ i ∈ front, i.op.isTerminator = false

theorem WellFormed.terminated (h : f.WellFormed) (hp : f.Placed) (hb : b < f.blockCount) :
    f.Terminated b := by
  obtain ⟨blk, hblk⟩ := exists_block hb
  have hids := hp.ids_blockInstrs hblk
  have hlive : ∀ i ∈ f.blockInstrs b, f.instr? i.id = some i := fun i hi =>
    (hp.mem_blockInstrs.mp hi).1
  rcases List.eq_nil_or_concat (f.blockInstrs b) with hnil | ⟨front, last, hsplit⟩
  · rw [hnil] at hids
    exact absurd hids.symm (h.filled hblk)
  · rw [List.concat_eq_append] at hsplit
    rw [hsplit] at hids hlive
    refine ⟨front, last, hsplit, ?_, fun i hi => ?_⟩
    · have hend : blk.instrs = front.map (·.id) ++ last.id :: [] := by
        rw [← hids, List.map_append]
        rfl
      exact (h.last hblk hend (hlive last (by simp))).mpr rfl
    · -- something is listed behind an instruction of the front
      obtain ⟨pre, post, rfl⟩ := List.append_of_mem hi
      have hmid : blk.instrs = pre.map (·.id) ++ i.id :: (post ++ [last]).map (·.id) := by
        rw [← hids, List.append_assoc, List.map_append]
        rfl
      rw [Bool.eq_false_iff, ne_eq, h.last hblk hmid (hlive i (by simp))]
      simp

theorem Terminated.last_iff (h : f.Terminated b) (hp : f.Placed) {blk : Block}
    (hblk : f.block? b = some blk) {pre post : List InstrId} {id : InstrId} {i : Instr}
    (hsplit : blk.instrs = pre ++ id :: post) (hi : f.instr? id = some i) :
    i.op.isTerminator = true ↔ post = [] := by
  obtain ⟨front, last, hlist, hlast, hfront⟩ := h
  obtain rfl := hp.slot hi
  have hids : front.map (·.id) ++ [last.id] = pre ++ i.id :: post := by
    rw [← hsplit, ← hp.ids_blockInstrs hblk, hlist, List.map_append]
    rfl
  have hsame : ∀ j ∈ f.blockInstrs b, j.id = i.id → j = i := fun j hj heq =>
    Option.some.inj ((heq ▸ (hp.mem_blockInstrs.mp hj).1).symm.trans hi)
  rcases List.eq_nil_or_concat post with rfl | ⟨post, k, rfl⟩
  · obtain ⟨-, hid⟩ := List.append_inj' hids rfl
    obtain rfl := hsame last (by simp [hlist]) (List.singleton_inj.mp hid)
    exact iff_of_true hlast rfl
  · rw [List.concat_eq_append] at hids ⊢
    have hmem : i.id ∈ front.map (·.id) := by
      rw [← List.cons_append, ← List.append_assoc] at hids
      rw [(List.append_inj' hids rfl).1]
      simp
    obtain ⟨j, hj, heq⟩ := List.mem_map.mp hmem
    obtain rfl := hsame j (by simp [hlist, hj]) heq
    exact iff_of_false (by simp [hfront j hj]) (by simp)

end Func

/-- Validation accepts a function just if it has a block, every block ends in its only terminator,
jumps and branches lead to blocks, phis name stored predecessors of their blocks, and every value
that a live instruction reads is computed by a live instruction. -/
theorem validate_iff (name : String) (script : List Stmt) (edits : List Edit) (f : Func)
    (hf : f = (Func.ofScript name script).edited edits) :
    f.validate = .ok () ↔
      0 < f.blockCount ∧
      (∀ b < f.blockCount, f.Terminated b) ∧
      (∀ i ∈ f.instrs, ∀ target, i.op = .jump target → target < f.blockCount) ∧
      (∀ i ∈ f.instrs, ∀ cond onTrue onFalse, i.op = .branch cond onTrue onFalse →
        onTrue < f.blockCount ∧ onFalse < f.blockCount) ∧
      (∀ i ∈ f.instrs, ∀ inputs, i.op = .phi inputs → ∀ p ∈ inputs, p.pred ∈ f.preds i.block) ∧
      ∀ i ∈ f.instrs, ∀ d, .value d ∈ i.op.operands →
        ∃ j, f.instr? d = some j ∧ j.op.isTerminator = false := by
  have hp : f.Placed := (hf ▸ Func.consistent_edited name script edits).placed
  constructor
  · intro hvalid
    have hwf := Func.WellFormed.of_validate hp hvalid
    have hfits : ∀ i ∈ f.instrs, f.Fits i.block i.op := by
      intro i hi
      obtain ⟨k, hk⟩ := Func.mem_instrs.mp hi
      exact hwf.fits hk
    exact ⟨hwf.nonempty, fun b hb => hwf.terminated hp hb,
      fun i hi => (Op.forall_successors.mp (hfits i hi).target).1,
      fun i hi => (Op.forall_successors.mp (hfits i hi).target).2,
      fun i hi => Op.forall_phiInputs.mp (hfits i hi).pred,
      fun i hi => Op.forall_uses.mp (hfits i hi).use⟩
  · rintro ⟨hsome, hends, hjumps, hbranches, hphis, hreads⟩
    refine Func.WellFormed.validate_ok ⟨hsome, fun {b blk} hblk => ?_, fun hblk =>
      (hends _ (Func.block_lt hblk)).last_iff hp hblk, fun {id i} hi => ?_⟩ hp
    · obtain ⟨front, last, hlist, -⟩ := hends b (Func.block_lt hblk)
      rw [← hp.ids_blockInstrs hblk, hlist]
      simp
    · have hmem := Func.mem_instrs.mpr ⟨id, hi⟩
      exact ⟨Op.forall_successors.mpr ⟨hjumps i hmem, hbranches i hmem⟩,
        Op.forall_phiInputs.mpr (hphis i hmem), Op.forall_uses.mpr (hreads i hmem)⟩

/-- A loop over a phi, after edits. -/
def seededLoop (edits : List Edit) : Func :=
  (Func.ofScript "f"
    [.block 0 [.append (.add (.const 1) (.const 2)), .append (.jump 1)],
     .block 1 [.append (.phi [⟨.value 0, 0⟩, ⟨.value 3, 1⟩]), .append (.sub (.value 2) (.const 1)),
       .append (.branch (.value 3) 1 2)],
     .block 2 [.append (.ret (some (.value 2)))]]).edited edits

theorem validate_iff_seededLoop :
    (seededLoop [.replaceUses 0 (.const 3), .remove 0]).Terminated 0 ∧
    (∀ i ∈ (seededLoop [.replaceUses 0 (.const 3), .remove 0]).instrs, ∀ d,
      .value d ∈ i.op.operands →
      ∃ j, (seededLoop [.replaceUses 0 (.const 3), .remove 0]).instr? d = some j ∧
        j.op.isTerminator = false) ∧
    (seededLoop [.remove 0]).validate ≠ .ok () := by
  have hvalid : (seededLoop [.replaceUses 0 (.const 3), .remove 0]).validate = .ok () := by
    decide +kernel
  obtain ⟨-, hends, -, -, -, hreads⟩ := (validate_iff "f" _ _ _ rfl).mp hvalid
  refine ⟨hends 0 (by decide +kernel), hreads, fun hvalid => ?_⟩
  -- the phi still reads the value that was removed
  obtain ⟨-, -, -, -, -, hreads⟩ := (validate_iff "f" _ _ _ rfl).mp hvalid
  have hphi : ∃ i ∈ (seededLoop [.remove 0]).instrs, .value 0 ∈ i.op.operands := by decide +kernel
  have hgone : (seededLoop [.remove 0]).instr? 0 = none := by decide +kernel
  obtain ⟨i, hi, hread⟩ := hphi
  obtain ⟨j, hj, -⟩ := hreads i hi 0 hread
  cases hgone.symm.trans hj

/-! ## Replacing uses -/

/-- Each reading of a value among the operands is one of the values used. -/
theorem Op.count_uses (op : Op) (id : InstrId) :
    op.uses.count id = op.operands.count (.value id) := by
  rw [uses, List.count, List.countP_filterMap, List.count]
  congr 1
  funext x
  cases x with
  | const c => rfl
  | undef => rfl
  | value v => simp [Operand.value?]

namespace Func
variable {f g : Func} {id : InstrId} {new : Operand} {done : List InstrId}

/-- The operands of the instruction in a slot, and none where no instruction is live. -/
def operandsAt (f : Func) (k : InstrId) : List Operand :=
  (f.instr? k).elim [] (·.op.operands)

theorem Rewritten.count_step (h : Rewritten f id new done g) {u : InstrId} (hu : u ∉ done)
    (n : Nat) : (replaceIn id new (n, g) u).1 = n + (f.operandsAt u).count (.value id) := by
  have hself := h.instr u
  unfold replaceIn operandsAt
  cases hi : f.instr? u with
  | none =>
    rw [hi, Option.map_none] at hself
    simp [hself]
  | some i =>
    -- the user was not visited before, so it still reads what it read
    rw [hi, Option.map_some, if_neg hu] at hself
    simp [hself, Op.count_uses]

theorem Rewritten.count_foldl (us : List InstrId) :
    ∀ {done : List InstrId} {p : Nat × Func}, Rewritten f id new done p.2 → (done ++ us).Nodup →
      (us.foldl (replaceIn id new) p).1 = p.1 + (us.flatMap f.operandsAt).count (.value id) := by
  induction us with
  | nil =>
    intro done p _ _
    rfl
  | cons u us ih =>
    intro done p h hnodup
    have hu : u ∉ done := fun hmem =>
      (List.nodup_append.mp hnodup).2.2 u hmem u List.mem_cons_self rfl
    rw [List.append_cons] at hnodup
    rw [List.foldl_cons, ih (h.step hu p.1) hnodup, h.count_step hu, List.flatMap_cons,
      List.count_append, Nat.add_assoc]

theorem instrs_operands (f : Func) :
    f.instrs.flatMap (·.op.operands) = (List.range f.slotCount).flatMap f.operandsAt := by
  rw [instrs_eq, List.filterMap_eq_flatMap_toList, List.flatMap_assoc]
  refine List.flatMap_congr fun k _ => ?_
  unfold operandsAt
  cases f.instr? k with
  | none => rfl
  | some i => exact List.append_nil _

theorem count_flatMap_filter {α β : Type} [BEq β] {q : α → Bool} {g : α → List β} {x : β}
    (l : List α) (h : ∀ a ∈ l, q a = false → (g a).count x = 0) :
    ((l.filter q).flatMap g).count x = (l.flatMap g).count x := by
  induction l with
  | nil => rfl
  | cons a l ih =>
    obtain ⟨ha, hl⟩ := List.forall_mem_cons.mp h
    rw [List.flatMap_cons, List.count_append, ← ih hl]
    cases hq : q a with
    | true => rw [List.filter_cons_of_pos hq, List.flatMap_cons, List.count_append]
    | false => rw [List.filter_cons_of_neg (by simp [hq]), ha hq, Nat.zero_add]

/-- All readings of a value are in its stored users. -/
theorem Indexed.count_users (h : f.Indexed) (hid : id < f.slotCount) :
    ((f.usersOf id).flatMap f.operandsAt).count (.value id) =
      (f.instrs.flatMap (·.op.operands)).count (.value id) := by
  have hperm : ((List.range f.slotCount).filter (· ∈ f.usersOf id)).Perm (f.usersOf id) := by
    rw [List.perm_ext_iff_of_nodup (List.nodup_range.filter _) (h.nodup id)]
    intro u
    rw [List.mem_filter, List.mem_range, decide_eq_true_eq, and_iff_right_iff_imp, h.mem hid]
    rintro ⟨i, hi, -⟩
    exact lt_slotCount hi
  calc ((f.usersOf id).flatMap f.operandsAt).count (.value id)
      = (((List.range f.slotCount).filter (· ∈ f.usersOf id)).flatMap f.operandsAt).count
          (.value id) := ((hperm.flatMap_right _).count_eq _).symm
    _ = ((List.range f.slotCount).flatMap f.operandsAt).count (.value id) := by
        refine count_flatMap_filter _ fun k _ hk => List.count_eq_zero.mpr fun hmem => ?_
        rw [decide_eq_false_iff_not, h.mem hid] at hk
        unfold operandsAt at hmem
        cases hi : f.instr? k with
        | none => simp [hi] at hmem
        | some i => exact hk ⟨i, hi, Op.mem_uses.mpr (by simpa [hi] using hmem)⟩
    _ = (f.instrs.flatMap (·.op.operands)).count (.value id) := by rw [instrs_operands]

/-- The number that comes with a replacement counts the readings of the value. -/
theorem replaceUses_count (h : f.Indexed) {i : Instr} (hi : f.instr? id = some i)
    (hne : new ≠ .value id) : ∃ g, f.replaceUses id new =
      .ok ((f.instrs.flatMap (·.op.operands)).count (.value id), g) := by
  refine ⟨((f.usersOf id).foldl (replaceIn id new)
    (0, { f with users := f.users.setIfInBounds id [] })).2, ?_⟩
  have hcount := Rewritten.count_foldl (f.usersOf id)
    (p := (0, { f with users := f.users.setIfInBounds id [] })) (Rewritten.start h id new)
    (by simpa using h.nodup id)
  rw [h.count_users (lt_slotCount hi), Nat.zero_add] at hcount
  unfold replaceUses
  rw [hi, ← hcount]
  exact if_neg (by simpa [Operand.references] using hne)

end Func

theorem Op.substitute_eq (op : Op) (id : InstrId) (new : Operand) :
    op.substitute id new = op.mapOperands fun x => if x = .value id then new else x := by
  simp only [Op.substitute, Operand.references, beq_iff_eq]

/-- Replacing a live value by another operand changes all readings of it and nothing else, although
only the stored users are visited, and the number that comes with it counts them. Replacing a value
by itself does nothing, and an instruction that is not live is refused. -/
theorem replaceUses_eq_scan (name : String) (script : List Stmt) (edits : List Edit) (f : Func)
    (hf : f = (Func.ofScript name script).edited edits) (id : InstrId) :
    ((f.instr? id).isSome = true → ∀ new ≠ Operand.value id, ∃ g,
      f.replaceUses id new = .ok ((f.instrs.flatMap (·.op.operands)).count (.value id), g) ∧
      g.name = f.name ∧ g.blocks = f.blocks ∧ g.slotCount = f.slotCount ∧
      (∀ k, g.instr? k = (f.instr? k).map fun i =>
        { i with op := i.op.mapOperands fun x => if x = .value id then new else x }) ∧
      ∀ i ∈ g.instrs, .value id ∉ i.op.operands) ∧
    ((f.instr? id).isSome = true → f.replaceUses id (.value id) = .ok (0, f)) ∧
    (f.instr? id = none → ∀ new, f.replaceUses id new = .error (.unknownInstr id) ∧
      (Edit.replaceUses id new).apply f = f) := by
  obtain ⟨hp, hx⟩ : f.Consistent := hf ▸ Func.consistent_edited name script edits
  refine ⟨fun hlive new hne => ?_, fun hlive => ?_, fun hdead new => ?_⟩
  · obtain ⟨i, hi⟩ := Option.isSome_iff_exists.mp hlive
    obtain ⟨g, hg⟩ := Func.replaceUses_count hx hi hne
    obtain ⟨hname, hblocks, hslots, -, hinstr⟩ := Func.replaceUses_spec hx hne hg
    simp only [Op.substitute_eq] at hinstr
    refine ⟨g, hg, hname, hblocks, hslots, hinstr, fun j hj hread => ?_⟩
    obtain ⟨k, hk⟩ := Func.mem_instrs.mp hj
    obtain ⟨i', -, rfl⟩ := Option.map_eq_some_iff.mp ((hinstr k).symm.trans hk)
    rw [Op.operands_mapOperands, List.mem_map] at hread
    obtain ⟨x, -, hx⟩ := hread
    split at hx
    · exact hne hx
    · next hother => exact hother hx
  · obtain ⟨i, hi⟩ := Option.isSome_iff_exists.mp hlive
    unfold Func.replaceUses
    rw [hi]
    exact if_pos (by simp [Operand.references])
  · have herror : f.replaceUses id new = .error (.unknownInstr id) := by
      unfold Func.replaceUses
      rw [hdead]
    refine ⟨herror, ?_⟩
    show f.attempt (f.replaceUses id new) = f
    rw [herror]
    rfl

theorem replaceUses_eq_scan_seededLoop :
    (∃ g, (seededLoop [.replaceUses 2 (.value 3)]).replaceUses 3 (.value 0) = .ok (4, g) ∧
      g.instr? 2 = some ⟨2, 1, .phi [⟨.value 0, 0⟩, ⟨.value 0, 1⟩]⟩ ∧
      g.instr? 3 = some ⟨3, 1, .sub (.value 0) (.const 1)⟩ ∧
      ∀ i ∈ g.instrs, .value 3 ∉ i.op.operands) ∧
    (seededLoop [.replaceUses 2 (.value 3)]).replaceUses 3 (.value 3) =
      .ok (0, seededLoop [.replaceUses 2 (.value 3)]) ∧
    (seededLoop [.remove 0]).replaceUses 0 (.const 7) = .error (.unknownInstr 0) := by
  have hlive : ((seededLoop [.replaceUses 2 (.value 3)]).instr? 3).isSome = true := by
    decide +kernel
  have hcount : ((seededLoop [.replaceUses 2 (.value 3)]).instrs.flatMap (·.op.operands)).count
      (.value 3) = 4 := by decide +kernel
  have hphi : (seededLoop [.replaceUses 2 (.value 3)]).instr? 2 =
      some ⟨2, 1, .phi [⟨.value 0, 0⟩, ⟨.value 3, 1⟩]⟩ := by decide +kernel
  have hsub : (seededLoop [.replaceUses 2 (.value 3)]).instr? 3 =
      some ⟨3, 1, .sub (.value 3) (.const 1)⟩ := by decide +kernel
  obtain ⟨hscan, hself, -⟩ :=
    replaceUses_eq_scan "f" _ _ (seededLoop [.replaceUses 2 (.value 3)]) rfl 3
  obtain ⟨g, hg, -, -, -, hinstr, hgone⟩ := hscan hlive (.value 0) (by decide)
  rw [hcount] at hg
  refine ⟨⟨g, hg, ?_, ?_, hgone⟩, hself hlive, ?_⟩
  · rw [hinstr, hphi]
    rfl
  · rw [hinstr, hsub]
    rfl
  · exact ((replaceUses_eq_scan "f" _ _ (seededLoop [.remove 0]) rfl 0).2.2 (by decide +kernel)
      (.const 7)).1

end ConstFlow
