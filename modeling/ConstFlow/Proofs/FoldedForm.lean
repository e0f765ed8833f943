import ConstFlow.Proofs.Comparison
import ConstFlow.Proofs.Folding

/-!
# The form that a folding leaves

A folding takes values out, makes jumps of branches and reads constants in place of values. None of
this breaks the form of a function: blocks still end in their only terminator, edges only disappear,
and a definition that was on every way to its uses still is. The stored predecessors stay, so they
may name blocks from which no edge leads any more.

* `Folded.succs_subset` : no edge is new;
* `Folded.regular` : what is left of a regular function is regular.
-/

namespace ConstFlow

section Operations
variable {f : Func} {r : Solution} {d : Folding} {k u : InstrId} {i : Instr} {o : Operand}

theorem Folding.operand_eq_value : d.operand o = .value u ↔ o = .value u ∧ d.consts u = none := by
  cases o with
  | const c => simp [operand]
  | undef => simp [operand]
  | value v =>
    cases hv : d.consts v with
    | none =>
      simp only [operand, hv, Operand.value.injEq]
      exact ⟨fun h => ⟨h, h ▸ hv⟩, fun h => h.1⟩
    | some c =>
      simp only [operand, hv, Operand.value.injEq]
      constructor
      · intro h
        cases h
      · rintro ⟨rfl, hnone⟩
        cases hv.symm.trans hnone

@[simp] theorem Folding.isUndef_operand : (d.operand o).isUndef = o.isUndef := by
  cases o with
  | const c => rfl
  | undef => rfl
  | value v =>
    simp only [operand]
    cases d.consts v with
    | none => rfl
    | some c => rfl

theorem Solution.Decides.branch {target : BlockId} (h : r.Decides i target) :
    i.op.isTerminator = true ∧ i.op.isPhi = false ∧ target ∈ i.op.successors := by
  obtain ⟨cond, onTrue, onFalse, hop, ⟨-, rfl⟩ | ⟨-, rfl⟩⟩ := h
  · rw [hop]
    exact ⟨rfl, rfl, List.mem_cons_self⟩
  · rw [hop]
    exact ⟨rfl, rfl, List.mem_cons_of_mem _ List.mem_cons_self⟩

theorem Folding.Justified.isTerminator_op (hd : d.Justified f r) (hi : f.instr? k = some i) :
    (d.op k i.op).isTerminator = i.op.isTerminator := by
  rcases hd.op_cases hi with ⟨-, hop⟩ | ⟨target, -, hdecides, hop⟩
  · rw [hop, Op.isTerminator_mapOperands]
  · rw [hop, hdecides.branch.1]
    rfl

theorem Folding.Justified.mem_successors (hd : d.Justified f r) (hi : f.instr? k = some i)
    {t : BlockId} (ht : t ∈ (d.op k i.op).successors) : t ∈ i.op.successors := by
  rcases hd.op_cases hi with ⟨-, hop⟩ | ⟨target, -, hdecides, hop⟩
  · rwa [hop, Op.successors_mapOperands] at ht
  · rw [hop] at ht
    rw [List.mem_singleton.mp ht]
    exact hdecides.branch.2.2

theorem Folding.Justified.mem_operands (hd : d.Justified f r) (hi : f.instr? k = some i)
    (ho : o ∈ (d.op k i.op).operands) : ∃ o' ∈ i.op.operands, d.operand o' = o := by
  rcases hd.op_cases hi with ⟨-, hop⟩ | ⟨target, -, -, hop⟩
  · rw [hop, Op.operands_mapOperands] at ho
    exact List.mem_map.mp ho
  · rw [hop] at ho
    cases ho

/-- The values that are read were read before, and are none of the constants. -/
theorem Folding.Justified.mem_uses (hd : d.Justified f r) (hi : f.instr? k = some i)
    (hu : u ∈ (d.op k i.op).uses) : u ∈ i.op.uses ∧ d.consts u = none := by
  obtain ⟨o, ho, heq⟩ := hd.mem_operands hi (Op.mem_uses.mp hu)
  obtain ⟨rfl, hnone⟩ := Folding.operand_eq_value.mp heq
  exact ⟨Op.mem_uses.mpr ho, hnone⟩

theorem Op.phiInputs_mapOperands (g : Operand → Operand) (op : Op) :
    (op.mapOperands g).phiInputs = op.phiInputs.map fun p => { p with value := g p.value } := by
  cases op <;> rfl

theorem Op.isPhi_mapOperands (g : Operand → Operand) (op : Op) :
    (op.mapOperands g).isPhi = op.isPhi := by
  cases op <;> rfl

theorem Op.isFoldable_mapOperands (g : Operand → Operand) (op : Op) :
    (op.mapOperands g).isFoldable = op.isFoldable := by
  cases op <;> rfl

theorem Op.mapOperands_eq_branch {g : Operand → Operand} {op : Op} {cond : Operand}
    {onTrue onFalse : BlockId} : op.mapOperands g = .branch cond onTrue onFalse ↔
      ∃ cond', op = .branch cond' onTrue onFalse ∧ g cond' = cond := by
  cases op <;> simp [mapOperands, and_comm, and_assoc]

theorem Folding.Justified.isPhi_op (hd : d.Justified f r) (hi : f.instr? k = some i) :
    (d.op k i.op).isPhi = i.op.isPhi := by
  rcases hd.op_cases hi with ⟨-, hop⟩ | ⟨target, -, hdecides, hop⟩
  · rw [hop, Op.isPhi_mapOperands]
  · rw [hop, hdecides.branch.2.1]
    rfl

theorem Folding.Justified.mem_phiInputs (hd : d.Justified f r) (hi : f.instr? k = some i)
    {p : PhiInput} (hp : p ∈ (d.op k i.op).phiInputs) :
    ∃ q ∈ i.op.phiInputs, p = { q with value := d.operand q.value } := by
  rcases hd.op_cases hi with ⟨-, hop⟩ | ⟨target, -, -, hop⟩
  · rw [hop, Op.phiInputs_mapOperands] at hp
    obtain ⟨q, hq, rfl⟩ := List.mem_map.mp hp
    exact ⟨q, hq, rfl⟩
  · rw [hop] at hp
    cases hp

end Operations

section Form
variable {f g : Func} {r : Solution} {d : Folding} {k : InstrId} {i j : Instr} {b : BlockId}

theorem Folded.blockCount (h : Folded f d g) : g.blockCount = f.blockCount := by
  have hlt : ∀ b, b < g.blockCount ↔ b < f.blockCount := by
    intro b
    constructor
    · intro hb
      obtain ⟨blk, hblk⟩ := Func.exists_block hb
      rw [h.block, Option.map_eq_some_iff] at hblk
      obtain ⟨blk₀, hblk₀, -⟩ := hblk
      exact Func.block_lt hblk₀
    · intro hb
      obtain ⟨blk, hblk⟩ := Func.exists_block hb
      exact Func.block_lt (by rw [h.block, hblk, Option.map_some])
  have h₁ := hlt g.blockCount
  have h₂ := hlt f.blockCount
  omega

theorem Folded.preds (h : Folded f d g) (b : BlockId) : g.preds b = f.preds b := by
  unfold Func.preds
  rw [h.block]
  cases f.block? b with
  | none => rfl
  | some blk => rfl

/-- Terminators are no constants. -/
theorem Folding.Justified.consts_terminator (hd : d.Justified f r) (hi : f.instr? k = some i)
    (hterm : i.op.isTerminator = true) : d.consts k = none := by
  refine hd.consts_eq_none hi ?_
  revert hterm
  cases i.op <;> simp [Op.isTerminator, Op.isFoldable]

theorem Func.WellFormed.exists_last (hwf : f.WellFormed) (hp : f.Placed) {blk : Block}
    (hblk : f.block? b = some blk) : ∃ id i, blk.instrs.getLast? = some id ∧
      f.instr? id = some i ∧ i.block = b ∧ i.op.isTerminator = true := by
  have hlast := List.getLast?_eq_some_getLast (hwf.filled hblk)
  obtain ⟨i, hi, rfl⟩ := (hp.mem hblk _).mp (List.mem_of_getLast? hlast)
  exact ⟨_, i, hlast, hi, rfl, (hwf.last_iff hp hblk hi).mpr hlast⟩

/-- A block still ends in the instruction that it ended in. -/
theorem Folded.exists_last (h : Folded f d g) (hp : f.Placed) (hwf : f.WellFormed)
    (hd : d.Justified f r) {blk : Block} (hblk : g.block? b = some blk) :
    ∃ id i, blk.instrs.getLast? = some id ∧ f.instr? id = some i ∧ i.block = b ∧
      i.op.isTerminator = true := by
  rw [h.block, Option.map_eq_some_iff] at hblk
  obtain ⟨blk₀, hblk₀, rfl⟩ := hblk
  obtain ⟨id, i, hlast, hi, hb, hterm⟩ := hwf.exists_last hp hblk₀
  refine ⟨id, i, getLast?_filter hlast ?_, hi, hb, hterm⟩
  rw [hd.consts_terminator hi hterm]
  rfl

/-- The edges that a block is left with are those of what its terminator became. -/
theorem Folded.exists_edge (h : Folded f d g) (hp : f.Placed) (hwf : f.WellFormed)
    (hd : d.Justified f r) {a t : BlockId} (ht : t ∈ g.succs a) : ∃ i, f.instr? i.id = some i ∧
      i.block = a ∧ i.op.isTerminator = true ∧ t ∈ (d.op i.id i.op).successors := by
  obtain ⟨blk, hblk⟩ := Func.exists_block (Func.lt_blockCount_of_mem_succs ht)
  obtain ⟨id, i, hlast, hi, rfl, hterm⟩ := h.exists_last hp hwf hd hblk
  have hj := h.instr_kept hi (hd.consts_terminator hi hterm)
  unfold Func.succs at ht
  rw [hblk, Option.bind_some, Block.terminator?, hlast, Option.bind_some, hj] at ht
  obtain rfl := hp.slot hi
  exact ⟨i, hi, rfl, hterm, ht⟩

/-- No edge is new. -/
theorem Folded.succs_subset (h : Folded f d g) (hp : f.Placed) (hwf : f.WellFormed)
    (hd : d.Justified f r) {a t : BlockId} (ht : t ∈ g.succs a) : t ∈ f.succs a := by
  obtain ⟨i, hi, rfl, hterm, ht⟩ := h.exists_edge hp hwf hd ht
  rw [hwf.succs_eq hp hi hterm]
  exact hd.mem_successors hi ht

theorem Folded.walk (h : Folded f d g) (hp : f.Placed) (hwf : f.WellFormed) (hd : d.Justified f r)
    {way : List BlockId} (hwalk : g.Walk way) : f.Walk way := by
  induction hwalk with
  | entry => exact .entry
  | edge _ hedge ih => exact .edge ih (h.succs_subset hp hwf hd hedge)

theorem Folded.dominates (h : Folded f d g) (hp : f.Placed) (hwf : f.WellFormed)
    (hd : d.Justified f r) {a b : BlockId} (hdom : f.Dominates a b) : g.Dominates a b :=
  fun way hwalk => hdom way (h.walk hp hwf hd hwalk)

theorem mem_takeWhile_filter {α : Type} {p q : α → Bool} {a : α} (hq : q a = true) :
    ∀ {l : List α}, a ∈ l.takeWhile p → a ∈ (l.filter q).takeWhile p := by
  intro l
  induction l with
  | nil => exact fun h => h
  | cons c l ih =>
    intro h
    rw [List.takeWhile_cons] at h
    split at h
    · next hc =>
      rw [List.filter_cons]
      rcases List.mem_cons.mp h with rfl | h
      · rw [if_pos hq, List.takeWhile_cons, if_pos hc]
        exact List.mem_cons_self
      · split
        · rw [List.takeWhile_cons, if_pos hc]
          exact List.mem_cons_of_mem _ (ih h)
        · exact ih h
    · cases h

theorem Folded.mem_listedBefore (h : Folded f d g) {op : Op} {u : InstrId}
    (hu : u ∈ f.listedBefore i) (hnone : d.consts u = none) :
    u ∈ g.listedBefore { i with op := op } := by
  have hblk' := h.block i.block
  cases hblk : f.block? i.block with
  | none =>
    rw [Func.listedBefore, hblk] at hu
    cases hu
  | some blk =>
    rw [Func.listedBefore, hblk] at hu
    rw [hblk, Option.map_some] at hblk'
    rw [Func.listedBefore, hblk']
    exact mem_takeWhile_filter (by rw [hnone]; rfl) hu

theorem Folded.wellFormed (h : Folded f d g) (hp : f.Placed) (hwf : f.WellFormed)
    (hd : d.Justified f r) : g.WellFormed where
  nonempty := h.blockCount ▸ hwf.nonempty
  filled hblk := by
    obtain ⟨id, i, hlast, -⟩ := h.exists_last hp hwf hd hblk
    exact List.ne_nil_of_mem (List.mem_of_getLast? hlast)
  last {b blk} hblk {pre post id j} hsplit hj := by
    obtain ⟨id', i', hlast, hi', -, hterm'⟩ := h.exists_last hp hwf hd hblk
    obtain ⟨hnone, i, hi, rfl⟩ := h.instr_eq_some.mp hj
    show (d.op id i.op).isTerminator = true ↔ _
    rw [hd.isTerminator_op hi]
    have hnodup := h.consistent.placed.nodup hblk
    constructor
    · -- a terminator was the last of its block, and still is
      intro hterm
      have hmem : id ∈ blk.instrs := by
        rw [hsplit]
        exact List.mem_append_right _ List.mem_cons_self
      obtain ⟨j, hj', rfl⟩ := (h.consistent.placed.mem hblk id).mp hmem
      obtain rfl := Option.some.inj (hj'.symm.trans hj)
      rw [h.block, Option.map_eq_some_iff] at hblk
      obtain ⟨blk₀, hblk₀, rfl⟩ := hblk
      have hlast₀ := getLast?_filter (p := fun id => (d.consts id).isNone)
        ((hwf.last_iff (i := i) hp hblk₀ hi).mp hterm) (by rw [hnone]; rfl)
      dsimp only at hsplit hnodup
      rw [hsplit] at hlast₀ hnodup
      cases post with
      | nil => rfl
      | cons a post =>
        rw [List.getLast?_append_of_ne_nil _ (List.cons_ne_nil _ _), List.getLast?_cons_cons]
          at hlast₀
        have hagain : id ∈ a :: post := List.mem_of_getLast? hlast₀
        exact absurd hagain (List.nodup_cons.mp (List.nodup_append.mp hnodup).2.1).1
    · rintro rfl
      rw [hsplit, List.getLast?_append] at hlast
      obtain rfl : id = id' := Option.some.inj hlast
      obtain rfl : i' = i := Option.some.inj (hi'.symm.trans hi)
      exact hterm'
  fits {id j} hj := by
    obtain ⟨-, i, hi, rfl⟩ := h.instr_eq_some.mp hj
    have hfits := hwf.fits hi
    refine ⟨fun t ht => ?_, fun p hp => ?_, fun u hu => ?_⟩
    · rw [h.blockCount]
      exact hfits.target t (hd.mem_successors hi ht)
    · obtain ⟨q, hq, rfl⟩ := hd.mem_phiInputs hi hp
      rw [h.preds]
      exact hfits.pred q hq
    · obtain ⟨hu, hnone⟩ := hd.mem_uses hi hu
      obtain ⟨i', hi', hterm⟩ := hfits.use u hu
      exact ⟨_, h.instr_kept hi' hnone, by rw [hd.isTerminator_op hi', hterm]⟩

theorem Folded.strict (h : Folded f d g) (hp : f.Placed) (hwf : f.WellFormed)
    (hd : d.Justified f r) (hstrict : f.Strict) : g.Strict := by
  have hinstr : ∀ {j}, j ∈ g.instrs → ∃ k i, i ∈ f.instrs ∧ f.instr? k = some i ∧
      j = { i with op := d.op k i.op } := by
    intro j hj
    obtain ⟨k, hk⟩ := Func.mem_instrs.mp hj
    obtain ⟨-, i, hi, rfl⟩ := h.instr_eq_some.mp hk
    exact ⟨k, i, Func.mem_instrs.mpr ⟨k, hi⟩, hi, rfl⟩
  -- a value that is still read still stands in the block where it stood
  have hkept : ∀ {u i}, f.instr? u = some i → d.consts u = none →
      ∃ j, g.instr? u = some j ∧ j.block = i.block := fun hi hnone =>
    ⟨_, h.instr_kept hi hnone, rfl⟩
  constructor
  case defined =>
    intro j hj hundef
    obtain ⟨k, i, hmem, hi, rfl⟩ := hinstr hj
    obtain ⟨o, ho, heq⟩ := hd.mem_operands hi hundef
    have hisUndef := Folding.isUndef_operand (d := d) (o := o)
    rw [heq] at hisUndef
    cases o with
    | undef => exact hstrict.defined i hmem ho
    | const c => cases hisUndef
    | value u => cases hisUndef
  case total =>
    intro j hj hphi a ha
    obtain ⟨k, i, hmem, hi, rfl⟩ := hinstr hj
    rw [hd.isPhi_op hi] at hphi
    rw [h.preds] at ha
    obtain ⟨p, hpmem, rfl⟩ := hstrict.total i hmem hphi a ha
    rcases hd.op_cases hi with ⟨-, hop⟩ | ⟨target, -, hdecides, -⟩
    · refine ⟨{ p with value := d.operand p.value }, ?_, rfl⟩
      show _ ∈ (d.op k i.op).phiInputs
      rw [hop, Op.phiInputs_mapOperands]
      exact List.mem_map_of_mem hpmem
    · rw [hdecides.branch.2.1] at hphi
      cases hphi
  case used =>
    intro j hj hphi u hu
    obtain ⟨k, i, hmem, hi, rfl⟩ := hinstr hj
    rw [hd.isPhi_op hi] at hphi
    obtain ⟨hu, hnone⟩ := hd.mem_uses hi hu
    rcases hstrict.used i hmem hphi u hu with hbefore | ⟨i', hi', hne, hdom⟩
    · exact .inl (h.mem_listedBefore hbefore hnone)
    · obtain ⟨j', hj', hblock⟩ := hkept hi' hnone
      exact .inr ⟨j', hj', hblock ▸ hne, hblock ▸ h.dominates hp hwf hd hdom⟩
  case fed =>
    intro j hj p hpmem u hu
    obtain ⟨k, i, hmem, hi, rfl⟩ := hinstr hj
    obtain ⟨q, hq, rfl⟩ := hd.mem_phiInputs hi hpmem
    obtain ⟨hvalue, hnone⟩ := Folding.operand_eq_value.mp hu
    obtain ⟨i', hi', hdom⟩ := hstrict.fed i hmem q hq u hvalue
    obtain ⟨j', hj', hblock⟩ := hkept hi' hnone
    exact ⟨j', hj', hblock ▸ h.dominates hp hwf hd hdom⟩

/-- What a folding leaves of a regular function is regular. -/
theorem Folded.regular (h : Folded f d g) (hf : f.Regular) (hd : d.Justified f r) : g.Regular where
  consistent := h.consistent
  wellFormed := h.wellFormed hf.consistent.placed hf.wellFormed hd
  strict := h.strict hf.consistent.placed hf.wellFormed hd hf.strict
  preds {a b} hb hedge := by
    rw [h.preds]
    exact hf.preds (h.blockCount ▸ hb) (h.succs_subset hf.consistent.placed hf.wellFormed hd hedge)
  entry j hj := by
    obtain ⟨hlive, hblock⟩ := h.consistent.placed.mem_blockInstrs.mp hj
    obtain ⟨-, i, hi, heq⟩ := h.instr_eq_some.mp hlive
    have hid : i.id = j.id := hf.consistent.placed.slot hi
    rw [heq] at hblock
    rw [heq, show ({ i with op := d.op j.id i.op } : Instr).op = d.op j.id i.op from rfl,
      hd.isPhi_op hi]
    exact hf.entry i (hf.consistent.placed.mem_blockInstrs.mpr ⟨hid ▸ hi, hblock⟩)

end Form

end ConstFlow
