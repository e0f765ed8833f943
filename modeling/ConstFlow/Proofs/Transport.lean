import ConstFlow.Proofs.FoldedForm
import ConstFlow.Proofs.Meaning

/-!
# Solutions before and after a folding

The pass may be run again on the function that it left. The second analysis works on another graph
and in another order, and it must not find out more than the first one did. Solutions are therefore
carried over between a function and what a folding leaves of it.

* `Folding.Matches.evaluate` : an instruction yields the same before and after, under facts that say
  the same;
* `Folded.solves` : the result of the first analysis, read on the folded function, solves its
  equations, so the second analysis stays below it;
* `Again.solves_back` : the result of the second, completed by what was folded, solves the equations
  of the first function, so the first analysis is below that;
* `Again.agree` : hence both agree.
-/

namespace ConstFlow

/-! ## Facts before and after a folding -/

section Facts
variable {f : Func} {r : Solution} {d : Folding} {m m' : FactMap} {x : Visits} {k u : InstrId}
  {i : Instr}

/-- The facts of `m`, with others in some places. -/
def FactMap.amend (m : FactMap) (h : InstrId → Option Fact) : FactMap :=
  { m with facts := m.facts.mapIdx fun id v => (h id).getD v }

theorem FactMap.get?_amend (m : FactMap) (h : InstrId → Option Fact) (id : InstrId) :
    (m.amend h).get? id = (m.get? id).map fun v => (h id).getD v := by
  unfold get?
  rw [show (m.amend h).contains id = m.contains id from rfl]
  split
  · simp [amend]
  · rfl

/-- The facts `m` for a function and `m'` for what a folding leaves of it say the same. -/
structure Folding.Matches (d : Folding) (m m' : FactMap) : Prop where
  const : ∀ {k : InstrId} {c : Int64}, d.consts k = some c → m.get? k = some (.const c)
  kept : ∀ {k : InstrId}, d.consts k = none → d.jumps k = none → m'.get? k = m.get? k

theorem Folding.Matches.resolve (h : d.Matches m m') {o : Operand}
    (ho : ∀ u, o = .value u → d.jumps u = none) : m'.resolve (d.operand o) = m.resolve o := by
  cases o with
  | const c => rfl
  | undef => rfl
  | value u =>
    cases hu : d.consts u with
    | some c =>
      rw [show d.operand (.value u) = .const c by simp only [operand, hu]]
      exact (FactMap.get_eq_ok.mpr (h.const hu)).symm
    | none =>
      rw [show d.operand (.value u) = .value u by simp only [operand, hu]]
      refine FactMap.resolve_congr fun u' heq => ?_
      cases heq
      exact h.kept hu (ho u rfl)

theorem evalPhi_map {g : Operand → Operand} {ps : List PhiInput}
    (hres : ∀ p ∈ ps, m'.resolve (g p.value) = m.resolve p.value)
    (hundef : ∀ o, (g o).isUndef = o.isUndef) (acc : Fact) :
    evalPhi m' x acc (ps.map fun p => { p with value := g p.value }) = evalPhi m x acc ps := by
  induction ps generalizing acc with
  | nil => rfl
  | cons p ps ih =>
    have ih := fun acc => ih (fun q hq => hres q (List.mem_cons_of_mem _ hq)) acc
    have hc : PhiInput.counts x { p with value := g p.value } = p.counts x := by
      rw [PhiInput.counts, PhiInput.counts, hundef]
    rw [List.map_cons, evalPhi, evalPhi, hc, hres p List.mem_cons_self]
    simp only [ih]

/-- Operands that resolve to the same facts yield the same. -/
theorem evaluate_mapOperands {g : Operand → Operand}
    (hres : ∀ o ∈ i.op.operands, m'.resolve (g o) = m.resolve o)
    (hundef : ∀ o, (g o).isUndef = o.isUndef) :
    evaluate m' x { i with op := i.op.mapOperands g } = evaluate m x i := by
  unfold evaluate
  dsimp only
  revert hres
  cases i.op with
  | jump target => exact fun _ => rfl
  | ret value => exact fun _ => rfl
  | uninterpreted name args => exact fun _ => rfl
  | branch cond onTrue onFalse =>
    intro hres
    simp only [Op.mapOperands, hres cond List.mem_cons_self]
  | compare p left right =>
    intro hres
    simp only [Op.mapOperands, evalBinary, hres left (by simp [Op.operands]),
      hres right (by simp [Op.operands])]
  | add left right =>
    intro hres
    simp only [Op.mapOperands, evalBinary, hres left (by simp [Op.operands]),
      hres right (by simp [Op.operands])]
  | sub left right =>
    intro hres
    simp only [Op.mapOperands, evalBinary, hres left (by simp [Op.operands]),
      hres right (by simp [Op.operands])]
  | phi inputs =>
    intro hres
    simp only [Op.mapOperands]
    rw [evalPhi_map (fun p hp => hres p.value (List.mem_map_of_mem hp)) hundef]

/-- A value that is read is no branch. -/
theorem Folding.Justified.jumps_use (hd : d.Justified f r) (hwf : f.WellFormed)
    (hi : f.instr? k = some i) (hu : u ∈ i.op.uses) : d.jumps u = none := by
  obtain ⟨j, hj, hterm⟩ := (hwf.fits hi).use u hu
  rcases hd.op_cases hj with ⟨hnone, -⟩ | ⟨target, -, hdecides, -⟩
  · exact hnone
  · rw [hdecides.branch.1] at hterm
    cases hterm

theorem Folding.Matches.evaluate (h : d.Matches m m') (hd : d.Justified f r) (hwf : f.WellFormed)
    (hi : f.instr? k = some i) (hop : d.op k i.op = i.op.mapOperands d.operand) :
    ConstFlow.evaluate m' x { i with op := d.op k i.op } = ConstFlow.evaluate m x i := by
  rw [hop]
  refine evaluate_mapOperands (fun o ho => h.resolve fun u heq => ?_) fun _ => isUndef_operand
  exact hd.jumps_use hwf hi (Op.mem_uses.mpr (heq ▸ ho))

/-- A branch whose condition has the fact that decides it takes the decided edge alone. -/
theorem evaluate_decided {cond : Operand} {onTrue onFalse target : BlockId} {c : Int64}
    (hop : i.op = .branch cond onTrue onFalse) (hc : m.resolve cond = .ok (.const c))
    (htarget : c = 1 ∧ target = onTrue ∨ c = 0 ∧ target = onFalse) :
    ConstFlow.evaluate m x i = .ok ⟨.const c, [target]⟩ := by
  rcases htarget with ⟨rfl, rfl⟩ | ⟨rfl, rfl⟩
  · simp only [ConstFlow.evaluate, hop, hc, branchTargets, if_pos, Except.map]
  · simp only [ConstFlow.evaluate, hop, hc, branchTargets, if_pos, Except.map]
    rfl

end Facts

/-! ## Solutions before and after a folding -/

/-- The facts of what a folding leaves: those of the function, and nothing definite of a jump. -/
def Folding.facts (d : Folding) (m : FactMap) : FactMap :=
  m.amend fun k => (d.jumps k).map fun _ => .overdefined

/-- The facts `m'` of what a folding leaves, completed by those of the function for everything that
the folding changed. -/
def Folding.complete (d : Folding) (m m' : FactMap) : FactMap :=
  m.amend fun k => if d.consts k = none ∧ d.jumps k = none then m'.get? k else none

section Solutions
variable {f g : Func} {d : Folding} {s s' : State} {name : String} {m : FactMap} {k u : InstrId}
  {i : Instr}

theorem Folding.get?_facts (hk : d.jumps k = none) : (d.facts m).get? k = m.get? k := by
  rw [facts, FactMap.get?_amend, hk]
  exact Option.map_id'

theorem Folding.matches_facts (hd : d.Justified f (s.solution name)) :
    d.Matches s.facts (d.facts s.facts) where
  const hk := by
    obtain ⟨-, -, -, hconst⟩ := hd.const hk
    exact State.const?_solution.mp hconst
  kept _ hjump := Folding.get?_facts hjump

/-- A decided branch allows the edge that it is decided for. -/
theorem Solution.Decides.mem_targets {target : BlockId} {x : Visits} {y : Yield}
    (h : (s.solution name).Decides i target) (hy : evaluate s.facts x i = .ok y) :
    target ∈ y.targets := by
  obtain ⟨cond, onTrue, onFalse, hbranch, hconst⟩ := h
  simp only [State.operandConst?_solution] at hconst
  rcases hconst with ⟨hone, rfl⟩ | ⟨hzero, rfl⟩
  · cases (evaluate_decided hbranch hone (.inl ⟨rfl, rfl⟩)).symm.trans hy
    exact List.mem_cons_self
  · cases (evaluate_decided hbranch hzero (.inr ⟨rfl, rfl⟩)).symm.trans hy
    exact List.mem_cons_self

/-- The result of the first analysis solves the equations of the folded function. -/
theorem Folded.solves (hg : Folded f d g) (hp : f.Placed) (hwf : f.WellFormed)
    (hd : d.Justified f (s.solution name)) (hsolves : Solves f s.facts s.visits) :
    Solves g (d.facts s.facts) s.visits where
  covers j hj := by
    obtain ⟨k, hk⟩ := Func.mem_instrs.mp hj
    obtain ⟨-, i, hi, rfl⟩ := hg.instr_eq_some.mp hk
    obtain ⟨v, hv⟩ := hsolves.covers i (Func.mem_instrs.mpr ⟨k, hi⟩)
    exact ⟨_, by rw [Folding.facts, FactMap.get?_amend, hv, Option.map_some]⟩
  entry := hsolves.entry
  closed b hb j hj := by
    obtain ⟨hlive, rfl⟩ := hg.consistent.placed.mem_blockInstrs.mp hj
    obtain ⟨-, i, hi, heq⟩ := hg.instr_eq_some.mp hlive
    have hid : i.id = j.id := hp.slot hi
    generalize j.id = k at hi heq hid
    subst heq hid
    obtain ⟨y, v, hy, hv, hle, htargets⟩ :=
      hsolves.closed i.block hb i (hp.mem_blockInstrs.mpr ⟨hi, rfl⟩)
    rcases hd.op_cases hi with ⟨hjump, hop⟩ | ⟨target, hjump, hdecides, hop⟩
    · refine ⟨y, v, ?_, ?_, hle, htargets⟩
      · rw [(Folding.matches_facts hd).evaluate hd hwf hi hop, hy]
      · exact (Folding.get?_facts hjump).trans hv
    · have hmem := hdecides.mem_targets hy
      refine ⟨⟨.overdefined, [target]⟩, .overdefined, ?_, ?_, le_rfl, ?_⟩
      · simp only [evaluate, hop]
      · show (d.facts s.facts).get? i.id = _
        rw [Folding.facts, FactMap.get?_amend, hv, hjump]
        rfl
      · intro t ht
        rw [List.mem_singleton.mp ht]
        exact htargets target hmem

theorem Folding.get?_complete_kept {m' : FactMap} (hsome : (m.get? k).isSome = (m'.get? k).isSome)
    (hconst : d.consts k = none) (hjump : d.jumps k = none) :
    (d.complete m m').get? k = m'.get? k := by
  rw [complete, FactMap.get?_amend, if_pos ⟨hconst, hjump⟩]
  cases hv : m'.get? k with
  | none =>
    rw [hv, Option.isSome_none, Option.isSome_eq_false_iff, Option.isNone_iff_eq_none] at hsome
    rw [hsome, Option.map_none]
  | some v' =>
    rw [hv, Option.isSome_some] at hsome
    obtain ⟨v, hv⟩ := Option.isSome_iff_exists.mp hsome
    rw [hv]
    rfl

theorem Folding.get?_complete_changed {m' : FactMap}
    (h : ¬ (d.consts k = none ∧ d.jumps k = none)) : (d.complete m m').get? k = m.get? k := by
  rw [complete, FactMap.get?_amend, if_neg h]
  exact Option.map_id'

/-- The definition of a value that is read outside a phi is on every way to the reader. -/
theorem Func.Strict.use_dominates (hstrict : f.Strict) (hp : f.Placed) (hi : f.instr? k = some i)
    (hphi : i.op.isPhi = false) (hu : u ∈ i.op.uses) :
    ∃ j, f.instr? u = some j ∧ f.Dominates j.block i.block := by
  rcases hstrict.used i (Func.mem_instrs.mpr ⟨k, hi⟩) hphi u hu with hbefore | ⟨j, hj, -, hdom⟩
  · obtain ⟨blk, hblk, -⟩ := hp.listed hi
    rw [Func.listedBefore, hblk] at hbefore
    obtain ⟨j, hj, hown⟩ := (hp.mem hblk u).mp (List.takeWhile_subset _ hbefore)
    exact ⟨j, hj, fun way _ => hown ▸ List.mem_cons_self⟩
  · exact ⟨j, hj, hdom⟩

/-- The ends of two analyses: of a regular function, and of what a folding by its result leaves. -/
structure Again (f g : Func) (d : Folding) (s s' : State) : Prop where
  regular : f.Regular
  folded : Folded f d g
  justified : d.Justified f (s.solution f.name)
  tidy : s.Tidy f
  tidy' : s'.Tidy g
  solves : Solves f s.facts s.visits
  solves' : Solves g s'.facts s'.visits
  paced' : Paced g s' []
  least : ∀ {m : FactMap} {x : Visits}, Solves f m x → Below m x s
  below : Below (d.facts s.facts) s.visits s'

namespace Again

theorem isSome (h : Again f g d s s') (hconst : d.consts k = none) :
    (s.facts.get? k).isSome = (s'.facts.get? k).isSome := by
  rw [h.tidy.live, h.tidy'.live, h.folded.instr, if_pos hconst, Option.isSome_map]

theorem get?_kept (h : Again f g d s s') (hconst : d.consts k = none) (hjump : d.jumps k = none) :
    (d.complete s.facts s'.facts).get? k = s'.facts.get? k :=
  Folding.get?_complete_kept (h.isSome hconst) hconst hjump

theorem complete_matches (h : Again f g d s s') :
    d.Matches (d.complete s.facts s'.facts) s'.facts where
  const {k c} hk := by
    obtain ⟨-, -, -, hconst⟩ := h.justified.const hk
    rw [Folding.get?_complete_changed fun hnone => by cases hk.symm.trans hnone.1]
    exact State.const?_solution.mp hconst
  kept hconst hjump := (h.get?_kept hconst hjump).symm

theorem complete_le (h : Again f g d s s') : d.complete s.facts s'.facts ≤ s.facts := by
  intro k v hv
  by_cases hk : d.consts k = none ∧ d.jumps k = none
  · rw [h.get?_kept hk.1 hk.2] at hv
    obtain ⟨v', hv', hle⟩ := FactMap.le_get h.below.facts hv
    rw [Folding.get?_facts hk.2] at hv'
    exact ⟨v', hv', hle⟩
  · rw [Folding.get?_complete_changed hk] at hv
    exact ⟨v, hv, le_rfl⟩

theorem exists_complete (h : Again f g d s s') (hi : f.instr? k = some i) :
    ∃ v, (d.complete s.facts s'.facts).get? k = some v := by
  obtain ⟨v, hv⟩ := h.tidy.fact hi
  exact ⟨_, by rw [Folding.complete, FactMap.get?_amend, hv, Option.map_some]⟩

/-- Something is known of what a branch read that was folded, though nothing reads it any more. -/
theorem knows (h : Again f g d s s') (hi : f.instr? k = some i) (hphi : i.op.isPhi = false)
    (hu : u ∈ i.op.uses) (hconst : d.consts u = none)
    (hreached : s'.visits.reached i.block = true) : s'.Knows u := by
  have hp := h.regular.consistent.placed
  obtain ⟨j, hj, hdom⟩ := h.regular.strict.use_dominates hp hi hphi hu
  have hj' := h.folded.instr_kept hj hconst
  have hdom' := h.folded.dominates hp h.regular.wellFormed h.justified hdom
  exact (h.paced'.known_nil hj' (h.paced'.reached_of_dominates hdom' hreached)).resolve_left
    List.not_mem_nil

/-- A condition that decided a branch for the first analysis still does. -/
theorem condition (h : Again f g d s s') (hi : f.instr? k = some i) {cond : Operand}
    {onTrue onFalse : BlockId} (hop : i.op = .branch cond onTrue onFalse) {c : Int64}
    (hc : s.facts.resolve cond = .ok (.const c)) (hreached : s'.visits.reached i.block = true) :
    (d.complete s.facts s'.facts).resolve cond = .ok (.const c) := by
  cases cond with
  | const c' => exact hc
  | undef => cases hc
  | value u =>
    have hu : u ∈ i.op.uses := by
      rw [Op.mem_uses, hop]
      exact List.mem_cons_self
    have hfact := FactMap.get_eq_ok.mp hc
    refine FactMap.get_eq_ok.mpr ?_
    cases hconst : d.consts u with
    | some c' =>
      rw [Folding.get?_complete_changed fun hnone => by cases hconst.symm.trans hnone.1]
      exact hfact
    | none =>
      have hjump := h.justified.jumps_use h.regular.wellFormed hi hu
      obtain ⟨v, hv, hne⟩ := h.knows hi (by rw [hop]; rfl) hu hconst hreached
      obtain ⟨v', hv', hle⟩ := FactMap.le_get h.below.facts hv
      rw [Folding.get?_facts hjump, hfact, Option.some.injEq] at hv'
      subst hv'
      rw [h.get?_kept hconst hjump, hv]
      -- known, and at most the constant
      rw [Fact.eq_of_known_le hle hne Fact.noConfusion]

/-- The result of the second analysis, completed by what was folded, solves the equations of the
first function. -/
theorem solves_back (h : Again f g d s s') :
    Solves f (d.complete s.facts s'.facts) s'.visits where
  covers i hi := by
    obtain ⟨k, hk⟩ := Func.mem_instrs.mp hi
    exact h.exists_complete (h.regular.consistent.placed.slot hk ▸ hk)
  entry := h.solves'.entry
  closed b hb i hi := by
    have hp := h.regular.consistent.placed
    have hwf := h.regular.wellFormed
    obtain ⟨hlive, rfl⟩ := hp.mem_blockInstrs.mp hi
    obtain ⟨y, v, hy, hv, hle, -⟩ := h.solves.closed i.block (h.below.visits _ hb) i hi
    cases hconst : d.consts i.id with
    | some c =>
      -- a value that was folded: evaluated under lower facts it gives at most its constant
      obtain ⟨j, hj, hfold, -⟩ := h.justified.const hconst
      obtain rfl : j = i := Option.some.inj (hj.symm.trans hlive)
      have hbranch : ∀ cond onTrue onFalse, j.op ≠ .branch cond onTrue onFalse := by
        intro cond onTrue onFalse hop
        rw [hop] at hfold
        cases hfold
      cases hz : evaluate (d.complete s.facts s'.facts) s'.visits j with
      | error e =>
        have huses : ∀ u ∈ j.op.uses, ∃ v, (d.complete s.facts s'.facts).get? u = some v := by
          intro u hu
          obtain ⟨j', hj', -⟩ := (hwf.fits hlive).use u hu
          exact h.exists_complete hj'
        obtain ⟨cond, onTrue, onFalse, -, hop, -⟩ := evaluate_fails huses hz
        exact absurd hop (hbranch cond onTrue onFalse)
      | ok z =>
        refine ⟨z, v, rfl, ?_, ?_, fun t ht => ?_⟩
        · rw [Folding.get?_complete_changed fun hnone => by cases hconst.symm.trans hnone.1]
          exact hv
        · exact (evaluate_mono h.complete_le h.below.visits hz hy).trans hle
        · have hterm := Op.isTerminator_of_mem_successors (mem_successors_of_mem_targets hz ht)
          cases hconst.symm.trans (h.justified.consts_terminator hlive hterm)
    | none =>
      have hj := h.folded.instr_kept hlive hconst
      obtain ⟨z, v', hz, hv', hle', htargets'⟩ := h.solves'.closed i.block hb
        { i with op := d.op i.id i.op } (h.folded.consistent.placed.mem_blockInstrs.mpr ⟨hj, rfl⟩)
      rcases h.justified.op_cases hlive with ⟨hjump, hop⟩ | ⟨target, hjump, hdecides, hop⟩
      · refine ⟨z, v', ?_, (h.get?_kept hconst hjump).trans hv', hle', htargets'⟩
        rw [← hz, h.complete_matches.evaluate h.justified hwf hlive hop]
      · -- a branch that was folded: its condition still decides it, and the jump goes the same way
        obtain ⟨cond, onTrue, onFalse, hbranch, htarget⟩ := hdecides
        simp only [State.operandConst?_solution] at htarget
        obtain ⟨c, hc, hcase⟩ : ∃ c, s.facts.resolve cond = .ok (.const c) ∧
            (c = 1 ∧ target = onTrue ∨ c = 0 ∧ target = onFalse) := by
          rcases htarget with ⟨hone, htrue⟩ | ⟨hzero, hfalse⟩
          · exact ⟨1, hone, .inl ⟨rfl, htrue⟩⟩
          · exact ⟨0, hzero, .inr ⟨rfl, hfalse⟩⟩
        cases (evaluate_decided hbranch hc hcase).symm.trans hy
        refine ⟨⟨.const c, [target]⟩, v,
          evaluate_decided hbranch (h.condition hlive hbranch hc hb) hcase, ?_, hle, ?_⟩
        · rw [Folding.get?_complete_changed fun hnone => by cases hjump.symm.trans hnone.2]
          exact hv
        · simp only [evaluate, hop, Except.ok.injEq] at hz
          subst hz
          exact htargets'

/-- Both analyses reach the same blocks and know the same of what the folding left. -/
theorem agree (h : Again f g d s s') :
    (∀ b, s'.visits.reached b = s.visits.reached b) ∧ d.Matches s.facts s'.facts := by
  have hback := h.least h.solves_back
  refine ⟨fun b => Bool.eq_iff_iff.mpr ⟨h.below.visits b, hback.visits b⟩,
    (Folding.matches_facts h.justified).const, fun {k} hconst hjump => ?_⟩
  refine FactMap.get?_eq_of_le (h.isSome hconst).symm fun v' v hv' hv => ?_
  obtain ⟨w, hw, hle⟩ := FactMap.le_get h.below.facts hv'
  rw [Folding.get?_facts hjump, hv, Option.some.injEq] at hw
  obtain ⟨w', hw', hle'⟩ := FactMap.le_get hback.facts hv
  rw [h.get?_kept hconst hjump, hv', Option.some.injEq] at hw'
  subst hw hw'
  exact ⟨hle, hle'⟩

end Again

end Solutions

end ConstFlow
