import ConstFlow.Proofs.Edits
import ConstFlow.Proofs.Failure
import ConstFlow.Proofs.Least

/-!
# Comparing runs with solutions

On a regular function every run, in whatever order it takes its tasks, stays below every solution of
the equations (`Stage.below_solution`). Three things follow.

* Two runs that come to rest agree (`Below.agree`).
* Where a run fails, every solution reaches the block and has an overdefined condition there
  (`Func.Regular.solve_fails`): the constant that the run saw is not the last word on the condition.
* A run that comes to rest is itself a solution (`AtRest.solves`), provided that the phi entries
  belong to edges that still exist.
-/

namespace ConstFlow

/-- A consistent and well-formed function that is strict, stores a predecessor for every edge and
has no phi in its entry block. -/
structure Func.Regular (f : Func) : Prop where
  consistent : f.Consistent
  wellFormed : f.WellFormed
  strict : f.Strict
  preds : ∀ {a b : BlockId}, b < f.blockCount → b ∈ f.succs a → a ∈ f.preds b
  entry : ∀ i ∈ f.blockInstrs Func.entry, i.op.isPhi = false

theorem Func.regular_ofScript {name : String} {script : List Stmt}
    (hvalid : (ofScript name script).validate = .ok ()) (hstrict : (ofScript name script).Strict)
    (hentry : ∀ i ∈ (ofScript name script).blockInstrs entry, i.op.isPhi = false) :
    (ofScript name script).Regular where
  consistent := consistent_ofScript name script
  wellFormed := .of_validate (placed_ofScript name script) hvalid
  strict := hstrict
  preds hb hedge := mem_preds_ofScript.mpr ⟨hb, hedge⟩
  entry := hentry

section Stages
variable {due due' : State → Task → Prop} {f : Func} {history : Bool} {m : FactMap} {x : Visits}
  {s₀ s s' : State} {todo : List InstrId}

theorem Stage.below_solution (hf : f.Regular) (hsolves : Solves f m x)
    (hstart : State.start f history = .ok s₀) (h : Stage due f s₀ s todo) :
    Paced f s todo ∧ Below m x s := by
  have hp := hf.consistent.placed
  obtain ⟨hinit, ht⟩ := State.initial_start hp hstart
  exact h.invariant hp (below_kept hp hf.wellFormed hf.strict hf.preds hf.entry hsolves) ht
    ⟨paced_initial hinit, below_initial hp hsolves hinit⟩

/-- Where nothing waits a run has come to rest, in whatever order it took its tasks. -/
theorem Stage.atRest (hf : f.Consistent) (hstart : State.start f history = .ok s₀)
    (h : Stage due f s₀ s []) (hblocks : s.blocks.pending = []) (hinstrs : s.instrs.pending = []) :
    s.Tidy f ∧ AtRest f s := by
  obtain ⟨hinit, ht⟩ := State.initial_start hf.placed hstart
  have hsettling := h.invariant hf.placed (settling_kept hf.placed hf.indexed) ht
    (settling_initial hinit)
  exact ⟨h.tidy hf.placed ht, hsettling.atRest hf.placed hblocks hinstrs⟩

/-- A state at rest solves the equations, if no phi of a reached block is evaluated to more than its
fact. -/
theorem AtRest.solves_of_le (h : AtRest f s) (hp : f.Placed) (hwf : f.WellFormed) (ht : s.Tidy f)
    (hphis : ∀ {i y v}, f.instr? i.id = some i → s.visits.reached i.block = true →
      i.op.isPhi = true → evaluate s.facts s.visits i = .ok y → s.facts.get? i.id = some v →
      y.fact ≤ v) : Solves f s.facts s.visits where
  covers i hi := by
    obtain ⟨id, hid⟩ := Func.mem_instrs.mp hi
    exact ht.fact (hp.slot hid ▸ hid)
  entry := h.entry
  closed b hb i hi := by
    obtain ⟨hlive, rfl⟩ := hp.mem_blockInstrs.mp hi
    cases hphi : i.op.isPhi with
    | false =>
      have hnone : i.op.phiInputs = [] := by
        revert hphi
        cases i.op <;> simp [Op.isPhi, Op.phiInputs]
      obtain ⟨y, hy, hfact, htargets⟩ :=
        h.exact_of_edges (fun _ => rfl) hlive (by simp [hnone]) hb
      exact ⟨y, y.fact, hy, hfact, le_rfl, htargets⟩
    | true =>
      obtain ⟨v, hv⟩ := ht.fact hlive
      cases hy : evaluate s.facts s.visits i with
      | error e =>
        have huses : ∀ d ∈ i.op.uses, ∃ v, s.facts.get? d = some v := by
          intro d hd
          obtain ⟨j, hj, -⟩ := (hwf.fits hlive).use d hd
          exact ht.fact hj
        obtain ⟨cond, onTrue, onFalse, -, hop, -⟩ := evaluate_fails huses hy
        rw [hop] at hphi
        cases hphi
      | ok y =>
        refine ⟨y, v, rfl, hv, hphis hlive hb hphi hy hv, fun t htarget => ?_⟩
        have hterm := Op.isTerminator_of_mem_successors (mem_successors_of_mem_targets hy htarget)
        revert hphi hterm
        cases i.op <;> simp [Op.isPhi, Op.isTerminator]

theorem AtRest.solves (h : AtRest f s) (hp : f.Placed) (hwf : f.WellFormed) (ht : s.Tidy f)
    (hedges : ∀ i ∈ f.instrs, ∀ p ∈ i.op.phiInputs, i.block ∈ f.succs p.pred) :
    Solves f s.facts s.visits := by
  refine h.solves_of_le hp hwf ht fun {i y v} hi hreached _ hy hv => ?_
  obtain ⟨z, hz, hfact, -⟩ :=
    h.exact (fun _ => rfl) hi (hedges i (Func.mem_instrs.mpr ⟨_, hi⟩)) hreached
  cases hy.symm.trans hz
  cases hv.symm.trans hfact
  exact le_rfl

/-- Two runs, each below what the other came to, agree. -/
theorem Below.agree (ht : s.Tidy f) (ht' : s'.Tidy f) (h : Below s'.facts s'.visits s)
    (h' : Below s.facts s.visits s') :
    (∀ b, s.visits.reached b = s'.visits.reached b) ∧
      ∀ id, s.facts.get? id = s'.facts.get? id := by
  refine ⟨fun b => Bool.eq_iff_iff.mpr ⟨h.visits b, h'.visits b⟩, fun id => ?_⟩
  refine FactMap.get?_eq_of_le (by rw [ht.live, ht'.live]) fun v v' hv hv' => ?_
  obtain ⟨w', hw', hle⟩ := FactMap.le_get h.facts hv
  obtain ⟨w, hw, hle'⟩ := FactMap.le_get h'.facts hv'
  obtain rfl : w' = v' := Option.some.inj (hw'.symm.trans hv')
  obtain rfl : w = v := Option.some.inj (hw.symm.trans hv)
  exact ⟨hle, hle'⟩

/-- The end of an analysis that succeeds. -/
theorem Func.Regular.solve_ok (hf : f.Regular) {r : Solution} (h : f.solve history = .ok r) :
    ∃ s : State, r = s.solution f.name ∧ s.Tidy f ∧ AtRest f s ∧ Paced f s [] ∧
      ∀ {m : FactMap} {x : Visits}, Solves f m x → Below m x s := by
  have hp := hf.consistent.placed
  obtain ⟨s₀, s, hstart, hstage, hblocks, hinstrs, rfl⟩ := solve_stage hp h
  obtain ⟨hinit, ht⟩ := State.initial_start hp hstart
  obtain ⟨htidy, hrest⟩ := hstage.atRest hf.consistent hstart hblocks hinstrs
  refine ⟨s, rfl, htidy, hrest, ?_, fun hsolves => (hstage.below_solution hf hsolves hstart).2⟩
  exact hstage.invariant hp (paced_kept hp hf.wellFormed hf.strict hf.preds hf.entry) ht
    (paced_initial hinit)

/-- Where the analysis fails, every solution has an overdefined condition. -/
theorem Func.Regular.solve_fails (hf : f.Regular) (hsolves : Solves f m x) {e : Error}
    (he : f.solve history = .error e) :
    ∃ i cond onTrue onFalse c, f.instr? i.id = some i ∧ i.op = .branch cond onTrue onFalse ∧
      c ≠ 0 ∧ c ≠ 1 ∧ e = .invalidCondition i.block c ∧ x.reached i.block = true ∧
      m.resolve cond = .ok .overdefined := by
  have hp := hf.consistent.placed
  obtain ⟨s₀, s, i, todo, cond, onTrue, onFalse, c, hstart, hstage, hi, hop, hcond, hzero, hone,
    rfl⟩ := ConstFlow.solve_fails hp hf.consistent.indexed hf.wellFormed he
  obtain ⟨hpaced, hbelow⟩ := hstage.below_solution hf hsolves hstart
  have hreached := hbelow.visits _ (hpaced.reached_next hi)
  refine ⟨i, cond, onTrue, onFalse, c, hi, hop, hzero, hone, rfl, hreached, ?_⟩
  obtain ⟨v, hv, hle⟩ := FactMap.resolve_mono hbelow.facts hcond
  cases v with
  | unknown => exact absurd (Fact.le_unknown.mp hle) Fact.noConfusion
  | overdefined => exact hv
  | const c' =>
    -- a solution evaluates the branch, so its constant is not the one that failed
    obtain rfl := Fact.const_le_const.mp hle
    obtain ⟨y, -, hy, -⟩ :=
      hsolves.closed i.block hreached i (hp.mem_blockInstrs.mpr ⟨hi, rfl⟩)
    cases (evaluate_invalid hop hv hzero hone).symm.trans hy

end Stages

end ConstFlow
