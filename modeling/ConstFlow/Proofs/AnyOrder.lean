import ConstFlow.Proofs.Comparison
import ConstFlow.Proofs.Reachability

/-!
# Taking the tasks in another order

The analysis takes its tasks in the order of two queues. `runOrder` takes them in any order: each
task of a list must wait when its turn comes, and is then performed as always. The order of the
queues is one of these (`runTasks_order`).

Where some order comes to an end, the order of the queues does, or it fails at a branch
(`solve_of_order`). The failure is one of passage: on a strict function the other run reached the
same branch and found its condition overdefined. When both come to an end they agree.

`transientPhi_fails` is a strict function on which the queues fail and another order does not. A phi
is visited when only the first of its two predecessors is reached, and is two for that moment.
-/

namespace ConstFlow

/-- Performs a waiting task, whatever its place in its list. -/
def State.advance? (f : Func) (s : State) (t : Task) : Option State :=
  match s.take? t with
  | none => none
  | some s₁ =>
    match perform f t s₁ with
    | .ok _ s₂ => some s₂
    | .error _ _ => none

/-- Performs the tasks of a list one after another. -/
def runOrder (f : Func) (order : List Task) (s : State) : Option State :=
  order.foldlM (State.advance? f) s

section Orders
variable {due : State → Task → Prop} {f : Func} {s₀ s s' : State}

theorem Stage.advance (hp : f.Placed) (ht : s₀.Tidy f) (h : Stage due f s₀ s []) {t : Task}
    (hdue : due s t) (hs' : s.advance? f t = some s') : Stage due f s₀ s' [] := by
  unfold State.advance? at hs'
  cases htake : s.take? t with
  | none => simp [htake] at hs'
  | some s₁ =>
    rcases h.perform hp ht hdue htake with ⟨s₂, hok, hstage⟩ | ⟨e, s₂, id, todo, herr, -⟩
    · simp only [htake, hok, Option.some.injEq] at hs'
      exact hs' ▸ hstage
    · simp [htake, herr] at hs'

theorem Stage.runOrder (hp : f.Placed) (ht : s₀.Tidy f) (order : List Task) :
    ∀ {s : State}, Stage (fun _ _ => True) f s₀ s [] → ConstFlow.runOrder f order s = some s' →
      Stage (fun _ _ => True) f s₀ s' [] := by
  induction order with
  | nil =>
    intro s h hrun
    exact Option.some.inj hrun ▸ h
  | cons t order ih =>
    intro s h hrun
    obtain ⟨s₁, hs₁, hrun⟩ := Option.bind_eq_some_iff.mp hrun
    exact ih (h.advance hp ht trivial hs₁) hrun

/-- The order of the queues is one of the orders. -/
theorem runTasks_order (hp : f.Placed) (ht : s.Tidy f) {u : Unit}
    (h : runTasks f s = .ok u s') : ∃ order, runOrder f order s = some s' := by
  induction s using runTasks.induct f with
  | case1 s e hn => rw [runTasks_eq, hn] at h; cases h
  | case2 s hn =>
    rw [runTasks_eq, hn] at h
    cases h
    exact ⟨[], rfl⟩
  | case3 s t s₁ hn e s₂ hperform =>
    rw [runTasks_eq, hn] at h
    simp only [hperform] at h
    cases h
  | case4 s t s₁ hn u s₂ hperform ih =>
    rw [runTasks_eq, hn] at h
    simp only [hperform] at h
    have hadvance : s.advance? f t = some s₂ := by
      simp only [State.advance?, ht.take?_of_next? hn, hperform]
    have hstage : Stage (fun _ _ => True) f s s₂ [] := Stage.start.advance hp ht trivial hadvance
    obtain ⟨order, horder⟩ := ih (hstage.tidy hp ht) h
    exact ⟨t :: order, Option.bind_eq_some_iff.mpr ⟨s₂, hadvance, horder⟩⟩

end Orders

/-- Where the tasks of a valid function can be taken in some order until nothing waits, the analysis
has a result, or it fails at a branch whose condition was a constant other than zero and one for the
moment. On a strict function whose entry block has no phi the result agrees with the other run, and
at a failure the other run has reached the branch and has an overdefined condition. -/
theorem solve_of_order (name : String) (script : List Stmt) (history : Bool) (order : List Task)
    (s₀ s : State) (hvalid : (Func.ofScript name script).validate = .ok ())
    (hstart : State.start (Func.ofScript name script) history = .ok s₀)
    (hrun : runOrder (Func.ofScript name script) order s₀ = some s)
    (hblocks : s.blocks.pending = []) (hinstrs : s.instrs.pending = []) :
    (∃ r, (Func.ofScript name script).solve history = .ok r ∧
      ((Func.ofScript name script).Strict →
        (∀ j ∈ (Func.ofScript name script).blockInstrs Func.entry, j.op.isPhi = false) →
        (∀ b, r.reached b = s.visits.reached b) ∧ ∀ id, r.fact? id = s.facts.get? id)) ∨
    ∃ b i cond onTrue onFalse c,
      (Func.ofScript name script).solve history = .error (.invalidCondition b c) ∧
      (Func.ofScript name script).terminator? b = some i ∧ i.op = .branch cond onTrue onFalse ∧
      c ≠ 0 ∧ c ≠ 1 ∧
      ¬ (s.visits.reached b = true ∧ s.facts.resolve cond = .ok (.const c)) ∧
      ((Func.ofScript name script).Strict →
        (∀ j ∈ (Func.ofScript name script).blockInstrs Func.entry, j.op.isPhi = false) →
        s.visits.reached b = true ∧ s.facts.resolve cond = .ok .overdefined) := by
  have hf := Func.consistent_ofScript name script
  have hp := hf.placed
  have hwf := Func.WellFormed.of_validate hp hvalid
  have hedges : ∀ i ∈ (Func.ofScript name script).instrs, ∀ p ∈ i.op.phiInputs,
      i.block ∈ (Func.ofScript name script).succs p.pred := by
    intro i hi p hphi
    obtain ⟨id, hid⟩ := Func.mem_instrs.mp hi
    exact (Func.mem_preds_ofScript.mp ((hwf.fits hid).pred p hphi)).2
  have hstage := Stage.runOrder hp (State.initial_start hp hstart).2 order .start hrun
  obtain ⟨ht, hrest⟩ := hstage.atRest hf hstart hblocks hinstrs
  have hsolves := hrest.solves hp hwf ht hedges
  cases hsolve : (Func.ofScript name script).solve history with
  | ok r =>
    refine .inl ⟨r, rfl, fun hstrict hentry => ?_⟩
    have hregular := Func.regular_ofScript hvalid hstrict hentry
    obtain ⟨s₁, s', hstart', hstage', hblocks', hinstrs', rfl⟩ := solve_stage hp hsolve
    obtain ⟨ht', hrest'⟩ := hstage'.atRest hf hstart' hblocks' hinstrs'
    have hsolves' := hrest'.solves hp hwf ht' hedges
    simp only [State.reached_solution, State.fact?_solution]
    exact Below.agree ht' ht (hstage'.below_solution hregular hsolves hstart').2
      (hstage.below_solution hregular hsolves' hstart).2
  | error e =>
    obtain ⟨s₁, s', i, todo, cond, onTrue, onFalse, c, -, -, hi, hop, -, hzero, hone, rfl⟩ :=
      solve_fails hp hf.indexed hwf hsolve
    have hterm := hwf.terminator?_eq hp hi (by rw [hop]; rfl)
    refine .inr ⟨i.block, i, cond, onTrue, onFalse, c, rfl, hterm, hop, hzero, hone, ?_, ?_⟩
    · rintro ⟨hreached, hconst⟩
      obtain ⟨y, -, hy, -⟩ :=
        hsolves.closed i.block hreached i (hp.mem_blockInstrs.mpr ⟨hi, rfl⟩)
      cases (evaluate_invalid hop hconst hzero hone).symm.trans hy
    · intro hstrict hentry
      obtain ⟨j, cond', onTrue', onFalse', c', hj, hop', -, -, heq, hreached, hover⟩ :=
        (Func.regular_ofScript hvalid hstrict hentry).solve_fails hsolves hsolve
      -- both are the terminator of the block that the error names
      obtain ⟨hblock, rfl⟩ := Error.invalidCondition.inj heq
      have hterm' := hwf.terminator?_eq hp hj (by rw [hop']; rfl)
      obtain rfl : i = j := Option.some.inj (hterm.symm.trans (hblock ▸ hterm'))
      obtain ⟨rfl, -, -⟩ := Op.branch.inj (hop.symm.trans hop')
      exact ⟨hreached, hover⟩

/-- A branch on a phi of two constants. The way to the phi is longer from its second predecessor. -/
def transientPhi : List Stmt :=
  [.block 0 [.append (.uninterpreted "in" []), .append (.branch (.value 0) 1 2)],
   .block 1 [.append (.jump 3)], .block 2 [.append (.jump 4)],
   .block 3 [.append (.phi [⟨.const 2, 1⟩, ⟨.const 3, 4⟩]), .append (.branch (.value 4) 5 5)],
   .block 4 [.append (.jump 3)], .block 5 [.append (.ret none)]]

/-- An order in which both predecessors are reached before the phi is visited. -/
def longWayFirst : List Task :=
  [.block 0, .block 2, .block 4, .block 1, .block 3, .block 5, .instr 1, .instr 5, .block 1,
   .block 2, .block 5]

theorem transientPhi_strict : (Func.ofScript "f" transientPhi).Strict :=
  Func.StrictByEdges.strict (by decide +kernel)

theorem transientPhi_runs : ∃ s₀ s, State.start (Func.ofScript "f" transientPhi) false = .ok s₀ ∧
    runOrder (Func.ofScript "f" transientPhi) longWayFirst s₀ = some s ∧
    s.blocks.pending = [] ∧ s.instrs.pending = [] := by
  have hrun : ∃ s₀ ∈ (State.start (Func.ofScript "f" transientPhi) false).toOption,
      ∃ s ∈ runOrder (Func.ofScript "f" transientPhi) longWayFirst s₀,
        s.blocks.pending = [] ∧ s.instrs.pending = [] := by decide +kernel
  obtain ⟨s₀, hs₀, s, hs, hnil⟩ := hrun
  exact ⟨s₀, s, eq_ok_of_mem_toOption hs₀, hs, hnil⟩

theorem solve_of_order_transientPhi : ∃ s₀ s b i cond onTrue onFalse c,
    State.start (Func.ofScript "f" transientPhi) false = .ok s₀ ∧
    runOrder (Func.ofScript "f" transientPhi) longWayFirst s₀ = some s ∧
    (Func.ofScript "f" transientPhi).solve false = .error (.invalidCondition b c) ∧
    (Func.ofScript "f" transientPhi).terminator? b = some i ∧ i.op = .branch cond onTrue onFalse ∧
    c ≠ 0 ∧ c ≠ 1 ∧ s.visits.reached b = true ∧ s.facts.resolve cond = .ok .overdefined := by
  obtain ⟨s₀, s, hstart, hrun, hblocks, hinstrs⟩ := transientPhi_runs
  rcases solve_of_order "f" transientPhi false longWayFirst s₀ s (by decide +kernel) hstart hrun
    hblocks hinstrs with ⟨r, hr, -⟩ | ⟨b, i, cond, onTrue, onFalse, c, hfail, hi, hop, hzero, hone,
      -, hover⟩
  · have herror : ((Func.ofScript "f" transientPhi).solve false).isOk = false := by decide +kernel
    rw [hr] at herror
    cases herror
  · obtain ⟨hreached, hcond⟩ := hover transientPhi_strict (by decide +kernel)
    exact ⟨s₀, s, b, i, cond, onTrue, onFalse, c, hstart, hrun, hfail, hi, hop, hzero, hone,
      hreached, hcond⟩

/-- That some order comes to an end without a failure does not mean that the order of the queues
does, even on a strict function whose entry block has no phi. -/
theorem transientPhi_fails :
    ¬ ∀ (name : String) (script : List Stmt) (history : Bool) (order : List Task) (s₀ s : State),
    (Func.ofScript name script).validate = .ok () → (Func.ofScript name script).Strict →
    (∀ j ∈ (Func.ofScript name script).blockInstrs Func.entry, j.op.isPhi = false) →
    State.start (Func.ofScript name script) history = .ok s₀ →
    runOrder (Func.ofScript name script) order s₀ = some s →
    s.blocks.pending = [] → s.instrs.pending = [] →
    ∃ r, (Func.ofScript name script).solve history = .ok r := by
  intro h
  obtain ⟨s₀, s, hstart, hrun, hblocks, hinstrs⟩ := transientPhi_runs
  obtain ⟨r, hr⟩ := h "f" transientPhi false longWayFirst s₀ s (by decide +kernel)
    transientPhi_strict (by decide +kernel) hstart hrun hblocks hinstrs
  have herror : ((Func.ofScript "f" transientPhi).solve false).isOk = false := by decide +kernel
  rw [hr] at herror
  cases herror

end ConstFlow
