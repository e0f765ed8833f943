import ConstFlow.Proofs.Hearing
import ConstFlow.Proofs.Planning
import ConstFlow.Proofs.Reachability
import ConstFlow.Proofs.Transport

/-!
# A second run of the pass

The second analysis agrees with the first one (`Again.agree`), and the first run changed all that
there was to change. So nothing is planned in the second (`Again.plan_eq_nil`).

This takes a strict function without a phi in its entry block, since a branch on a condition of
which nothing is known goes both ways. It also takes phis that hear of the blocks they name: where a
branch was folded, the block at its other end may still name the branch's block in a phi, and
reaching that block does not make the phi wait any more. And the second analysis may fail, as any
analysis does, at a condition that is for the moment a constant other than zero and one.
`run_not_idempotent` has a function for each of the four.
-/

namespace ConstFlow

/-! ## Planning again -/

namespace Again
variable {f g : Func} {d : Folding} {s s' : State} {k : InstrId} {i : Instr}

/-- A branch that is left was a branch on the same condition. -/
theorem branch (h : Again f g d s s') (hi : f.instr? k = some i) {cond : Operand}
    {onTrue onFalse : BlockId} (hop : d.op k i.op = .branch cond onTrue onFalse) :
    d.jumps k = none ∧ ∃ cond', i.op = .branch cond' onTrue onFalse ∧
      s'.facts.resolve cond = s.facts.resolve cond' := by
  rcases h.justified.op_cases hi with ⟨hjump, heq⟩ | ⟨target, -, -, heq⟩
  · refine ⟨hjump, ?_⟩
    obtain ⟨cond', hbranch, rfl⟩ := Op.mapOperands_eq_branch.mp (heq.symm.trans hop)
    refine ⟨cond', hbranch, h.agree.2.resolve fun u hu => ?_⟩
    refine h.justified.jumps_use h.regular.wellFormed hi ?_
    rw [Op.mem_uses, hbranch, ← hu]
    exact List.mem_cons_self
  · cases heq.symm.trans hop

/-- Nothing is planned for an instruction that the folding left, if it was complete. -/
theorem planInstr_eq_none (h : Again f g d s s') {o : Options}
    (hcomplete : d.Complete f (s.solution f.name) o) {j : Instr} (hj : g.instr? j.id = some j) :
    planInstr (s'.solution g.name) o j.block j = .ok none := by
  obtain ⟨hconst, i, hi, heq⟩ := h.folded.instr_eq_some.mp hj
  have hop : j.op = d.op j.id i.op := congrArg Instr.op heq
  have hblock : j.block = i.block := by rw [heq]
  have hreached : (s'.solution g.name).reached j.block = (s.solution f.name).reached i.block := by
    rw [State.reached_solution, State.reached_solution, h.agree.1, hblock]
  cases hplan : planInstr (s'.solution g.name) o j.block j with
  | error e =>
    obtain ⟨cond, onTrue, onFalse, c, hbranch, -, hon, hc, hzero, hone, -⟩ := planInstr_error hplan
    obtain ⟨-, cond', hbranch', hresolve⟩ := h.branch hi (hop.symm.trans hbranch)
    rw [State.operandConst?_solution, hresolve] at hc
    rw [hreached, State.reached_solution] at hon
    have hid : i.id = j.id := h.regular.consistent.placed.slot hi
    obtain ⟨y, -, hy, -⟩ := h.solves.closed i.block hon i
      (h.regular.consistent.placed.mem_blockInstrs.mpr ⟨hid ▸ hi, rfl⟩)
    cases (evaluate_invalid hbranch' hc hzero hone).symm.trans hy
  | ok change =>
    cases change with
    | none => rfl
    | some change =>
      exfalso
      rcases planInstr_eq_some.mp hplan with
        ⟨c, -, hfold, hvalues, hc⟩ | ⟨target, -, hbranches, hon, hdecides⟩
      · rw [hop] at hfold
        rcases h.justified.op_cases hi with ⟨hjump, heq⟩ | ⟨target, -, -, heq⟩
        · rw [heq, Op.isFoldable_mapOperands] at hfold
          rw [State.const?_solution, h.agree.2.kept hconst hjump] at hc
          exact hcomplete.const hi hfold hvalues (State.const?_solution.mpr hc) hconst
        · rw [heq] at hfold
          cases hfold
      · obtain ⟨cond, onTrue, onFalse, hbranch, htarget⟩ := hdecides
        obtain ⟨hjump, cond', hbranch', hresolve⟩ := h.branch hi (hop.symm.trans hbranch)
        simp only [State.operandConst?_solution, hresolve] at htarget
        have hdecides : (s.solution f.name).Decides i target := by
          refine ⟨cond', onTrue, onFalse, hbranch', ?_⟩
          simpa only [State.operandConst?_solution] using htarget
        exact hcomplete.jump hi hbranches (hreached ▸ hon) hdecides hjump

theorem plan_eq_nil (h : Again f g d s s') {o : Options}
    (hcomplete : d.Complete f (s.solution f.name) o) : plan (s'.solution g.name) o g = .ok [] := by
  refine ConstFlow.plan_eq_nil ?_
  rintro ⟨b, j⟩ hmem
  obtain ⟨hj, rfl⟩ := h.folded.consistent.placed.mem_placed.mp hmem
  exact h.planInstr_eq_none hcomplete hj

end Again

/-! ## The pass -/

/-- Every phi left in a reached block has an edge from every reached block that it names. -/
def Solution.Feeds (r : Solution) (g : Func) : Prop :=
  ∀ i ∈ g.instrs, r.reached i.block = true → ∀ p ∈ i.op.phiInputs, r.reached p.pred = true →
    i.block ∈ g.succs p.pred

instance (r : Solution) (g : Func) : Decidable (r.Feeds g) :=
  inferInstanceAs (Decidable (∀ i ∈ g.instrs, r.reached i.block = true → ∀ p ∈ i.op.phiInputs,
    r.reached p.pred = true → i.block ∈ g.succs p.pred))

/-- Every phi left in a reached block that is overdefined hears of every reached block that it
names. -/
def Solution.Notices (r : Solution) (g : Func) : Prop :=
  ∀ i ∈ g.instrs, r.reached i.block = true → r.fact? i.id = some .overdefined →
    ∀ p ∈ i.op.phiInputs, r.reached p.pred = true → g.Hears r.reached i p

theorem Solution.Feeds.notices {r : Solution} {g : Func} (h : r.Feeds g) : r.Notices g :=
  fun i hi hreached _ p hp hpred => .inl (h i hi hreached p hp hpred)

/-- The pass says that nothing changed, and leaves the function as it is. -/
def Options.LeaveAlone (o : Options) (w : Workspace) : Prop :=
  ∃ w', (constantPropagation o).run w = .ok false w' ∧ w'.func = w.func

/-- The pass fails at a branch whose condition is overdefined in `r`, and leaves the function as it
is. -/
def Options.FailAt (o : Options) (r : Solution) (w : Workspace) : Prop :=
  ∃ b c i cond onTrue onFalse w',
    (constantPropagation o).run w = .error (.invalidCondition b c) w' ∧ w'.func = w.func ∧
    c ≠ 0 ∧ c ≠ 1 ∧ w.func.terminator? b = some i ∧ i.op = .branch cond onTrue onFalse ∧
    r.reached b = true ∧ r.facts.resolve cond = .ok .overdefined

section Pass
variable {o : Options} {w w' w₂ : Workspace} {r : Solution} {f g : Func} {d : Folding}

/-- What a folding left as a phi it did not make a jump. -/
theorem Folded.jumps_phi (hg : Folded f d g) (hd : d.Justified f r) {k : InstrId} {j : Instr}
    (hj : g.instr? k = some j) {p : PhiInput} (hp : p ∈ j.op.phiInputs) : d.jumps k = none := by
  obtain ⟨-, i, hi, rfl⟩ := hg.instr_eq_some.mp hj
  rcases hd.op_cases hi with ⟨hnone, -⟩ | ⟨target, -, -, hop⟩
  · exact hnone
  · rw [hop] at hp
    cases hp

/-- A second run on what a complete folding left. -/
theorem Folded.run_again (hg : Folded f d g) (hf : f.Regular)
    (hedges : ∀ i ∈ f.instrs, ∀ p ∈ i.op.phiInputs, i.block ∈ f.succs p.pred)
    (hsolve : f.solve o.recordHistory = .ok r) (hd : d.Justified f r) (hcomplete : d.Complete f r o)
    (hnotices : r.Notices g) (hw : w.func = g) : o.LeaveAlone w ∨ o.FailAt r w := by
  subst hw
  have hp := hf.consistent.placed
  have hg' : w.func.Regular := hg.regular hf hd
  have hvalid := hg'.wellFormed.validate_ok hg'.consistent.placed
  obtain ⟨s, rfl, ht, hrest, -, hleast⟩ := hf.solve_ok hsolve
  have hsolves := hrest.solves hp hf.wellFormed ht hedges
  have hsolves' := hg.solves hp hf.wellFormed hd hsolves
  have hhears : ∀ i ∈ w.func.instrs, s.visits.reached i.block = true →
      (d.facts s.facts).get? i.id = some .overdefined → ∀ p ∈ i.op.phiInputs,
      s.visits.reached p.pred = true → w.func.Hears s.visits.reached i p := by
    intro i hi hreached hfact p hpmem hpred
    obtain ⟨k, hk⟩ := Func.mem_instrs.mp hi
    obtain rfl := hg'.consistent.placed.slot hk
    rw [Folding.get?_facts (hg.jumps_phi hd hk hpmem)] at hfact
    rw [← show (s.solution f.name).reached = s.visits.reached from
      funext (State.reached_solution s f.name)] at hreached hpred ⊢
    exact hnotices i hi hreached hfact p hpmem hpred
  cases hagain : w.func.solve o.recordHistory with
  | error e =>
    obtain ⟨j, cond, onTrue, onFalse, c, hj, hop, hzero, hone, rfl, hreached, hcond⟩ :=
      hg'.solve_fails hsolves' hagain
    obtain ⟨w', hrun, hfunc⟩ := ConstantPropagation.run_of_solve_error (fun _ => hvalid) hagain
    refine .inr ⟨j.block, c, j, cond, onTrue, onFalse, w', hrun, hfunc, hzero, hone, ?_, hop, ?_,
      ?_⟩
    · exact hg'.wellFormed.terminator?_eq hg'.consistent.placed hj (by rw [hop]; rfl)
    · rw [State.reached_solution]
      exact hreached
    · -- the condition is read, so it is no branch, and has the fact that it had
      rw [← hcond]
      refine FactMap.resolve_congr fun u hu => (Folding.get?_facts ?_).symm
      obtain ⟨-, i, hi, heq⟩ := hg.instr_eq_some.mp hj
      have hsame : j.op = d.op j.id i.op := congrArg Instr.op heq
      have huse : u ∈ (d.op j.id i.op).uses := by
        rw [Op.mem_uses, ← hsame, hop, hu]
        exact List.mem_cons_self
      exact hd.jumps_use hf.wellFormed hi (hd.mem_uses hi huse).1
  | ok r' =>
    obtain ⟨s', rfl, ht', hpaced', hbelow, hsolves₂⟩ := hg'.solve_hearing hsolves' hhears hagain
    have hsame : Again f w.func d s s' :=
      { regular := hf, folded := hg, justified := hd, tidy := ht, tidy' := ht', solves := hsolves,
        solves' := hsolves₂, paced' := hpaced', least := hleast, below := hbelow }
    exact .inl (ConstantPropagation.run_of_plan_nil (fun _ => hvalid) hagain fun _ =>
      hsame.plan_eq_nil hcomplete)

/-- A second run of the pass changes nothing, if the options allow no change or the function is
strict and the phis that are left hear of the blocks that they name; but it may fail, at a condition
that is overdefined for the first run. -/
theorem run_idempotent (name : String) (script : List Stmt) (o : Options) (w w' w₂ : Workspace)
    (changed : Bool) (r : Solution) (hfunc : w.func = Func.ofScript name script)
    (hvalid : w.func.validate = .ok ()) (hrun : (constantPropagation o).run w = .ok changed w')
    (hsolve : w.func.solve o.recordHistory = .ok r)
    (hready : o.allowsChange = false ∨ w.func.Strict ∧
      (∀ i ∈ w.func.blockInstrs Func.entry, i.op.isPhi = false) ∧ r.Notices w'.func)
    (hagain : w₂.func = w'.func) :
    o.LeaveAlone w₂ ∨ o.allowsChange = true ∧ o.FailAt r w₂ := by
  have hrun : ConstantPropagation.run o w = .ok changed w' := hrun
  cases ho : o.allowsChange with
  | false =>
    have hsame : w₂.func = w.func := hagain.trans (ConstantPropagation.run_unchanged ho hrun)
    refine .inl (ConstantPropagation.run_of_plan_nil (r := r) ?_ ?_ ?_)
    · exact fun _ => hsame ▸ hvalid
    · exact hsame ▸ hsolve
    · intro hallows
      cases ho.symm.trans hallows
  | true =>
    obtain ⟨hstrict, hentry, hnotices⟩ := hready.resolve_left (by rw [ho]; decide)
    rw [hfunc] at hvalid hstrict hentry
    have hf : w.func.Regular := hfunc ▸ Func.regular_ofScript hvalid hstrict hentry
    have hedges : ∀ i ∈ w.func.instrs, ∀ p ∈ i.op.phiInputs, i.block ∈ w.func.succs p.pred := by
      intro i hi p hp
      obtain ⟨k, hk⟩ := Func.mem_instrs.mp hi
      have hpred := (hf.wellFormed.fits hk).pred p hp
      rw [hfunc] at hpred ⊢
      exact (Func.mem_preds_ofScript.mp hpred).2
    obtain ⟨d, hfolded, hjust, hcomplete⟩ :=
      ConstantPropagation.run_complete hf.consistent hf.wellFormed ho hsolve hrun
    exact (hfolded.run_again hf hedges hsolve hjust hcomplete hnotices hagain).imp_right
      fun hfail => ⟨rfl, hfail⟩

/-- What a pass that succeeds says and leaves. -/
def Pass.result? (p : Pass) (w : Workspace) : Option (Bool × Workspace) :=
  match p.run w with
  | .ok changed w' => some (changed, w')
  | .error _ _ => none

theorem Pass.result?_eq_some {p : Pass} {changed : Bool} :
    p.result? w = some (changed, w') ↔ p.run w = .ok changed w' := by
  unfold result?
  cases p.run w with
  | ok changed' w₁ => simp
  | error e w₁ => simp

/-- A branch that always takes the longer of two ways to a phi. The phi still names its block. -/
def detour : List Stmt :=
  [.block 0 [.append (.branch (.const 1) 1 2)], .block 1 [.append (.jump 2)],
   .block 2 [.append (.phi [⟨.const 5, 0⟩, ⟨.const 6, 1⟩]), .append (.ret (some (.value 2)))]]

/-- A second run on the counting loop, of which the first one folds a comparison and a branch, and
on the detour, where the phi loses an edge. -/
theorem run_idempotent_loopAndDetour :
    (∃ w', (constantPropagation {}).run (Workspace.ofFunc (Func.ofScript "count" countingLoop)) =
      .ok true w' ∧ Options.LeaveAlone {} w') ∧
    ∃ r w', (Func.ofScript "detour" detour).solve false = .ok r ∧
      (constantPropagation {}).run (Workspace.ofFunc (Func.ofScript "detour" detour)) =
        .ok true w' ∧ ¬ r.Feeds w'.func ∧ Options.LeaveAlone {} w' := by
  have hagain : ∀ {name : String} {script : List Stmt} {w' : Workspace} {r : Solution},
      (Func.ofScript name script).validate = .ok () → (Func.ofScript name script).Strict →
      (∀ i ∈ (Func.ofScript name script).blockInstrs Func.entry, i.op.isPhi = false) →
      (constantPropagation {}).run (Workspace.ofFunc (Func.ofScript name script)) = .ok true w' →
      (Func.ofScript name script).solve false = .ok r → r.Notices w'.func →
      ((constantPropagation {}).result? w').isSome = true → Options.LeaveAlone {} w' := by
    intro name script w' r hvalid hstrict hentry hrun hsolve hnotices hsecond
    rcases run_idempotent name script {} _ w' w' true r rfl hvalid hrun hsolve
      (.inr ⟨hstrict, hentry, hnotices⟩) rfl with halone | ⟨-, b, c, i, cond, onTrue, onFalse, w₂,
      hfail, -⟩
    · exact halone
    · obtain ⟨⟨changed, w₃⟩, hsome⟩ := Option.isSome_iff_exists.mp hsecond
      cases hfail.symm.trans (Pass.result?_eq_some.mp hsome)
  constructor
  · have hruns : ∃ r ∈ ((Func.ofScript "count" countingLoop).solve false).toOption,
        ∃ p ∈ (constantPropagation {}).result?
          (Workspace.ofFunc (Func.ofScript "count" countingLoop)),
        p.1 = true ∧ r.Feeds p.2.func ∧ ((constantPropagation {}).result? p.2).isSome = true := by
      decide +kernel
    obtain ⟨r, hr, ⟨changed, w'⟩, hfirst, rfl, hfeeds, hsecond⟩ := hruns
    have hrun := Pass.result?_eq_some.mp hfirst
    exact ⟨w', hrun, hagain (by decide +kernel) countingLoop_strict (by decide +kernel) hrun
      (eq_ok_of_mem_toOption hr) hfeeds.notices hsecond⟩
  · have hruns : ∃ r ∈ ((Func.ofScript "detour" detour).solve false).toOption,
        ∃ p ∈ (constantPropagation {}).result? (Workspace.ofFunc (Func.ofScript "detour" detour)),
        p.1 = true ∧ ¬ r.Feeds p.2.func ∧ ((constantPropagation {}).result? p.2).isSome = true ∧
        ∀ i ∈ p.2.func.instrs, ∀ q ∈ i.op.phiInputs,
          q.pred = Func.entry ∨ i.block ∈ p.2.func.succs q.pred := by
      decide +kernel
    obtain ⟨r, hr, ⟨changed, w'⟩, hfirst, rfl, hfeeds, hsecond, hnamed⟩ := hruns
    have hrun := Pass.result?_eq_some.mp hfirst
    have hsolve := eq_ok_of_mem_toOption hr
    have hstrict : (Func.ofScript "detour" detour).StrictByEdges := by decide +kernel
    have hnotices : r.Notices w'.func := by
      intro i hi _ _ q hq _
      rcases hnamed i hi q hq with hentry | hedge
      · exact .inr (.inl (hentry ▸ Func.gates_entry _ _ _))
      · exact .inl hedge
    exact ⟨r, w', hsolve, hrun, hfeeds, hagain (by decide +kernel) hstrict.strict
      (by decide +kernel) hrun hsolve hnotices hsecond⟩

/-- A branch on a value that is defined in one of its targets, and a phi behind both. -/
def lateValue : List Stmt :=
  [.reserve 1, .block 0 [.append (.branch (.value 0) 1 2)],
   .block 1 [.place 0 (.add (.const 1) (.const 0)), .append (.jump 3)],
   .block 2 [.append (.jump 3)],
   .block 3 [.append (.phi [⟨.const 5, 1⟩, ⟨.const 6, 2⟩]), .append (.ret (some (.value 4)))]]

/-- A branch that is always taken the same way, and a phi at its other end. -/
def droppedEdge : List Stmt :=
  [.block 0 [.append (.uninterpreted "in" []), .append (.branch (.value 0) 1 2)],
   .block 1 [.append (.jump 3)], .block 2 [.append (.jump 4)],
   .block 3 [.append (.phi [⟨.const 5, 1⟩, ⟨.const 6, 4⟩]), .append (.ret (some (.value 4)))],
   .block 4 [.append (.branch (.const 1) 5 3)], .block 5 [.append (.ret none)]]

/-- Two ways to the phi in block 13. With one constant less to visit, the second analysis comes to
the phi when only the shorter way is finished. -/
def fasterWay : List Stmt :=
  [.reserve 3,
   .block 0 [.append (.uninterpreted "in" []), .append (.branch (.value 3) 1 2)],
   .block 1 [.append (.uninterpreted "in" []), .append (.branch (.value 5) 3 4)],
   .block 2 [.append (.jump 5)],
   .block 3 [.place 0 (.phi [⟨.const 1, 1⟩, ⟨.const 0, 8⟩]), .append (.jump 6)],
   .block 4 [.place 1 (.phi [⟨.const 1, 1⟩, ⟨.const 0, 5⟩]), .append (.jump 7)],
   .block 5 [.append (.uninterpreted "in" []), .append (.branch (.value 10) 4 8)],
   .block 6 [.place 2 (.add (.const 0) (.const 0)), .append (.add (.value 0) (.value 2)),
     .append (.branch (.value 12) 9 11)],
   .block 7 [.append (.branch (.value 1) 9 10)], .block 8 [.append (.jump 3)],
   .block 9 [.append (.ret none)], .block 10 [.append (.jump 13)], .block 11 [.append (.jump 12)],
   .block 12 [.append (.jump 13)],
   .block 13 [.append (.phi [⟨.const 2, 10⟩, ⟨.const 3, 12⟩]), .append (.branch (.value 20) 9 9)]]

/-- A phi in the entry block, of which nothing is known when the branch behind it is first visited,
and a phi behind both ways. -/
def loopToEntry : List Stmt :=
  [.block 0 [.append (.phi [⟨.const 1, 1⟩]), .append (.branch (.value 0) 1 2)],
   .block 1 [.append (.uninterpreted "in" []), .append (.branch (.value 2) 0 3)],
   .block 2 [.append (.jump 3)],
   .block 3 [.append (.phi [⟨.const 5, 1⟩, ⟨.const 6, 2⟩]), .append (.ret (some (.value 5)))]]

theorem strict_examples : ∀ script ∈ [droppedEdge, fasterWay, loopToEntry],
    (Func.ofScript "f" script).validate = .ok () ∧ (Func.ofScript "f" script).Strict := by
  have hedges : ∀ script ∈ [droppedEdge, fasterWay, loopToEntry],
      (Func.ofScript "f" script).validate = .ok () ∧
        (Func.ofScript "f" script).StrictByEdges := by decide +kernel
  exact fun script hscript => (hedges script hscript).imp_right Func.StrictByEdges.strict

/-- A second run may change something, also on a strict function. On a strict function whose phis
have kept their edges it may still fail, and with a phi in the entry block it may still change
something. -/
theorem run_not_idempotent :
    (¬ ∀ (name : String) (script : List Stmt) (o : Options) (w w' w₂ : Workspace) (changed : Bool),
      w.func = Func.ofScript name script → w.func.validate = .ok () →
      (constantPropagation o).run w = .ok changed w' → w₂.func = w'.func → o.LeaveAlone w₂) ∧
    (¬ ∀ (name : String) (script : List Stmt) (o : Options) (w w' w₂ w₃ : Workspace)
      (changed again : Bool), w.func = Func.ofScript name script → w.func.validate = .ok () →
      w.func.Strict → (∀ i ∈ w.func.blockInstrs Func.entry, i.op.isPhi = false) →
      (constantPropagation o).run w = .ok changed w' → w₂.func = w'.func →
      (constantPropagation o).run w₂ = .ok again w₃ → again = false) ∧
    (¬ ∀ (name : String) (script : List Stmt) (o : Options) (w w' w₂ : Workspace) (changed : Bool)
      (r : Solution), w.func = Func.ofScript name script → w.func.validate = .ok () →
      w.func.Strict → (∀ i ∈ w.func.blockInstrs Func.entry, i.op.isPhi = false) →
      (constantPropagation o).run w = .ok changed w' →
      w.func.solve o.recordHistory = .ok r → r.Feeds w'.func → w₂.func = w'.func →
      o.LeaveAlone w₂) ∧
    ¬ ∀ (name : String) (script : List Stmt) (o : Options) (w w' w₂ w₃ : Workspace)
      (changed again : Bool) (r : Solution), w.func = Func.ofScript name script →
      w.func.validate = .ok () → w.func.Strict → (constantPropagation o).run w = .ok changed w' →
      w.func.solve o.recordHistory = .ok r → r.Feeds w'.func → w₂.func = w'.func →
      (constantPropagation o).run w₂ = .ok again w₃ → again = false := by
  refine ⟨fun h => ?_, fun h => ?_, fun h => ?_, fun h => ?_⟩
  · have hruns : ∃ p ∈ (constantPropagation {}).result?
          (Workspace.ofFunc (Func.ofScript "f" lateValue)),
        ∃ q ∈ (constantPropagation {}).result? p.2, q.1 = true := by decide +kernel
    obtain ⟨⟨changed, w'⟩, hfirst, ⟨again, w₃⟩, hsecond, rfl⟩ := hruns
    obtain ⟨w₄, hrun, -⟩ := h "f" lateValue {} _ w' w' changed rfl (by decide +kernel)
      (Pass.result?_eq_some.mp hfirst) rfl
    cases hrun.symm.trans (Pass.result?_eq_some.mp hsecond)
  · have hruns : (∀ i ∈ (Func.ofScript "f" droppedEdge).blockInstrs Func.entry,
          i.op.isPhi = false) ∧
        ∃ p ∈ (constantPropagation {}).result? (Workspace.ofFunc (Func.ofScript "f" droppedEdge)),
        ∃ q ∈ (constantPropagation {}).result? p.2, q.1 = true := by decide +kernel
    obtain ⟨hentry, ⟨changed, w'⟩, hfirst, ⟨again, w₃⟩, hsecond, rfl⟩ := hruns
    obtain ⟨hvalid, hstrict⟩ := strict_examples droppedEdge (.head _)
    cases h "f" droppedEdge {} (.ofFunc _) w' w' w₃ changed true rfl hvalid hstrict hentry
      (Pass.result?_eq_some.mp hfirst) rfl (Pass.result?_eq_some.mp hsecond)
  · have hruns : (∀ i ∈ (Func.ofScript "f" fasterWay).blockInstrs Func.entry,
          i.op.isPhi = false) ∧
        ∃ r ∈ ((Func.ofScript "f" fasterWay).solve false).toOption,
        ∃ p ∈ (constantPropagation {}).result? (Workspace.ofFunc (Func.ofScript "f" fasterWay)),
        r.Feeds p.2.func ∧ (constantPropagation {}).result? p.2 = none := by decide +kernel
    obtain ⟨hentry, r, hr, ⟨changed, w'⟩, hfirst, hfeeds, hsecond⟩ := hruns
    obtain ⟨hvalid, hstrict⟩ := strict_examples fasterWay (.tail _ (.head _))
    obtain ⟨w₄, hrun, -⟩ := h "f" fasterWay {} (.ofFunc _) w' w' changed r rfl hvalid hstrict hentry
      (Pass.result?_eq_some.mp hfirst) (eq_ok_of_mem_toOption hr) hfeeds rfl
    cases hsecond.symm.trans (Pass.result?_eq_some.mpr hrun)
  · have hruns : ∃ r ∈ ((Func.ofScript "f" loopToEntry).solve false).toOption,
        ∃ p ∈ (constantPropagation {}).result? (Workspace.ofFunc (Func.ofScript "f" loopToEntry)),
        r.Feeds p.2.func ∧ ∃ q ∈ (constantPropagation {}).result? p.2, q.1 = true := by
      decide +kernel
    obtain ⟨r, hr, ⟨changed, w'⟩, hfirst, hfeeds, ⟨again, w₃⟩, hsecond, rfl⟩ := hruns
    obtain ⟨hvalid, hstrict⟩ := strict_examples loopToEntry (.tail _ (.tail _ (.head _)))
    cases h "f" loopToEntry {} (.ofFunc _) w' w' w₃ changed true r rfl hvalid hstrict
      (Pass.result?_eq_some.mp hfirst) (eq_ok_of_mem_toOption hr) hfeeds rfl
      (Pass.result?_eq_some.mp hsecond)

end Pass

end ConstFlow
