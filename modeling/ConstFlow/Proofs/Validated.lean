import ConstFlow.Proofs.FailedPass
import ConstFlow.Proofs.Failure
import ConstFlow.Proofs.Reachability

/-!
# What validation is enough for

A function that validates can be analysed, and then simplified by the result, whatever edits it went
through before. The analysis has one way to fail, at a branch whose condition is a constant other
than zero and one (`solve_fails`).

The simplification reads the conditions of branches too, but it reads them off a state at rest: the
branches of reached blocks were evaluated under the final facts, and none of them failed
(`AtRest.condition`). So the plan can be made (`AtRest.exists_plan`), and its changes can be made
because every block ends in a terminator (`exists_commitAll`).
-/

namespace ConstFlow

section Plans
variable {f : Func} {s : State} {i : Instr}

/-- At rest a constant condition in a reached block is zero or one. -/
theorem AtRest.condition (h : AtRest f s) (hi : f.instr? i.id = some i) {cond : Operand}
    {onTrue onFalse : BlockId} (hop : i.op = .branch cond onTrue onFalse)
    (hreached : s.visits.reached i.block = true) {c : Int64}
    (hc : s.facts.resolve cond = .ok (.const c)) : c = 0 ∨ c = 1 := by
  obtain ⟨x, y, -, hy, -⟩ := h.settled hi hreached
  by_contra hother
  rw [not_or] at hother
  rw [evaluate_invalid hop hc hother.1 hother.2] at hy
  cases hy

/-- The changes that a state at rest allows can be planned. -/
theorem AtRest.exists_plan (h : AtRest f s) (hp : f.Placed) (name : String) (o : Options) :
    ∃ cs, plan (s.solution name) o f = .ok cs := by
  cases hplan : plan (s.solution name) o f with
  | ok cs => exact ⟨cs, rfl⟩
  | error e =>
    obtain ⟨pre, ⟨b, i⟩, post, hsplit, -, hfail⟩ := planAll_error hplan
    obtain ⟨hi, rfl⟩ := hp.mem_placed.mp (hsplit ▸ List.mem_append_right pre List.mem_cons_self)
    obtain ⟨cond, onTrue, onFalse, c, hop, -, hreached, hc, hzero, hone, -⟩ := planInstr_error hfail
    rw [State.reached_solution] at hreached
    rcases h.condition hi hop hreached (State.operandConst?_solution.mp hc) with hc | hc
    · exact absurd hc hzero
    · exact absurd hc hone

end Plans

section Changes
variable {w : Workspace} {r : Solution} {o : Options}

/-- The changes of a plan for a well-formed function can be made. -/
theorem exists_commitAll (hf : w.func.Consistent) (hwf : w.func.WellFormed) {cs : List Change}
    (hplan : plan r o w.func = .ok cs) (pass : Option String) :
    ∃ w', commitAll pass cs w = .ok () w' := by
  cases hcommit : commitAll pass cs w with
  | ok u w' => exact ⟨w', rfl⟩
  | error e w' =>
    -- a change fails only in a block that does not end in a terminator
    obtain ⟨_, i, _, _, blk, id, j, -, -, -, hblk, hlast, hj, hterm⟩ :=
      commitAll_fails hf hplan hcommit
    obtain ⟨front, hfront⟩ := List.getLast?_eq_some_iff.mp hlast
    rw [(hwf.last hblk hfront hj).mpr rfl] at hterm
    cases hterm

theorem exists_simplify (hf : w.func.Consistent) (hwf : w.func.WellFormed) {cs : List Change}
    (hplan : plan r o w.func = .ok cs) (pass : Option String) :
    ∃ w', simplify r o pass w = .ok cs.length w' := by
  have hfunc := func_warnSize (w := w) pass r
  rw [← hfunc] at hf hwf hplan
  obtain ⟨w', hcommit⟩ := exists_commitAll hf hwf hplan pass
  unfold simplify
  simp only [hplan, hcommit]
  exact ⟨_, rfl⟩

end Changes

/-- A valid function has a solution, by which it can be simplified under all options, or the
analysis fails at the branch at the end of a block, whose condition is a constant other than zero
and one. -/
theorem solve_simplify_of_validate (name : String) (script : List Stmt) (edits : List Edit)
    (history : Bool) (f : Func) (hf : f = (Func.ofScript name script).edited edits)
    (hvalid : f.validate = .ok ()) :
    (∃ r, f.solve history = .ok r ∧
      ∀ (o : Options) (pass : Option String) (events : EventLog) (notes : Array Note),
        ∃ n w', simplify r o pass ⟨f, events, notes⟩ = .ok n w') ∨
    ∃ b c i cond onTrue onFalse, f.solve history = .error (.invalidCondition b c) ∧
      f.terminator? b = some i ∧ i.op = .branch cond onTrue onFalse ∧ c ≠ 0 ∧ c ≠ 1 := by
  have hcons : f.Consistent := hf ▸ Func.consistent_edited name script edits
  have hwf := Func.WellFormed.of_validate hcons.placed hvalid
  cases hsolve : f.solve history with
  | ok r =>
    obtain ⟨s, rfl, -, hrest⟩ := solve_atRest hcons.placed hcons.indexed hsolve
    refine .inl ⟨_, rfl, fun o pass events notes => ?_⟩
    obtain ⟨cs, hplan⟩ := hrest.exists_plan hcons.placed f.name o
    exact ⟨_, exists_simplify (w := ⟨f, events, notes⟩) hcons hwf hplan pass⟩
  | error e =>
    obtain ⟨_, _, i, _, cond, onTrue, onFalse, c, -, -, hi, hop, -, hzero, hone, rfl⟩ :=
      solve_fails hcons.placed hcons.indexed hwf hsolve
    have hterm : i.op.isTerminator = true := by rw [hop]; rfl
    exact .inr ⟨i.block, c, i, cond, onTrue, onFalse, rfl, hwf.terminator?_eq hcons.placed hi hterm,
      hop, hzero, hone⟩

/-- A loop that is left in its first round. Its predecessors are those from before the edit. -/
def cutLoop : Func :=
  (Func.ofScript "count" countingLoop).edited [.replaceTerminator 1 (.jump 2)]

/-- A branch on a sum that is neither zero nor one. -/
def branchOnTwo : Func :=
  Func.ofScript "f"
    [.block 0 [.append (.add (.const 1) (.const 1)), .append (.branch (.value 0) 0 0)]]

theorem solve_simplify_of_validate_cutLoop :
    (cutLoop.validate = .ok () ∧ ∃ r, cutLoop.solve false = .ok r ∧
      ∀ (o : Options) (pass : Option String) (events : EventLog) (notes : Array Note),
        ∃ n w', simplify r o pass ⟨cutLoop, events, notes⟩ = .ok n w') ∧
    branchOnTwo.validate = .ok () ∧ ∃ b c i cond onTrue onFalse,
      branchOnTwo.solve false = .error (.invalidCondition b c) ∧
      branchOnTwo.terminator? b = some i ∧ i.op = .branch cond onTrue onFalse ∧ c ≠ 0 ∧ c ≠ 1 := by
  have hcut : cutLoop.validate = .ok () := by decide +kernel
  have htwo : branchOnTwo.validate = .ok () := by decide +kernel
  refine ⟨⟨hcut, ?_⟩, htwo, ?_⟩
  · rcases solve_simplify_of_validate "count" countingLoop _ false cutLoop rfl hcut with
      hok | ⟨_, _, _, _, _, _, hfail, -⟩
    · exact hok
    · have hok : (cutLoop.solve false).isOk = true := by decide +kernel
      rw [hfail] at hok
      cases hok
  · rcases solve_simplify_of_validate "f" _ [] false branchOnTwo rfl htwo with ⟨r, hr, -⟩ | hfail
    · have herror : (branchOnTwo.solve false).isOk = false := by decide +kernel
      rw [hr] at herror
      cases herror
    · exact hfail

end ConstFlow
