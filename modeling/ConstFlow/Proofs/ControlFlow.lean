import ConstFlow.Proofs.Simultaneous
import ConstFlow.Proofs.Transport
import ConstFlow.Proofs.Traversal

/-!
# Reached blocks between two graphs

The blocks that the analysis reaches lie between two sets that a traversal of the control flow
finds: what can be reached in the function after decided branches became jumps, and what could be
reached in it before.

* `solve_reach` : a block is made to wait by an edge of a reached block only, so some way leads from
  the entry to every reached block;
* `Folded.reached_of_edge` : at rest a branch of a reached block that stays a branch allows both its
  edges, and one that became a jump allowed the edge that is left. So no edge that is left leads out
  of the reached blocks;
* `preorder_between` : the same of the traversals.

Both inclusions can be strict (`preorder_between_staleBranch`). A branch that comes before its
condition allows both edges when it is visited, and the target that it loses stays reached.
-/

namespace ConstFlow

/-! ## Every reached block can be reached -/

section Before
variable {f : Func}

theorem Func.WellFormed.edge (hwf : f.WellFormed) (hp : f.Placed) {i : Instr} {t : BlockId}
    (hi : f.instr? i.id = some i) (ht : t ∈ i.op.successors) : f.graph.Edge i.block t := by
  refine ⟨?_, (hwf.fits hi).target t ht⟩
  show t ∈ f.succs i.block
  rwa [hwf.succs_eq hp hi (Op.isTerminator_of_mem_successors ht)]

/-- Some way leads from the entry to every block that was reached or waits. -/
def Traced (f : Func) (s : State) : Prop :=
  ∀ b, s.visits.reached b = true ∨ b ∈ s.blocks.pending → f.graph.Reach Func.entry b

theorem traced_kept (hp : f.Placed) (hindexed : f.Indexed) (hwf : f.WellFormed) :
    Kept f fun s todo => Settling f s todo ∧ Traced f s := by
  rintro s s' todo todo' ht ⟨hsettling, htraced⟩ hstride
  refine ⟨settling_kept hp hindexed ht hsettling hstride, fun b hb => ?_⟩
  rcases hstride.reaches hb with hb | ⟨i, rest, y, rfl, hi, hy, htarget⟩
  · exact htraced b hb
  · -- what is visited stands in a reached block, and a way leads there
    obtain ⟨j, hj, hreached⟩ := State.isActive_iff.mp (hsettling.active _ List.mem_cons_self)
    obtain rfl : j = i := Option.some.inj (hj.symm.trans hi)
    have hedge := hwf.edge hp hi (mem_successors_of_mem_targets hy htarget)
    exact (htraced j.block (.inl hreached)).tail hedge

theorem traced_initial {s : State} (h : s.Initial f) : Traced f s := by
  intro b hb
  rw [(h.blocks b).mp (hb.resolve_left (h.unreached b))]
  exact .refl

theorem solve_reach (hp : f.Placed) (hindexed : f.Indexed) (hwf : f.WellFormed) {history : Bool}
    {r : Solution} (hsolve : f.solve history = .ok r) {b : BlockId} (hb : r.reached b = true) :
    f.graph.Reach Func.entry b := by
  obtain ⟨s, rfl, -, ⟨-, htraced⟩, -⟩ := solve_invariant hp (traced_kept hp hindexed hwf)
    (fun s hinit => ⟨settling_initial hinit, traced_initial hinit⟩) hsolve
  rw [State.reached_solution] at hb
  exact htraced b (.inl hb)

end Before

/-! ## What can be reached afterwards was reached -/

section After
variable {f g : Func} {s : State} {o : Options} {i : Instr} {m : FactMap} {x : Visits} {y : Yield}
  {t : BlockId}

/-- An operation allows all its edges, unless it is a branch on a constant. -/
theorem mem_targets_of_undecided (hy : evaluate m x i = .ok y) (ht : t ∈ i.op.successors)
    (hopen : ∀ {cond onTrue onFalse c}, i.op = .branch cond onTrue onFalse →
      m.resolve cond ≠ .ok (.const c)) : t ∈ y.targets := by
  have hok := evaluate_ok hy
  cases hop : i.op with
  | jump target =>
    rw [hop] at hok ht
    rw [hok]
    exact ht
  | branch cond onTrue onFalse =>
    rw [hop] at hok ht
    obtain ⟨hcond, htargets⟩ := hok
    have hne : ∀ c, y.fact ≠ .const c := fun c hc => hopen hop (hc ▸ hcond)
    rw [mem_branchTargets htargets]
    rcases List.mem_cons.mp ht with rfl | ht
    · exact .inl ⟨rfl, hne 0⟩
    · exact .inr ⟨List.mem_singleton.mp ht, hne 1⟩
  | _ =>
    rw [hop] at ht
    cases ht

/-- Where branches are folded, an edge that is left at a reached block leads to a reached block. -/
theorem Folded.reached_of_edge (h : Folded f ((s.solution f.name).folding o f) g) (hp : f.Placed)
    (hwf : f.WellFormed) (hrest : AtRest f s) (hd : ((s.solution f.name).folding o f).Justified f
      (s.solution f.name)) (hbranches : o.foldBranches = true) {a : BlockId}
    (ha : s.visits.reached a = true) (ht : t ∈ g.succs a) : s.visits.reached t = true := by
  obtain ⟨i, hi, rfl, -, ht⟩ := h.exists_edge hp hwf hd ht
  obtain ⟨x, y, -, hy, -, htargets⟩ := hrest.settled hi ha
  apply htargets
  rcases hd.op_cases hi with ⟨hjump, hop⟩ | ⟨target, -, hdecides, hop⟩
  · rw [hop, Op.successors_mapOperands] at ht
    refine mem_targets_of_undecided hy ht fun {cond onTrue onFalse c} hbranch hc => ?_
    -- a constant condition is zero or one, and the branch would have become a jump
    have hstays : ∀ target, ¬ (s.solution f.name).Decides i target := by
      intro target hdecides
      rw [Solution.jumps_folding hi] at hjump
      rw [Solution.jumpFor?_eq_some.mpr
        ⟨hbranches, (State.reached_solution ..).trans ha, hdecides⟩] at hjump
      cases hjump
    rcases hrest.condition hi hbranch ha hc with rfl | rfl
    · exact hstays onFalse ⟨cond, onTrue, onFalse, hbranch,
        .inr ⟨State.operandConst?_solution.mpr hc, rfl⟩⟩
    · exact hstays onTrue ⟨cond, onTrue, onFalse, hbranch,
        .inl ⟨State.operandConst?_solution.mpr hc, rfl⟩⟩
  · rw [hop] at ht
    obtain rfl := List.mem_singleton.mp ht
    exact hdecides.mem_targets hy

theorem Folded.reached_of_reach (h : Folded f ((s.solution f.name).folding o f) g) (hp : f.Placed)
    (hwf : f.WellFormed) (hrest : AtRest f s) (hd : ((s.solution f.name).folding o f).Justified f
      (s.solution f.name)) (hbranches : o.foldBranches = true) {b : BlockId}
    (hb : g.graph.Reach Func.entry b) : s.visits.reached b = true := by
  induction hb with
  | refl => exact hrest.entry
  | tail _ hedge ih => exact h.reached_of_edge hp hwf hrest hd hbranches ih hedge.1

end After

/-- A valid function can be simplified by its solution. If branches are folded, the traversal from
the entry finds only reached blocks in what is left, and it finds every reached block in the
function as it was. -/
theorem preorder_between (name : String) (script : List Stmt) (edits : List Edit) (history : Bool)
    (f : Func) (hf : f = (Func.ofScript name script).edited edits) (hvalid : f.validate = .ok ())
    (r : Solution) (hsolve : f.solve history = .ok r) (o : Options)
    (hbranches : o.foldBranches = true) (pass : Option String) (events : EventLog)
    (notes : Array Note) :
    ∃ n w', simplify r o pass ⟨f, events, notes⟩ = .ok n w' ∧
      (∀ b ∈ w'.func.graph.preorder Func.entry, r.reached b = true) ∧
      ∀ b, r.reached b = true → b ∈ f.graph.preorder Func.entry := by
  have hcons : f.Consistent := hf ▸ Func.consistent_edited name script edits
  have hp := hcons.placed
  have hwf := Func.WellFormed.of_validate hp hvalid
  have hreach := fun b => solve_reach hp hcons.indexed hwf hsolve (b := b)
  obtain ⟨s, rfl, -, hrest⟩ := solve_atRest hp hcons.indexed hsolve
  obtain ⟨cs, hplan⟩ := hrest.exists_plan hp f.name o
  obtain ⟨w', hsimplify⟩ := exists_simplify_of_validate hcons hvalid hplan pass events notes
  obtain ⟨-, -, -, hfolded, hd, -⟩ := simplify_folding (w := ⟨f, events, notes⟩) hcons hwf hsimplify
  refine ⟨_, w', hsimplify, fun b hb => ?_, fun b hb => ?_⟩
  · rw [State.reached_solution]
    exact hfolded.reached_of_reach hp hwf hrest hd hbranches (Graph.mem_preorder.mp hb).2
  · exact Graph.mem_preorder.mpr ⟨hwf.nonempty, hreach b hb⟩

/-- A branch that comes before its condition, and a second one behind it on the same value. -/
def staleBranch : Func :=
  (Func.ofScript "f"
    [.reserve 1, .block 0 [.append (.branch (.value 0) 1 2)],
     .block 1 [.place 0 (.add (.const 1) (.const 0)), .append (.branch (.value 0) 4 3)],
     .block 2 [.append (.ret none)], .block 3 [.append (.ret none)],
     .block 4 [.append (.ret none)]]).edited [.replaceTerminator 4 (.ret (some (.value 0)))]

theorem preorder_between_staleBranch : staleBranch.validate = .ok () ∧
    ∃ r n w', staleBranch.solve false = .ok r ∧
      simplify r {} none ⟨staleBranch, .empty, #[]⟩ = .ok n w' ∧
      (∀ b ∈ w'.func.graph.preorder Func.entry, r.reached b = true) ∧
      (∀ b, r.reached b = true → b ∈ staleBranch.graph.preorder Func.entry) ∧
      (2 ∉ w'.func.graph.preorder Func.entry ∧ r.reached 2 = true) ∧
      (¬ r.reached 3 = true ∧ 3 ∈ staleBranch.graph.preorder Func.entry) := by
  have hvalid : staleBranch.validate = .ok () := by decide +kernel
  have hstrict : ∃ r ∈ (staleBranch.solve false).toOption, r.reached 2 = true ∧
      ¬ r.reached 3 = true ∧ 3 ∈ staleBranch.graph.preorder Func.entry ∧
      2 ∉ (staleBranch.folded (r.folding {} staleBranch)).graph.preorder Func.entry := by
    decide +kernel
  obtain ⟨r, hr, htwo, hthree, hbefore, hafter⟩ := hstrict
  have hsolve := eq_ok_of_mem_toOption hr
  obtain ⟨n, w', hsimplify, hsub, hsup⟩ := preorder_between "f" _ _ false staleBranch rfl hvalid r
    hsolve {} rfl none .empty #[]
  rw [← func_simplify (f := staleBranch) (Func.consistent_edited _ _ _) hvalid hsimplify] at hafter
  exact ⟨hvalid, r, n, w', hsolve, hsimplify, hsub, hsup, ⟨hafter, htwo⟩, hthree, hbefore⟩

end ConstFlow
