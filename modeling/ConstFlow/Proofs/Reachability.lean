import ConstFlow.Proofs.Least

/-!
# Why a block was reached

A block is made to wait when a terminator is visited that may pass control to it. By the end of the
run more is known of the conditions, and a branch that once allowed both edges may have been
decided.

* `FactMap.Selects` : the edges that an operation allows under given facts;
* `Led` : a block was made to wait at an earlier stage of the run (`Stage.led`);
* `FactMap.Selects.mono` : under higher facts an edge is still allowed, unless nothing was known of
  the condition and it became a constant;
* `solve_reached_from` : every reached block has a reached predecessor that selects it in the end,
  or that branched to it too early. On strict functions no branch comes too early.

`earlyBranch_not_selected` is a branch that comes before the definition of its condition.
-/

namespace ConstFlow

/-- The last instruction of a block. -/
def Func.terminator? (f : Func) (b : BlockId) : Option Instr :=
  ((f.block? b).bind Block.terminator?).bind f.instr?

/-- A branch whose condition has this fact may pass control to `b`. -/
def Fact.Allows (b onTrue onFalse : BlockId) : Fact → Prop
  | .const c => b = onTrue ∧ c = 1 ∨ b = onFalse ∧ c = 0
  | .unknown | .overdefined => b = onTrue ∨ b = onFalse

instance (b onTrue onFalse : BlockId) : (v : Fact) → Decidable (v.Allows b onTrue onFalse)
  | .const c => inferInstanceAs (Decidable (b = onTrue ∧ c = 1 ∨ b = onFalse ∧ c = 0))
  | .unknown | .overdefined => inferInstanceAs (Decidable (b = onTrue ∨ b = onFalse))

/-- Under the facts `m` the operation may pass control to `b`. -/
def FactMap.Selects (m : FactMap) (b : BlockId) : Op → Prop
  | .jump target => b = target
  | .branch cond onTrue onFalse => ∃ v ∈ (m.resolve cond).toOption, v.Allows b onTrue onFalse
  | _ => False

instance (m : FactMap) (b : BlockId) : (op : Op) → Decidable (m.Selects b op)
  | .jump target => inferInstanceAs (Decidable (b = target))
  | .branch cond onTrue onFalse =>
    inferInstanceAs (Decidable (∃ v ∈ (m.resolve cond).toOption, v.Allows b onTrue onFalse))
  | .ret _ | .compare .. | .phi _ | .add .. | .sub .. | .uninterpreted .. =>
    inferInstanceAs (Decidable False)

/-- The branch `i` was visited when nothing was known of its condition, and one of its edges leads
to `b`. In the end the condition is a constant. -/
def BranchedEarly (f : Func) (history : Bool) (r : Solution) (i : Instr) (b : BlockId) : Prop :=
  ∃ cond onTrue onFalse c s₀ s todo, i.op = .branch cond onTrue onFalse ∧
    (b = onTrue ∨ b = onFalse) ∧ r.facts.resolve cond = .ok (.const c) ∧
    State.start f history = .ok s₀ ∧ Stage State.Due f s₀ s (i.id :: todo) ∧
    s.facts.resolve cond = .ok .unknown

/-! ## Edges that are allowed -/

section Edges
variable {m m' : FactMap} {x : Visits} {i : Instr} {y : Yield} {b : BlockId}

theorem branchTargets_allows {a onTrue onFalse : BlockId} {v : Fact} {ts : List BlockId}
    (h : branchTargets a v onTrue onFalse = .ok ts) (hb : b ∈ ts) : v.Allows b onTrue onFalse := by
  have hedge := (mem_branchTargets h).mp hb
  cases v with
  | unknown => exact hedge.imp And.left And.left
  | overdefined => exact hedge.imp And.left And.left
  | const c =>
    unfold branchTargets at h
    dsimp only at h
    split at h
    · next hc => exact .inl ⟨(hedge.resolve_right fun he => he.2 (hc ▸ rfl)).1, hc⟩
    · split at h
      · next hc => exact .inr ⟨(hedge.resolve_left fun he => he.2 (hc ▸ rfl)).1, hc⟩
      · cases h

theorem evaluate_selects (h : evaluate m x i = .ok y) (hb : b ∈ y.targets) : m.Selects b i.op := by
  have hsucc := mem_successors_of_mem_targets h hb
  have hy := evaluate_ok h
  revert hy hsucc
  cases i.op with
  | jump target => exact fun hsucc _ => List.mem_singleton.mp hsucc
  | branch cond onTrue onFalse =>
    rintro - ⟨hcond, htargets⟩
    exact ⟨y.fact, by rw [hcond]; rfl, branchTargets_allows htargets hb⟩
  | _ => exact fun hsucc _ => absurd hsucc List.not_mem_nil

/-- An edge that was allowed is allowed under higher facts, unless nothing was known of the
condition and it became a constant. -/
theorem FactMap.Selects.mono {op : Op} (h : m.Selects b op) (hm : m ≤ m') :
    m'.Selects b op ∨ ∃ cond onTrue onFalse c, op = .branch cond onTrue onFalse ∧
      (b = onTrue ∨ b = onFalse) ∧ m'.resolve cond = .ok (.const c) ∧
      m.resolve cond = .ok .unknown := by
  cases op with
  | jump target => exact .inl h
  | branch cond onTrue onFalse =>
    obtain ⟨v, hv, hallows⟩ := h
    have hv := eq_ok_of_mem_toOption hv
    obtain ⟨v', hv', hle⟩ := FactMap.resolve_mono hm hv
    have hselects : v'.Allows b onTrue onFalse → m'.Selects b (.branch cond onTrue onFalse) :=
      fun hallows => ⟨v', by rw [hv']; rfl, hallows⟩
    have hedge : b = onTrue ∨ b = onFalse := by
      cases v with
      | const c => exact hallows.imp And.left And.left
      | unknown => exact hallows
      | overdefined => exact hallows
    cases v' with
    | unknown => exact .inl (hselects hedge)
    | overdefined => exact .inl (hselects hedge)
    | const c' =>
      -- the condition was this constant before, or nothing was known of it
      cases v with
      | unknown => exact .inr ⟨cond, onTrue, onFalse, c', rfl, hedge, hv', hv⟩
      | const c => exact .inl (hselects (Fact.const_le_const.mp hle ▸ hallows))
      | overdefined => exact absurd (Fact.overdefined_le.mp hle) Fact.noConfusion
  | _ => exact h.elim

end Edges

/-! ## Blocks that were led to -/

theorem Stride.facts_le {f : Func} {s s' : State} {todo todo' : List InstrId}
    (h : Stride f s todo s' todo') : s.facts ≤ s'.facts := by
  cases h with
  | visit hv => exact hv.le
  | pass _ _ hfacts => exact hfacts ▸ FactMap.le_refl _
  | enter _ _ hfacts => exact hfacts ▸ FactMap.le_refl _
  | take _ hfacts => exact hfacts ▸ FactMap.le_refl _

theorem Stride.within {f : Func} {s s' : State} {todo todo' : List InstrId}
    (h : Stride f s todo s' todo') : s.visits.Within s'.visits := by
  cases h with
  | visit hv => exact hv.visits ▸ Visits.Within.refl _
  | pass _ _ _ hvisits => exact hvisits ▸ Visits.Within.refl _
  | enter _ _ _ hvisits => exact fun a ha => ((Visits.enter_cases hvisits).2.2 a).mpr (.inr ha)
  | take _ _ hvisits => exact hvisits ▸ Visits.Within.refl _

/-- A stride reaches only blocks that waited, and makes only targets of the visit wait. -/
theorem Stride.reaches {f : Func} {s s' : State} {todo todo' : List InstrId} {b : BlockId}
    (h : Stride f s todo s' todo') (hb : s'.visits.reached b = true ∨ b ∈ s'.blocks.pending) :
    (s.visits.reached b = true ∨ b ∈ s.blocks.pending) ∨ ∃ i rest y, todo = i.id :: rest ∧
      f.instr? i.id = some i ∧ evaluate s.facts s.visits i = .ok y ∧ b ∈ y.targets := by
  cases h with
  | visit hv =>
    rw [hv.visits, hv.blocks] at hb
    rcases hb with hb | hb | htarget
    · exact .inl (.inl hb)
    · exact .inl (.inr hb)
    · exact .inr ⟨_, _, _, rfl, hv.live, hv.yields, htarget⟩
  | pass _ _ _ hvisits hblocks =>
    rw [hvisits, hblocks] at hb
    exact .inl (hb.imp_right And.left)
  | enter hwaiting _ _ hvisits hblocks =>
    rw [(Visits.enter_cases hvisits).2.2, hblocks] at hb
    rcases hb with (rfl | hb) | hb
    · exact .inl (.inr hwaiting)
    · exact .inl (.inl hb)
    · exact .inl (.inr hb.1)
  | take _ _ hvisits hblocks =>
    rw [hvisits, hblocks] at hb
    exact .inl hb

section Stages
variable {due : State → Task → Prop} {f : Func} {s₀ s s' : State} {i : Instr} {b : BlockId}
  {todo todo' : List InstrId}

/-- At an earlier stage of the run an instruction was visited that allows an edge to `b`. -/
def Led (due : State → Task → Prop) (f : Func) (s₀ s : State) (b : BlockId) : Prop :=
  ∃ i s₁ todo y, f.instr? i.id = some i ∧ Stage due f s₀ s₁ (i.id :: todo) ∧ s₁.facts ≤ s.facts ∧
    s₁.visits.Within s.visits ∧ evaluate s₁.facts s₁.visits i = .ok y ∧ b ∈ y.targets

theorem Led.mono (h : Led due f s₀ s b) (hm : s.facts ≤ s'.facts)
    (hx : s.visits.Within s'.visits) : Led due f s₀ s' b := by
  obtain ⟨i, s₁, todo, y, hi, hstage, hfacts, hvisits, hy, hb⟩ := h
  exact ⟨i, s₁, todo, y, hi, hstage, FactMap.le_trans hfacts hm, hvisits.trans hx, hy, hb⟩

theorem Stride.led (hstage : Stage due f s₀ s todo) (h : Stride f s todo s' todo')
    (hb : s'.visits.reached b = true ∨ b ∈ s'.blocks.pending) :
    (s.visits.reached b = true ∨ b ∈ s.blocks.pending) ∨ Led due f s₀ s' b := by
  rcases h.reaches hb with hb | ⟨i, rest, y, rfl, hi, hy, htarget⟩
  · exact .inl hb
  · exact .inr ⟨i, s, rest, y, hi, hstage, h.facts_le, h.within, hy, htarget⟩

/-- Every block but the entry that was reached, or waits, was led to. -/
theorem Stage.led (hp : f.Placed) (hinit : s₀.Initial f) (ht : s₀.Tidy f)
    (h : Stage due f s₀ s todo) (hb : s.visits.reached b = true ∨ b ∈ s.blocks.pending) :
    b = Func.entry ∨ Led due f s₀ s b := by
  have hall : ∀ b, s.visits.reached b = true ∨ b ∈ s.blocks.pending →
      b = Func.entry ∨ Led due f s₀ s b := by
    refine (h.induct (I := fun s _ => ∀ b, s.visits.reached b = true ∨ b ∈ s.blocks.pending →
      b = Func.entry ∨ Led due f s₀ s b) hp ?_ ht ?_).2
    · intro s s' todo todo' hstage _ hI hstride b hb
      rcases hstride.led hstage hb with hb | hled
      · exact (hI b hb).imp_right fun hled => hled.mono hstride.facts_le hstride.within
      · exact .inr hled
    · exact fun b hb => .inl ((hinit.blocks b).mp (hb.resolve_left (hinit.unreached b)))
  exact hall b hb

end Stages

/-! ## Reached blocks of the result -/

theorem Func.WellFormed.terminator?_eq {f : Func} (h : f.WellFormed) (hp : f.Placed) {i : Instr}
    (hi : f.instr? i.id = some i) (hterm : i.op.isTerminator = true) :
    f.terminator? i.block = some i := by
  obtain ⟨blk, hblk, -⟩ := hp.listed hi
  rw [Func.terminator?, hblk, Option.bind_some, Block.terminator?,
    (h.last_iff hp hblk hi).mp hterm, Option.bind_some, hi]

/-- On a strict function no branch comes too early. -/
theorem Func.Strict.not_branchedEarly {f : Func} (hstrict : f.Strict) (hp : f.Placed)
    (hwf : f.WellFormed)
    (hpreds : ∀ {a b : BlockId}, b < f.blockCount → b ∈ f.succs a → a ∈ f.preds b)
    (hentry : ∀ i ∈ f.blockInstrs Func.entry, i.op.isPhi = false) {history : Bool} {r : Solution}
    {i : Instr} (hi : f.instr? i.id = some i) {b : BlockId} :
    ¬ BranchedEarly f history r i b := by
  rintro ⟨cond, onTrue, onFalse, c, s₀, s, todo, hop, -, -, hstart, hstage, hunknown⟩
  obtain ⟨hinit, ht⟩ := State.initial_start hp hstart
  have hpaced : Paced f s (i.id :: todo) :=
    hstage.invariant hp (paced_kept hp hwf hstrict hpreds hentry) ht (paced_initial hinit)
  exact hpaced.operand_known hp hstrict hi (by rw [hop]; rfl)
    (by rw [hop]; exact List.mem_cons_self) hunknown rfl

/-- Every reached block other than the entry has a reached predecessor whose terminator selects it
under the final facts, or whose branch to it came too early: it was visited when nothing was known
of its condition, which is decided in the end. On a strict function whose entry block has no phi it
is selected. -/
theorem solve_reached_from (name : String) (script : List Stmt) (history : Bool) (r : Solution)
    (hvalid : (Func.ofScript name script).validate = .ok ())
    (hsolve : (Func.ofScript name script).solve history = .ok r) (b : BlockId)
    (hb : r.reached b = true) (hne : b ≠ Func.entry) :
    ∃ p ∈ (Func.ofScript name script).preds b, r.reached p = true ∧
      ∃ i, (Func.ofScript name script).terminator? p = some i ∧
        (r.facts.Selects b i.op ∨ BranchedEarly (Func.ofScript name script) history r i b) ∧
        ((Func.ofScript name script).Strict →
          (∀ j ∈ (Func.ofScript name script).blockInstrs Func.entry, j.op.isPhi = false) →
          r.facts.Selects b i.op) := by
  have hp := Func.placed_ofScript name script
  have hwf := Func.WellFormed.of_validate hp hvalid
  obtain ⟨s₀, s, hstart, hstage, -, -, rfl⟩ := solve_stage hp hsolve
  obtain ⟨hinit, ht⟩ := State.initial_start hp hstart
  rw [State.reached_solution] at hb
  obtain ⟨i, s₁, todo, y, hi, hstage₁, hfacts, hvisits, hy, htarget⟩ :=
    (hstage.led hp hinit ht (.inl hb)).resolve_left hne
  -- the block of the visit is the predecessor, and what was visited there is its terminator
  have hsucc := mem_successors_of_mem_targets hy htarget
  have hterm := Op.isTerminator_of_mem_successors hsucc
  have hedge : b ∈ (Func.ofScript name script).succs i.block := by
    rw [hwf.succs_eq hp hi hterm]
    exact hsucc
  have hpred := Func.mem_preds_ofScript.mpr ⟨(hwf.fits hi).target b hsucc, hedge⟩
  have hsettling := hstage₁.invariant hp
    (settling_kept hp (Func.indexed_ofScript name script)) ht (settling_initial hinit)
  obtain ⟨j, hj, hreached⟩ := State.isActive_iff.mp (hsettling.active i.id List.mem_cons_self)
  obtain rfl : j = i := Option.some.inj (hj.symm.trans hi)
  have hselects : s.facts.Selects b j.op ∨
      BranchedEarly (Func.ofScript name script) history (s.solution name) j b := by
    rcases (evaluate_selects hy htarget).mono hfacts with
      hselects | ⟨cond, onTrue, onFalse, c, hop, hedge, hconst, hunknown⟩
    · exact .inl hselects
    · exact .inr ⟨cond, onTrue, onFalse, c, s₀, s₁, todo, hop, hedge, hconst, hstart, hstage₁,
        hunknown⟩
  refine ⟨j.block, hpred, ?_, j, hwf.terminator?_eq hp hi hterm, hselects, fun hstrict hentry => ?_⟩
  · rw [State.reached_solution]
    exact hvisits _ hreached
  · refine hselects.resolve_right (hstrict.not_branchedEarly hp hwf ?_ hentry hi)
    exact fun hlt hedge => Func.mem_preds_ofScript.mpr ⟨hlt, hedge⟩

theorem solve_reached_from_countingLoop :
    ∃ r, (Func.ofScript "count" countingLoop).solve false = .ok r ∧ r.reached 2 = true ∧
      ∃ p ∈ (Func.ofScript "count" countingLoop).preds 2, r.reached p = true ∧
        ∃ i, (Func.ofScript "count" countingLoop).terminator? p = some i ∧
          r.facts.Selects 2 i.op := by
  have hreached : ∃ r ∈ ((Func.ofScript "count" countingLoop).solve false).toOption,
      r.reached 2 = true := by
    decide +kernel
  obtain ⟨r, hr, htwo⟩ := hreached
  have hsolve := eq_ok_of_mem_toOption hr
  obtain ⟨p, hp, hpr, i, hi, -, hselects⟩ := solve_reached_from "count" countingLoop false r
    (by decide +kernel) hsolve 2 htwo (by decide)
  exact ⟨r, hsolve, htwo, p, hp, hpr, i, hi,
    hselects countingLoop_strict (by decide +kernel)⟩

/-- A branch on a value that is defined in one of its targets. -/
def earlyBranch : List Stmt :=
  [.reserve 1, .block 0 [.append (.branch (.value 0) 1 2)],
   .block 1 [.place 0 (.add (.const 1) (.const 0)), .append (.ret none)],
   .block 2 [.append (.ret none)]]

/-- A reached block need not be selected by any of its predecessors in the end: both edges of the
branch are allowed when it is visited, and then its condition turns out to be one. -/
theorem earlyBranch_not_selected :
    ¬ ∀ (name : String) (script : List Stmt) (history : Bool) (r : Solution),
    (Func.ofScript name script).validate = .ok () →
    (Func.ofScript name script).solve history = .ok r → ∀ b, r.reached b = true → b ≠ Func.entry →
      ∃ p ∈ (Func.ofScript name script).preds b, r.reached p = true ∧
        ∃ i, (Func.ofScript name script).terminator? p = some i ∧ r.facts.Selects b i.op := by
  intro h
  have hrun : ∃ r ∈ ((Func.ofScript "f" earlyBranch).solve false).toOption, r.reached 2 = true ∧
      ∀ p ∈ (Func.ofScript "f" earlyBranch).preds 2,
        ∀ i ∈ (Func.ofScript "f" earlyBranch).terminator? p, ¬ r.facts.Selects 2 i.op := by
    decide +kernel
  obtain ⟨r, hr, htwo, hnone⟩ := hrun
  obtain ⟨p, hp, -, i, hi, hselects⟩ := h "f" earlyBranch false r (by decide +kernel)
    (eq_ok_of_mem_toOption hr) 2 htwo (by decide)
  exact hnone p hp i hi hselects

end ConstFlow
