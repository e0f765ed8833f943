import ConstFlow.Proofs.Edits
import ConstFlow.Proofs.Quiescence

/-!
# Executions, and what the analysis says about them

An `Execution` takes a function from its entry block through real words. It gets stuck where an
instruction reads a value that was not computed, or the undefined operand, where a phi has no entry
for the block that control came from, and where a condition is neither zero nor one. Operations
without a rule may give any result. What happens on the way is kept as a list of marks.

Phis that stand together may be read in two ways, one after another or all at once when the block is
entered. `Timing` leaves the choice open, and everything below holds for both.

* `Op.Gives.le_fact` : a word that an instruction computes is covered by the fact it is evaluated
  to, if the words it reads are covered;
* `Execution.tracked` : on every execution the blocks are reached and the values covered, for the
  state in which the analysis comes to rest;
* `solve_sound` : the same, said of the marks of an execution and of the solution.
-/

namespace ConstFlow

/-! ## Execution -/

/-- The values computed so far. -/
abbrev Env := InstrId → Option Int64

/-- No value was computed. -/
def Env.empty : Env := fun _ => none

/-- A value is computed, for the first time or again. -/
def Env.set (env : Env) (id : InstrId) (v : Int64) : Env :=
  fun k => if k = id then some v else env k

/-- The word that an operand stands for. -/
def Operand.read (env : Env) : Operand → Option Int64
  | .const c => some c
  | .value id => env id
  | .undef => none

/-- The time at which phis read their operands. -/
inductive Timing where
  /-- Every phi when its turn comes. -/
  | inTurn
  /-- All phis of a block when the block is entered. -/
  | onEntry

/-- What can be told of an execution. -/
inductive Mark where
  | enters (b : BlockId)
  | computes (id : InstrId) (v : Int64)
  | shows (name : String) (args : List Int64) (result : Int64)
  | returns (v : Option Int64)

/-- Where an execution stands: the block, what is left of it, the block that control came from, and
the values when the block was entered and now. -/
structure Point where
  block : BlockId
  todo : List InstrId
  came : Option BlockId
  entry : Env
  env : Env

namespace Point

/-- The values that a phi reads. -/
def phiEnv (t : Timing) (c : Point) : Env :=
  match t with
  | .inTurn => c.env
  | .onEntry => c.entry

/-- The first instruction is done and computed a value. -/
def set (c : Point) (id : InstrId) (v : Int64) (rest : List InstrId) : Point :=
  { c with todo := rest, env := c.env.set id v }

/-- Control passes to a block. -/
def enter (c : Point) (b : BlockId) (blk : Block) : Point :=
  { block := b, todo := blk.instrs, came := some c.block, entry := c.env, env := c.env }

end Point

/-- The operation computes a word by its rule. -/
inductive Op.Gives (t : Timing) (c : Point) : Op → Int64 → Prop
  | compare {p : Predicate} {left right : Operand} {a b : Int64}
      (hleft : left.read c.env = some a) (hright : right.read c.env = some b) :
      Op.Gives t c (.compare p left right) (p.word a b)
  | add {left right : Operand} {a b : Int64}
      (hleft : left.read c.env = some a) (hright : right.read c.env = some b) :
      Op.Gives t c (.add left right) (a + b)
  | sub {left right : Operand} {a b : Int64}
      (hleft : left.read c.env = some a) (hright : right.read c.env = some b) :
      Op.Gives t c (.sub left right) (a - b)
  | phi {inputs : List PhiInput} {p : PhiInput} {v : Int64} (hmem : p ∈ inputs)
      (hcame : c.came = some p.pred) (hvalue : p.value.read (c.phiEnv t) = some v) :
      Op.Gives t c (.phi inputs) v

/-- The operation passes control to a block. -/
inductive Op.Goes (env : Env) : Op → BlockId → Prop
  | jump {target : BlockId} : Op.Goes env (.jump target) target
  | onTrue {cond : Operand} {onTrue onFalse : BlockId} (hcond : cond.read env = some 1) :
      Op.Goes env (.branch cond onTrue onFalse) onTrue
  | onFalse {cond : Operand} {onTrue onFalse : BlockId} (hcond : cond.read env = some 0) :
      Op.Goes env (.branch cond onTrue onFalse) onFalse

/-- One instruction is executed. -/
inductive Step (t : Timing) (f : Func) (c : Point) : List Mark → Point → Prop
  | value {id : InstrId} {rest : List InstrId} {i : Instr} {v : Int64} (todo : c.todo = id :: rest)
      (instr : f.instr? id = some i) (gives : i.op.Gives t c v) :
      Step t f c [.computes id v] (c.set id v rest)
  | call {id : InstrId} {rest : List InstrId} {i : Instr} {name : String} {args : List Operand}
      {vs : List Int64} {v : Int64} (todo : c.todo = id :: rest) (instr : f.instr? id = some i)
      (op : i.op = .uninterpreted name args) (reads : args.mapM (·.read c.env) = some vs) :
      Step t f c [.computes id v, .shows name vs v] (c.set id v rest)
  | pass {id : InstrId} {rest : List InstrId} {i : Instr} {b : BlockId} {blk : Block}
      (todo : c.todo = id :: rest) (instr : f.instr? id = some i) (goes : i.op.Goes c.env b)
      (block : f.block? b = some blk) : Step t f c [.enters b] (c.enter b blk)
  | leave {id : InstrId} {rest : List InstrId} {i : Instr} (todo : c.todo = id :: rest)
      (instr : f.instr? id = some i) (op : i.op = .ret none) :
      Step t f c [.returns none] { c with todo := [] }
  | leaveWith {id : InstrId} {rest : List InstrId} {i : Instr} {value : Operand} {v : Int64}
      (todo : c.todo = id :: rest) (instr : f.instr? id = some i) (op : i.op = .ret (some value))
      (reads : value.read c.env = some v) : Step t f c [.returns (some v)] { c with todo := [] }

/-- A finite execution from the entry block, with its marks and the point that it came to. -/
inductive Execution (t : Timing) (f : Func) : List Mark → Point → Prop
  | start {blk : Block} (block : f.block? Func.entry = some blk) :
      Execution t f [.enters Func.entry] ⟨Func.entry, blk.instrs, none, .empty, .empty⟩
  | step {marks new : List Mark} {c c' : Point} (before : Execution t f marks c)
      (step : Step t f c new c') : Execution t f (marks ++ new) c'

/-! ## Facts that cover values -/

namespace FactMap
variable {m : FactMap} {env : Env}

/-- Every value computed so far is covered by its fact. -/
def Covers (m : FactMap) (env : Env) : Prop :=
  ∀ id v, env id = some v → ∃ a, m.get? id = some a ∧ .const v ≤ a

theorem covers_empty (m : FactMap) : m.Covers .empty :=
  fun _ _ h => nomatch h

theorem Covers.set (h : m.Covers env) {id : InstrId} {v : Int64} {a : Fact}
    (ha : m.get? id = some a) (hle : .const v ≤ a) : m.Covers (env.set id v) := by
  intro k w hw
  unfold Env.set at hw
  split at hw
  · next hk =>
    cases hw
    exact ⟨a, hk ▸ ha, hle⟩
  · exact h k w hw

theorem Covers.resolve (h : m.Covers env) {o : Operand} {v : Int64} (ho : o.read env = some v) :
    ∃ a, m.resolve o = .ok a ∧ .const v ≤ a := by
  cases o with
  | const c =>
    cases ho
    exact ⟨.const v, rfl, le_rfl⟩
  | undef => cases ho
  | value id =>
    obtain ⟨a, ha, hle⟩ := h id v ho
    exact ⟨a, FactMap.get_eq_ok.mpr ha, hle⟩

end FactMap

theorem Fact.const_le_iff {a : Fact} {v : Int64} :
    .const v ≤ a ↔ a = .overdefined ∨ a = .const v := by
  cases a <;> simp [eq_comm]

/-! ## Executions stay within the solution -/

section Tracking
variable {t : Timing} {f : Func} {s : State} {c c' : Point} {marks : List Mark} {i : Instr}

/-- The point lies where the state at rest expects it: in a reached block, come from a reached block
by an edge, and with values that the facts cover. -/
structure Tracked (f : Func) (s : State) (c : Point) : Prop where
  reached : s.visits.reached c.block = true
  owned : ∀ id ∈ c.todo, ∃ i, f.instr? id = some i ∧ i.block = c.block
  came : ∀ {b : BlockId}, c.came = some b → s.visits.reached b = true ∧ c.block ∈ f.succs b
  entry : s.facts.Covers c.entry
  env : s.facts.Covers c.env

theorem Tracked.phiEnv (h : Tracked f s c) (t : Timing) : s.facts.Covers (c.phiEnv t) := by
  cases t with
  | inTurn => exact h.env
  | onEntry => exact h.entry

/-- A computed word is covered by the fact that the instruction is evaluated to, under visits that
hold all edges into its block. -/
theorem Op.Gives.le_fact {v : Int64} (hv : i.op.Gives t c v) (h : Tracked f s c)
    (hblock : i.block = c.block) {x : Visits} {y : Yield} (hsees : Sees f i x s.visits)
    (hy : evaluate s.facts x i = .ok y) : .const v ≤ y.fact := by
  have hlift : ∀ {g : Int64 → Int64 → Int64} {left right : Operand} {a b : Int64},
      left.read c.env = some a → right.read c.env = some b →
      (∃ a b, s.facts.resolve left = .ok a ∧ s.facts.resolve right = .ok b ∧
        y = ⟨a.lift₂ g b, []⟩) →
      Fact.const (g a b) ≤ y.fact := by
    rintro g left right a b hleft hright ⟨a', b', ha', hb', rfl⟩
    obtain ⟨a'', ha'', hle⟩ := h.env.resolve hleft
    obtain ⟨b'', hb'', hle'⟩ := h.env.resolve hright
    obtain rfl : a'' = a' := Except.ok.inj (ha''.symm.trans ha')
    obtain rfl : b'' = b' := Except.ok.inj (hb''.symm.trans hb')
    exact Fact.lift₂_mono g hle hle'
  have hyield := evaluate_ok hy
  have hedge := hsees.edge
  generalize i.op = op at hv hyield hedge
  cases hv with
  | compare hleft hright => exact hlift hleft hright hyield
  | add hleft hright => exact hlift hleft hright hyield
  | sub hleft hright => exact hlift hleft hright hyield
  | @phi _ p _ hmem hcame hvalue =>
    obtain ⟨hreached, hsucc⟩ := h.came hcame
    obtain ⟨a, ha, hle⟩ := (h.phiEnv t).resolve hvalue
    -- the entry counts: it is defined, and the edge that control took is seen
    have hcounts : p.counts x = true := by
      refine PhiInput.counts_iff.mpr ⟨fun hundef => ?_, hedge p hmem hreached (hblock ▸ hsucc)⟩
      rw [hundef] at hvalue
      cases hvalue
    exact hle.trans (le_evalPhi_of_mem hyield.1 hmem hcounts ha)

/-- Control passes only along edges that the evaluation allows. -/
theorem Op.Goes.mem_targets {b : BlockId} (hb : i.op.Goes c.env b) (h : s.facts.Covers c.env)
    {x : Visits} {y : Yield} (hy : evaluate s.facts x i = .ok y) : b ∈ y.targets := by
  have hyield := evaluate_ok hy
  -- the fact of a condition covers the word read, so it is not another constant
  have hne : ∀ {cond : Operand} {k k' : Int64}, s.facts.resolve cond = .ok y.fact →
      cond.read c.env = some k → k ≠ k' → y.fact ≠ .const k' := by
    intro cond k k' hcond hread hkk' hfact
    obtain ⟨a, ha, hle⟩ := h.resolve hread
    obtain rfl : a = y.fact := Except.ok.inj (ha.symm.trans hcond)
    rw [hfact, Fact.const_le_const] at hle
    exact hkk' hle
  generalize i.op = op at hb hyield
  cases hb with
  | jump =>
    obtain rfl := hyield
    exact List.mem_singleton.mpr rfl
  | onTrue hread =>
    obtain ⟨hcond, htargets⟩ := hyield
    exact (mem_branchTargets htargets).mpr (.inl ⟨rfl, hne hcond hread (by decide)⟩)
  | onFalse hread =>
    obtain ⟨hcond, htargets⟩ := hyield
    exact (mem_branchTargets htargets).mpr (.inr ⟨rfl, hne hcond hread (by decide)⟩)

/-- What a mark says of the state at rest. -/
def Mark.Expected (s : State) : Mark → Prop
  | .enters b => s.visits.reached b = true
  | .computes id v => ∃ a, s.facts.get? id = some a ∧ .const v ≤ a
  | .shows _ _ _ | .returns _ => True

theorem Tracked.set (h : Tracked f s c) {id : InstrId} {rest : List InstrId} {v : Int64} {a : Fact}
    (htodo : c.todo = id :: rest) (ha : s.facts.get? id = some a) (hle : .const v ≤ a) :
    Tracked f s (c.set id v rest) where
  reached := h.reached
  owned j hj := h.owned j (htodo ▸ List.mem_cons_of_mem _ hj)
  came := h.came
  entry := h.entry
  env := h.env.set ha hle

/-- One step keeps to what the state at rest expects. -/
theorem Step.tracked (hstep : Step t f c marks c') (hrest : AtRest f s) (hp : f.Placed)
    (hwf : f.WellFormed) (h : Tracked f s c) :
    Tracked f s c' ∧ ∀ k ∈ marks, k.Expected s := by
  have hlive : ∀ {id : InstrId} {rest : List InstrId} {i : Instr}, c.todo = id :: rest →
      f.instr? id = some i → i.block = c.block := by
    intro id rest i htodo hi
    obtain ⟨j, hj, hb⟩ := h.owned id (htodo ▸ List.mem_cons_self)
    obtain rfl : j = i := Option.some.inj (hj.symm.trans hi)
    exact hb
  cases hstep with
  | value htodo hi hgives =>
    have hb := hlive htodo hi
    obtain ⟨x, y, hsees, hy, hfact, -⟩ := hrest.settled hi (hb ▸ h.reached)
    have hle := hgives.le_fact h hb hsees hy
    exact ⟨h.set htodo hfact hle, List.forall_mem_singleton.mpr ⟨_, hfact, hle⟩⟩
  | @call _ _ _ _ _ vs v htodo hi hop hreads =>
    obtain ⟨x, y, -, hy, hfact, -⟩ := hrest.settled hi (hlive htodo hi ▸ h.reached)
    have hyield := evaluate_ok hy
    rw [hop] at hyield
    have hle : Fact.const v ≤ y.fact := by
      rw [hyield]
      exact Fact.le_overdefined _
    exact ⟨h.set htodo hfact hle,
      List.forall_mem_cons.mpr ⟨⟨_, hfact, hle⟩, List.forall_mem_singleton.mpr trivial⟩⟩
  | @pass _ _ i b blk htodo hi hgoes hblk =>
    have hb := hlive htodo hi
    obtain ⟨x, y, hsees, hy, -, htargets⟩ := hrest.settled hi (hb ▸ h.reached)
    have hmem := hgoes.mem_targets h.env hy
    have hsucc := mem_successors_of_mem_targets hy hmem
    refine ⟨⟨htargets b hmem, fun id hid => (hp.mem hblk id).mp hid, ?_, h.env, h.env⟩,
      List.forall_mem_singleton.mpr (htargets b hmem)⟩
    rintro a ha
    obtain rfl : c.block = a := Option.some.inj ha
    refine ⟨h.reached, ?_⟩
    show b ∈ f.succs c.block
    rw [← hb, hwf.succs_eq hp hi (Op.isTerminator_of_mem_successors hsucc)]
    exact hsucc
  | leave htodo hi hop =>
    exact ⟨{ h with owned := fun id hid => absurd hid List.not_mem_nil },
      List.forall_mem_singleton.mpr trivial⟩
  | leaveWith htodo hi hop hreads =>
    exact ⟨{ h with owned := fun id hid => absurd hid List.not_mem_nil },
      List.forall_mem_singleton.mpr trivial⟩

/-- Every execution keeps to what the state at rest expects. -/
theorem Execution.tracked (hexec : Execution t f marks c) (hrest : AtRest f s) (hp : f.Placed)
    (hwf : f.WellFormed) : Tracked f s c ∧ ∀ k ∈ marks, k.Expected s := by
  induction hexec with
  | start hblk =>
    exact ⟨⟨hrest.entry, fun id hid => (hp.mem hblk id).mp hid, (fun h => nomatch h),
      FactMap.covers_empty _, FactMap.covers_empty _⟩, List.forall_mem_singleton.mpr hrest.entry⟩
  | step _ hstep ih =>
    obtain ⟨htracked, hnew⟩ := hstep.tracked hrest hp hwf ih.1
    exact ⟨htracked, List.forall_mem_append.mpr ⟨ih.2, hnew⟩⟩

end Tracking

/-- On every execution of a valid function, built from a script and edited at will, the blocks
entered are reached in the solution, and every word computed is the constant that the solution gives
or the solution says that there is no single constant. -/
theorem solve_sound (name : String) (script : List Stmt) (edits : List Edit) (history : Bool)
    (r : Solution) (hvalid : ((Func.ofScript name script).edited edits).validate = .ok ())
    (hsolve : ((Func.ofScript name script).edited edits).solve history = .ok r)
    (t : Timing) (marks : List Mark) (c : Point)
    (hexec : Execution t ((Func.ofScript name script).edited edits) marks c) :
    (∀ b, .enters b ∈ marks → r.reached b = true) ∧
    ∀ id v, .computes id v ∈ marks →
      r.fact? id = some .overdefined ∨ r.fact? id = some (.const v) := by
  obtain ⟨hp, hindexed⟩ := Func.consistent_edited name script edits
  obtain ⟨s, rfl, -, hrest⟩ := solve_atRest hp hindexed hsolve
  have hmarks := (hexec.tracked hrest hp (.of_validate hp hvalid)).2
  refine ⟨fun b hb => ?_, fun id v hv => ?_⟩
  · rw [State.reached_solution]
    exact hmarks _ hb
  · obtain ⟨a, ha, hle⟩ := hmarks _ hv
    rw [State.fact?_solution, ha, Option.some.injEq, Option.some.injEq]
    exact Fact.const_le_iff.mp hle

/-- The loop with its result edited, so that it returns the value before the last. -/
def editedLoop : Func :=
  (Func.ofScript "count" countingLoop).edited
    [.replaceTerminator 2 (.ret (some (.value 2))), .recomputePreds]

theorem solve_sound_editedLoop : ∃ r marks c, editedLoop.validate = .ok () ∧
    editedLoop.solve false = .ok r ∧ Execution .onEntry editedLoop marks c ∧
    .enters 1 ∈ marks ∧ .computes 3 1 ∈ marks ∧
    (∀ b, .enters b ∈ marks → r.reached b = true) ∧
    ∀ id v, .computes id v ∈ marks →
      r.fact? id = some .overdefined ∨ r.fact? id = some (.const v) := by
  obtain ⟨r, hr⟩ := exists_ok_of_isOk (e := editedLoop.solve false) (by decide +kernel)
  have hvalid : editedLoop.validate = .ok () := by decide +kernel
  have h₀ : Execution .onEntry editedLoop _ _ :=
    .start (by decide +kernel : editedLoop.block? 0 = some ⟨0, [0, 1], []⟩)
  have h₁ := h₀.step (.value rfl
    (by decide +kernel : editedLoop.instr? 0 = some ⟨0, 0, .compare .eq (.const 1) (.const 1)⟩)
    (.compare rfl rfl))
  have h₂ := h₁.step (.pass rfl
    (by decide +kernel : editedLoop.instr? 1 = some ⟨1, 0, .branch (.value 0) 1 3⟩) (.onTrue rfl)
    (by decide +kernel : editedLoop.block? 1 = some ⟨1, [2, 3, 4, 5], [0, 1]⟩))
  have h₃ := h₂.step (.value rfl
    (by decide +kernel : editedLoop.instr? 2 = some ⟨2, 1, .phi [⟨.const 0, 0⟩, ⟨.value 3, 1⟩]⟩)
    (.phi List.mem_cons_self rfl rfl))
  have hexec := h₃.step (.value rfl
    (by decide +kernel : editedLoop.instr? 3 = some ⟨3, 1, .add (.value 2) (.const 1)⟩)
    (.add rfl rfl))
  exact ⟨r, _, _, hvalid, hr, hexec, by simp, by simp, solve_sound "count" countingLoop
    [.replaceTerminator 2 (.ret (some (.value 2))), .recomputePreds] false r hvalid hr .onEntry _ _
    hexec⟩

end ConstFlow
