import ConstFlow.Proofs.Execution
import ConstFlow.Proofs.Folding

/-!
# Constant propagation keeps the meaning

Every execution of a function is followed by an execution of what the pass leaves of it. The second
one stands at the same block, skips the instructions that became constants, and reads those
constants where the first one reads their values. That the constants are the values is
`Execution.tracked`; a decided branch goes where its condition sends it for the same reason.

* `Agrees` : every value computed is found in the other environment, or is the constant that
  replaced it;
* `Follows` : two points that correspond, and `Step.follows` : they go on corresponding;
* `run_preserves` : the blocks entered, the operations shown and the value returned are the same.
-/

namespace ConstFlow

/-- What can be seen of an execution from outside. -/
def Mark.isVisible : Mark → Bool
  | .computes _ _ => false
  | .enters _ | .shows _ _ _ | .returns _ => true

/-- Reading what a value became gives its word. -/
def Agrees (d : Folding) (env env' : Env) : Prop :=
  ∀ k v, env k = some v → (d.operand (.value k)).read env' = some v

/-- Two points that correspond: same block, same way to it, and what is left of the block less the
values that became constants. -/
structure Follows (d : Folding) (c c' : Point) : Prop where
  block : c'.block = c.block
  came : c'.came = c.came
  todo : c'.todo = c.todo.filter fun id => (d.consts id).isNone
  entry : Agrees d c.entry c'.entry
  env : Agrees d c.env c'.env

/-! ## Reading -/

section Reading
variable {d : Folding} {env env' : Env} {v : Int64}

theorem agrees_empty (d : Folding) (env' : Env) : Agrees d .empty env' :=
  fun _ _ h => nomatch h

theorem Agrees.read (h : Agrees d env env') {o : Operand} (ho : o.read env = some v) :
    (d.operand o).read env' = some v := by
  cases o with
  | const c => exact ho
  | undef => cases ho
  | value k => exact h k v ho

theorem Agrees.reads (h : Agrees d env env') {args : List Operand} :
    ∀ {vs : List Int64}, args.mapM (·.read env) = some vs →
      (args.map d.operand).mapM (·.read env') = some vs := by
  induction args with
  | nil => exact id
  | cons o args ih =>
    intro vs hvs
    rw [List.mapM_cons] at hvs
    obtain ⟨a, ha, hrest⟩ := Option.bind_eq_some_iff.mp hvs
    obtain ⟨as, has, heq⟩ := Option.bind_eq_some_iff.mp hrest
    rw [List.map_cons, List.mapM_cons, h.read ha, ih has]
    exact heq

/-- A value that stays is computed on both sides. -/
theorem Agrees.set (h : Agrees d env env') {id : InstrId} (hid : d.consts id = none) :
    Agrees d (env.set id v) (env'.set id v) := by
  intro k w hw
  unfold Env.set at hw
  split at hw
  · next hk =>
    cases hw
    subst hk
    simp [Folding.operand, hid, Operand.read, Env.set]
  · next hk =>
    have hread := h k w hw
    unfold Folding.operand at hread ⊢
    dsimp only at hread ⊢
    split
    · next c hc =>
      rw [hc] at hread
      exact hread
    · next hc =>
      rw [hc] at hread
      simpa [Operand.read, Env.set, hk] using hread

/-- A value that became a constant is computed on one side only. -/
theorem Agrees.skip (h : Agrees d env env') {id : InstrId} (hid : d.consts id = some v) :
    Agrees d (env.set id v) env' := by
  intro k w hw
  unfold Env.set at hw
  split at hw
  · next hk =>
    cases hw
    subst hk
    simp [Folding.operand, hid, Operand.read]
  · exact h k w hw

theorem Follows.phiEnv {c c' : Point} (h : Follows d c c') (t : Timing) :
    Agrees d (c.phiEnv t) (c'.phiEnv t) := by
  cases t with
  | inTurn => exact h.env
  | onEntry => exact h.entry

theorem Op.Gives.follows {t : Timing} {c c' : Point} {op : Op} (hop : op.Gives t c v)
    (h : Follows d c c') : (op.mapOperands d.operand).Gives t c' v := by
  cases hop with
  | compare hleft hright => exact .compare (h.env.read hleft) (h.env.read hright)
  | add hleft hright => exact .add (h.env.read hleft) (h.env.read hright)
  | sub hleft hright => exact .sub (h.env.read hleft) (h.env.read hright)
  | phi hmem hcame hvalue =>
    exact .phi (List.mem_map_of_mem hmem) (h.came.trans hcame) ((h.phiEnv t).read hvalue)

theorem Op.Goes.follows {op : Op} {b : BlockId} (hop : op.Goes env b) (h : Agrees d env env') :
    (op.mapOperands d.operand).Goes env' b := by
  cases hop with
  | jump => exact .jump
  | onTrue hcond => exact .onTrue (h.read hcond)
  | onFalse hcond => exact .onFalse (h.read hcond)

theorem Op.Gives.ne_branch {t : Timing} {c : Point} {op : Op} (hop : op.Gives t c v)
    (cond : Operand) (onTrue onFalse : BlockId) : op ≠ .branch cond onTrue onFalse := by
  rintro rfl
  cases hop

theorem Op.Goes.not_foldable {op : Op} {b : BlockId} (hop : op.Goes env b) :
    op.isFoldable = false := by
  cases hop <;> rfl

end Reading

/-! ## What a constant of the solution means -/

section Constants
variable {s : State} {name : String} {k v : Int64}

theorem FactMap.eq_of_const_le {m : FactMap} {id : InstrId} {a : Fact} (ha : m.get? id = some a)
    (hle : .const v ≤ a) (hk : m.get? id = some (.const k)) : v = k := by
  obtain rfl := Option.some.inj (ha.symm.trans hk)
  exact Fact.const_le_const.mp hle

/-- An operand that is constant in the solution reads as that constant. -/
theorem FactMap.Covers.eq_of_operandConst? {env : Env} (h : s.facts.Covers env) {o : Operand}
    (ho : (s.solution name).operandConst? o = some k) (hread : o.read env = some v) : v = k := by
  cases o with
  | const c =>
    cases ho
    cases hread
    rfl
  | undef => cases ho
  | value id =>
    obtain ⟨a, ha, hle⟩ := h id v hread
    exact FactMap.eq_of_const_le ha hle (State.const?_solution.mp ho)

/-- A branch that the solution decides goes the way that the solution says. -/
theorem Op.Goes.eq_of_decides {env : Env} (h : s.facts.Covers env) {i : Instr} {b target : BlockId}
    (hgoes : i.op.Goes env b) (hdecides : (s.solution name).Decides i target) : b = target := by
  obtain ⟨cond, onTrue, onFalse, hop, hconst⟩ := hdecides
  rw [hop] at hgoes
  cases hgoes with
  | onTrue hread =>
    rcases hconst with ⟨-, rfl⟩ | ⟨hzero, -⟩
    · rfl
    · exact absurd (h.eq_of_operandConst? hzero hread) (by decide)
  | onFalse hread =>
    rcases hconst with ⟨hone, -⟩ | ⟨-, rfl⟩
    · exact absurd (h.eq_of_operandConst? hone hread) (by decide)
    · rfl

end Constants

/-! ## Following an execution -/

section Following
variable {t : Timing} {f g : Func} {d : Folding} {s : State} {name : String} {c c' c₁ : Point}
  {marks marks' new : List Mark} {i : Instr} {id : InstrId} {rest : List InstrId}

/-- An instruction that computes no constant is left where it was. -/
theorem Follows.todo_cons (h : Follows d c c') (htodo : c.todo = id :: rest)
    (hid : d.consts id = none) :
    c'.todo = id :: rest.filter fun k => (d.consts k).isNone := by
  rw [h.todo, htodo, List.filter_cons, hid, Option.isNone_none, if_pos rfl]

/-- Of an instruction that is no branch only the operands change. -/
theorem Folded.instr_mapped (hg : Folded f d g) (hd : d.Justified f (s.solution name))
    (hi : f.instr? id = some i) (hid : d.consts id = none)
    (hop : ∀ cond onTrue onFalse, i.op ≠ .branch cond onTrue onFalse) :
    g.instr? id = some { i with op := i.op.mapOperands d.operand } := by
  rw [hg.instr_kept hi hid]
  rcases hd.op_cases hi with ⟨-, heq⟩ | ⟨target, -, ⟨cond, onTrue, onFalse, hbranch, -⟩, -⟩
  · rw [heq]
  · exact absurd hbranch (hop cond onTrue onFalse)

/-- One step is followed by one step or, where a value became a constant, by none. -/
theorem Step.follows (hstep : Step t f c new c₁) (hg : Folded f d g)
    (hd : d.Justified f (s.solution name)) (hcovers : s.facts.Covers c.env)
    (hexpected : ∀ k ∈ new, k.Expected s) (h : Follows d c c') (hexec : Execution t g marks' c') :
    ∃ new' c₁', Execution t g (marks' ++ new') c₁' ∧
      new'.filter Mark.isVisible = new.filter Mark.isVisible ∧ Follows d c₁ c₁' := by
  cases hstep with
  | @value id rest i v htodo hi hgives =>
    cases hid : d.consts id with
    | some k =>
      -- no step follows; the word computed is the constant, since the fact covers it
      obtain ⟨-, -, -, hconst⟩ := hd.const hid
      obtain ⟨a, ha, hle⟩ := hexpected _ (List.mem_singleton.mpr rfl)
      obtain rfl := FactMap.eq_of_const_le ha hle (State.const?_solution.mp hconst)
      refine ⟨[], c', by rwa [List.append_nil], rfl, ⟨h.block, h.came, ?_, h.entry, h.env.skip hid⟩⟩
      rw [h.todo, htodo, List.filter_cons, hid, Option.isNone_some, if_neg (by decide)]
      rfl
    | none =>
      have hi' := hg.instr_mapped hd hi hid hgives.ne_branch
      exact ⟨[.computes id v], _,
        .step hexec (.value (h.todo_cons htodo hid) hi' (hgives.follows h)), rfl,
        ⟨h.block, h.came, rfl, h.entry, h.env.set hid⟩⟩
  | @call id rest i fn args vs v htodo hi hop hreads =>
    have hid := hd.consts_eq_none hi (by rw [hop]; rfl)
    have hi' := hg.instr_mapped hd hi hid (by simp [hop])
    rw [hop] at hi'
    exact ⟨[.computes id v, .shows fn vs v], _, .step hexec (.call (h.todo_cons htodo hid) hi' rfl
      (h.env.reads hreads)), rfl, ⟨h.block, h.came, rfl, h.entry, h.env.set hid⟩⟩
  | @pass id rest i b blk htodo hi hgoes hblk =>
    have hid := hd.consts_eq_none hi hgoes.not_foldable
    have hgoes' : (d.op id i.op).Goes c'.env b := by
      unfold Folding.op
      split
      · next target hjump =>
        obtain ⟨j, hj, hdecides⟩ := hd.jump hjump
        obtain rfl : j = i := Option.some.inj (hj.symm.trans hi)
        rw [hgoes.eq_of_decides hcovers hdecides]
        exact .jump
      · exact hgoes.follows h.env
    have hblk' := hg.block b
    rw [hblk, Option.map_some] at hblk'
    exact ⟨[.enters b], _, .step hexec (.pass (h.todo_cons htodo hid) (hg.instr_kept hi hid) hgoes'
      hblk'), rfl, ⟨rfl, congrArg some h.block, rfl, h.env, h.env⟩⟩
  | @leave id rest i htodo hi hop =>
    have hid := hd.consts_eq_none hi (by rw [hop]; rfl)
    have hi' := hg.instr_mapped hd hi hid (by simp [hop])
    rw [hop] at hi'
    exact ⟨[.returns none], _, .step hexec (.leave (h.todo_cons htodo hid) hi' rfl), rfl,
      ⟨h.block, h.came, rfl, h.entry, h.env⟩⟩
  | @leaveWith id rest i value v htodo hi hop hreads =>
    have hid := hd.consts_eq_none hi (by rw [hop]; rfl)
    have hi' := hg.instr_mapped hd hi hid (by simp [hop])
    rw [hop] at hi'
    exact ⟨[.returns (some v)], _, .step hexec (.leaveWith (h.todo_cons htodo hid) hi' rfl
      (h.env.read hreads)), rfl, ⟨h.block, h.came, rfl, h.entry, h.env⟩⟩

/-- Every execution is followed by one of the folded function. -/
theorem Execution.follows (hexec : Execution t f marks c) (hrest : AtRest f s) (hp : f.Placed)
    (hwf : f.WellFormed) (hg : Folded f d g) (hd : d.Justified f (s.solution name)) :
    ∃ marks' c', Execution t g marks' c' ∧
      marks'.filter Mark.isVisible = marks.filter Mark.isVisible ∧ Follows d c c' := by
  induction hexec with
  | start hblk =>
    have hblk' := hg.block Func.entry
    rw [hblk, Option.map_some] at hblk'
    exact ⟨_, _, .start hblk', rfl, ⟨rfl, rfl, rfl, agrees_empty d _, agrees_empty d _⟩⟩
  | step before hstep ih =>
    obtain ⟨marks', c', hexec', hvisible, hfollows⟩ := ih
    have htracked := (before.tracked hrest hp hwf).1
    obtain ⟨new', c₁', hexec₁, hvisible₁, hfollows₁⟩ := hstep.follows hg hd htracked.env
      (hstep.tracked hrest hp hwf htracked).2 hfollows hexec'
    refine ⟨marks' ++ new', c₁', hexec₁, ?_, hfollows₁⟩
    rw [List.filter_append, List.filter_append, hvisible, hvisible₁]

end Following

/-- **Constant propagation keeps the meaning.** Every execution of a valid function, built from a
script and edited at will, is followed by an execution of what the pass leaves, with the same
blocks, the same operations and results shown, and the same value returned. -/
theorem run_preserves (name : String) (script : List Stmt) (edits : List Edit) (o : Options)
    (w w' : Workspace) (changed : Bool) (hfunc : w.func = (Func.ofScript name script).edited edits)
    (hvalid : w.func.validate = .ok ()) (hrun : (constantPropagation o).run w = .ok changed w')
    (t : Timing) (marks : List Mark) (c : Point) (hexec : Execution t w.func marks c) :
    ∃ marks' c', Execution t w'.func marks' c' ∧
      marks'.filter Mark.isVisible = marks.filter Mark.isVisible := by
  have hf : w.func.Consistent := hfunc ▸ Func.consistent_edited name script edits
  have hwf := Func.WellFormed.of_validate hf.placed hvalid
  obtain ⟨r, d, hsolve, hg, hd⟩ := ConstantPropagation.run_folded hf hwf hrun
  obtain ⟨s, rfl, -, hrest⟩ := solve_atRest hf.placed hf.indexed hsolve
  obtain ⟨marks', c', hexec', hvisible, -⟩ := hexec.follows hrest hf.placed hwf hg hd
  exact ⟨marks', c', hexec', hvisible⟩

/-- A function of which the pass leaves a call and a return. -/
def callScript : List Stmt :=
  [.block 0 [.append (.add (.const 1) (.const 2)), .append (.uninterpreted "read" [.value 0]),
     .append (.compare .eq (.value 0) (.const 3)), .append (.branch (.value 2) 1 2)],
   .block 1 [.append (.ret (some (.value 1)))],
   .block 2 [.append (.ret none)]]

/-- The function, and its other return edited. -/
def callFunc : Func :=
  (Func.ofScript "call" callScript).edited [.replaceTerminator 2 (.ret (some (.value 0)))]

theorem run_preserves_callFunc : ∃ changed w' marks c marks' c', callFunc.validate = .ok () ∧
    (constantPropagation {}).run (Workspace.ofFunc callFunc) = .ok changed w' ∧
    Execution .inTurn callFunc marks c ∧ .shows "read" [3] 7 ∈ marks ∧ .returns (some 7) ∈ marks ∧
    Execution .inTurn w'.func marks' c' ∧
    marks'.filter Mark.isVisible = marks.filter Mark.isVisible := by
  have hvalid : callFunc.validate = .ok () := by decide +kernel
  obtain ⟨changed, w', hrun⟩ : ∃ changed w',
      (constantPropagation {}).run (Workspace.ofFunc callFunc) = .ok changed w' := by
    have hok : (match (constantPropagation {}).run (Workspace.ofFunc callFunc) with
      | .ok _ _ => true
      | .error _ _ => false) = true := by decide +kernel
    split at hok
    · next changed w' hrun => exact ⟨changed, w', hrun⟩
    · cases hok
  have h₀ : Execution .inTurn callFunc _ _ :=
    .start (by decide +kernel : callFunc.block? 0 = some ⟨0, [0, 1, 2, 3], []⟩)
  have h₁ := h₀.step (.value rfl
    (by decide +kernel : callFunc.instr? 0 = some ⟨0, 0, .add (.const 1) (.const 2)⟩)
    (.add rfl rfl))
  have h₂ := h₁.step (.call (v := 7) rfl
    (by decide +kernel : callFunc.instr? 1 = some ⟨1, 0, .uninterpreted "read" [.value 0]⟩) rfl rfl)
  have h₃ := h₂.step (.value rfl
    (by decide +kernel : callFunc.instr? 2 = some ⟨2, 0, .compare .eq (.value 0) (.const 3)⟩)
    (.compare rfl rfl))
  have h₄ := h₃.step (.pass rfl
    (by decide +kernel : callFunc.instr? 3 = some ⟨3, 0, .branch (.value 2) 1 2⟩) (.onTrue rfl)
    (by decide +kernel : callFunc.block? 1 = some ⟨1, [4], [0]⟩))
  have hexec := h₄.step (.leaveWith rfl
    (by decide +kernel : callFunc.instr? 4 = some ⟨4, 1, .ret (some (.value 1))⟩) rfl rfl)
  obtain ⟨marks', c', hpreserved⟩ := run_preserves "call" callScript
    [.replaceTerminator 2 (.ret (some (.value 0)))] {} (Workspace.ofFunc callFunc) w' changed rfl
    hvalid hrun .inTurn _ _ hexec
  exact ⟨changed, w', _, _, marks', c', hvalid, hrun, hexec, by simp, by simp, hpreserved⟩

end ConstFlow
