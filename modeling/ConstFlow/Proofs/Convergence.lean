import ConstFlow.Proofs.Scheduling
import ConstFlow.Proofs.Simultaneous
import Mathlib.Algebra.GroupWithZero.Nat

/-!
# Schedules that come to rest

A pass may find new work in what it left, so a schedule goes on for as long as something changes.
What bounds it is the number of instructions that a pass can still change: values that can become
constants, and branches.

* `Func.work` : the number of such instructions;
* `simplify_work` : simplification takes off just as many as it counts, since nothing becomes a
  value or a branch, and leaves a valid function;
* `Alteration.Shrinks` : a change reported takes work off. Passed on from one function to a list,
  and from a round to all rounds, this bounds the rounds (`Alteration.Shrinks.rounds`);
* `run_converges` : with a limit above the work there is at the start, the last round of a schedule
  changes nothing, and neither would another one.
-/

namespace ConstFlow

/-- The operation can be replaced by a constant, or by a jump. -/
def Op.isReducible : Op → Bool
  | .compare .. | .phi _ | .add .. | .sub .. | .branch .. => true
  | _ => false

/-- The number of live instructions that can still be replaced. -/
def Func.work (f : Func) : Nat :=
  f.instrs.countP (·.op.isReducible)

/-- The work that all functions of a list hold. -/
def totalWork (fs : List Func) : Nat :=
  (fs.map Func.work).sum

/-! ## Simplification -/

section Work
variable {f g : Func} {d : Folding} {r : Solution} {o : Options} {i : Instr}

theorem Op.isReducible_mapOperands (t : Operand → Operand) (op : Op) :
    (op.mapOperands t).isReducible = op.isReducible := by
  cases op <;> rfl

theorem Op.isReducible_of_isFoldable {op : Op} (h : op.isFoldable = true) :
    op.isReducible = true := by
  revert h
  cases op <;> simp [isFoldable, isReducible]

/-- Only values and branches change. -/
theorem Solution.isReducible_of_change? (h : (r.change? o i).isSome = true) :
    i.op.isReducible = true := by
  obtain ⟨c, hc⟩ := Option.isSome_iff_exists.mp h
  rcases planInstr_eq_some.mp (Solution.change?_eq_some.mp hc) with
    ⟨v, -, hfoldable, -⟩ | ⟨target, -, -, -, cond, onTrue, onFalse, hop, -⟩
  · exact Op.isReducible_of_isFoldable hfoldable
  · rw [hop]
    rfl

/-- The instructions that a folding leaves, in their order. -/
theorem Folded.instrs_eq (h : Folded f d g) (hp : f.Placed) : g.instrs =
    f.instrs.filterMap fun i =>
      if d.consts i.id = none then some { i with op := d.op i.id i.op } else none := by
  rw [g.instrs_eq, f.instrs_eq, h.slots, List.filterMap_filterMap]
  refine List.filterMap_congr fun k _ => ?_
  rw [h.instr]
  cases hi : f.instr? k with
  | none => simp
  | some i =>
    obtain rfl := hp.slot hi
    rw [Option.bind_some, Option.map_some]

/-- What can still be replaced is what could be before, save what was replaced. -/
theorem Folded.work_eq (h : Folded f (r.folding o f) g) (hp : f.Placed)
    (hd : (r.folding o f).Justified f r) :
    g.work = f.instrs.countP fun i => i.op.isReducible && !(r.change? o i).isSome := by
  rw [Func.work, h.instrs_eq hp, List.countP_filterMap]
  refine List.countP_congr fun i hmem => ?_
  have hi := hp.mem_instrs.mp hmem
  rw [Solution.consts_folding hi, Solution.change?]
  cases hconst : r.constFor? o i with
  | some c => simp
  | none =>
    rcases hd.op_cases hi with ⟨hjump, hop⟩ | ⟨target, hjump, -, hop⟩
    · rw [Solution.jumps_folding hi] at hjump
      simp [hop, hjump, Op.isReducible_mapOperands]
    · rw [Solution.jumps_folding hi] at hjump
      simp [hop, hjump, Op.isReducible]

/-- Simplification takes off the work that it counts, and leaves a valid function. -/
theorem simplify_work {w w' : Workspace} {pass : Option String} {n : Nat}
    (hf : w.func.Consistent) (hwf : w.func.WellFormed) (h : simplify r o pass w = .ok n w') :
    w'.func.Consistent ∧ w'.func.WellFormed ∧ w'.func.work + n = w.func.work := by
  obtain ⟨cs, hplan, rfl, hfolded, hd, -⟩ := simplify_folding hf hwf h
  refine ⟨hfolded.consistent, hfolded.wellFormed hf.placed hwf hd, ?_⟩
  have hdisjoint : ∀ i : Instr, (i.op.isReducible && !(r.change? o i).isSome) = true →
      (r.change? o i).isSome = false := by
    intro i hi
    simpa using (Bool.and_eq_true_iff.mp hi).2
  rw [hfolded.work_eq hf.placed hd, length_plan_eq hf.placed hplan, Func.work,
    ← countP_or_of_disjoint hdisjoint]
  refine List.countP_congr fun i _ => ?_
  cases hchange : (r.change? o i).isSome with
  | false => simp
  | true => simp [Solution.isReducible_of_change? hchange]

end Work

/-! ## Alterations that take work off -/

namespace Alteration

/-- On functions of a kind that it keeps, every change reported takes work off, and no work is
added. -/
def Shrinks (kind : Func → Prop) (alter : Alteration) : Prop :=
  ∀ f changed g, kind f → alter f = some (changed, g) →
    kind g ∧ g.work + changed.toNat ≤ f.work

namespace Shrinks
variable {kind : Func → Prop} {alter : Alteration} {n k : Nat} {fs gs : List Func} {changed : Bool}

theorem toNat_or_le (a b : Bool) : (a || b).toNat ≤ a.toNat + b.toNat := by
  cases a <;> cases b <;> decide

theorem idle : Alteration.idle.Shrinks kind := by
  intro f changed g hf h
  cases h
  exact ⟨hf, Nat.le_refl _⟩

theorem seq {a b : Alteration} (ha : a.Shrinks kind) (hb : b.Shrinks kind) :
    (a.seq b).Shrinks kind := by
  intro f changed g hf h
  obtain ⟨mid, first, later, hmid, hg, rfl⟩ := seq_eq_some h
  obtain ⟨hkind, hle⟩ := ha _ _ _ hf hmid
  obtain ⟨hkind', hle'⟩ := hb _ _ _ hkind hg
  have := toNat_or_le first later
  exact ⟨hkind', by omega⟩

theorem each (h : alter.Shrinks kind) (hfs : ∀ f ∈ fs, kind f)
    (heach : alter.each fs = some (changed, gs)) :
    (∀ g ∈ gs, kind g) ∧ totalWork gs + changed.toNat ≤ totalWork fs := by
  induction fs generalizing changed gs with
  | nil =>
    cases heach
    exact ⟨hfs, Nat.le_refl _⟩
  | cons f fs ih =>
    obtain ⟨hf, hfs⟩ := List.forall_mem_cons.mp hfs
    obtain ⟨g, gs', first, later, hg, hgs, rfl, rfl⟩ := each_cons_eq_some heach
    obtain ⟨hkind, hle⟩ := h _ _ _ hf hg
    obtain ⟨hkinds, hle'⟩ := ih hfs hgs
    refine ⟨List.forall_mem_cons.mpr ⟨hkind, hkinds⟩, ?_⟩
    have := toNat_or_le first later
    simp only [totalWork, List.map_cons, List.sum_cons] at hle' ⊢
    omega

/-- With a limit above the work, the rounds end in one that changes nothing, after as many as there
is work at most. -/
theorem rounds (h : alter.Shrinks kind) (hhonest : alter.Honest) (hfs : ∀ f ∈ fs, kind f)
    (hn : totalWork fs < n) (hrounds : alter.rounds n fs = some (k, gs)) :
    k ≤ totalWork fs + 1 ∧ alter.each gs = some (false, gs) := by
  induction n generalizing fs k with
  | zero => exact absurd hn (Nat.not_lt_zero _)
  | succ n ih =>
    rcases rounds_succ hrounds with ⟨heach, rfl⟩ | ⟨mid, j, heach, hrest, rfl⟩
    · obtain rfl := hhonest.each heach
      exact ⟨Nat.le_add_left 1 _, heach⟩
    · obtain ⟨hkinds, hle⟩ := h.each hfs heach
      rw [Bool.toNat_true] at hle
      obtain ⟨hj, hgs⟩ := ih hkinds (by omega) hrest
      exact ⟨by omega, hgs⟩

end Shrinks

end Alteration

/-! ## Constant propagation -/

/-- Constant propagation that reports a change takes work off. -/
theorem ConstantPropagation.run_work {o : Options} {w w' : Workspace} {changed : Bool}
    (hf : w.func.Consistent) (hwf : w.func.WellFormed) (h : run o w = .ok changed w') :
    (w'.func.Consistent ∧ w'.func.WellFormed) ∧
      w'.func.work + changed.toNat ≤ w.func.work := by
  obtain ⟨r, w₁, n, w₂, hfunc, -, htransform, rfl, rfl⟩ := run_ok h
  show (w₂.func.Consistent ∧ w₂.func.WellFormed) ∧
    w₂.func.work + (decide (0 < n)).toNat ≤ w.func.work
  rw [← hfunc] at hf hwf ⊢
  unfold transform at htransform
  split at htransform
  · obtain ⟨hf', hwf', hwork⟩ := simplify_work hf hwf htransform
    refine ⟨⟨hf', hwf'⟩, ?_⟩
    have : (decide (0 < n)).toNat ≤ n := by
      cases n <;> simp
    omega
  · cases htransform
    exact ⟨⟨hf, hwf⟩, Nat.le_refl _⟩

theorem shrinks_alter? (o : Options) :
    (constantPropagation o).alter?.Shrinks fun f => f.Consistent ∧ f.WellFormed := by
  rintro f changed g ⟨hf, hwf⟩ h
  rcases Pass.alter?_eq_some h with ⟨w, hrun, rfl⟩ | ⟨rfl, rfl⟩
  · exact ConstantPropagation.run_work (w := Workspace.ofFunc f) hf hwf hrun
  · exact ⟨⟨hf, hwf⟩, Nat.le_refl _⟩

theorem shrinks_alterAll? (os : List Options) :
    (alterAll? (os.map constantPropagation)).Shrinks fun f => f.Consistent ∧ f.WellFormed := by
  induction os with
  | nil => exact Alteration.Shrinks.idle
  | cons o os ih => exact (shrinks_alter? o).seq ih

/-- Constant propagation under any options comes to rest on valid functions. If the limit is above
the number of values and branches that could be replaced at the start, and the run succeeds, it took
at most one round more than there are of these, and another round would change nothing. This holds
of any fair iteration, and of another one in the round that follows. -/
theorem run_converges (os : List Options) (n : Nat) (it : Iteration) (hit : it.Fair)
    (fs : List Func)
    (hfs : ∀ f ∈ fs, (∃ name script edits, f = (Func.ofScript name script).edited edits) ∧
      f.validate = .ok ()) (hn : totalWork fs < n) (events : EventLog) (notes : Array Note)
    (k : Nat) (b : Batch) (hrun : (propagation os n it).run ⟨fs, events, notes⟩ = .ok k b) :
    k ≤ totalWork fs + 1 ∧ ∀ it' : Iteration, it'.Fair → ∀ events notes, ∃ b',
      (propagation os n it').round ⟨b.funcs, events, notes⟩ = .ok false b' ∧
        b'.funcs = b.funcs := by
  have hkind : ∀ f ∈ fs, f.Consistent ∧ f.WellFormed := by
    intro f hf
    obtain ⟨⟨name, script, edits, rfl⟩, hvalid⟩ := hfs f hf
    have hcons := Func.consistent_edited name script edits
    exact ⟨hcons, .of_validate hcons.placed hvalid⟩
  have hrounds : (alterAll? (os.map constantPropagation)).rounds n fs = some (k, b.funcs) :=
    (outcome?_run (s := propagation os n it) hit _).symm.trans
      (outcome?_eq_some.mpr ⟨b, hrun, rfl⟩)
  obtain ⟨hk, hrest⟩ :=
    (shrinks_alterAll? os).rounds (honest_alterAll? os) hkind hn hrounds
  refine ⟨hk, fun it' hit' events notes => outcome?_eq_some.mp ?_⟩
  exact (outcome?_round (s := propagation os n it') hit' _).trans hrest

/-- Two functions that find new work in what a pass left. -/
def restless : List Func :=
  [cutLoop, Func.ofScript "late" lateValue]

theorem run_converges_restless : (∀ f ∈ restless, f.validate = .ok ()) ∧ totalWork restless = 9 ∧
    ∃ b, (propagation foldAndLook 10 Pass.sweep).run ⟨restless, .empty, #[]⟩ = .ok 3 b ∧
      3 ≤ totalWork restless + 1 ∧ b.funcs ≠ restless ∧ ∀ events notes, ∃ b',
        (propagation foldAndLook 10 .backward).round ⟨b.funcs, events, notes⟩ = .ok false b' ∧
          b'.funcs = b.funcs := by
  have hwork : totalWork restless = 9 := by decide +kernel
  have hvalid : ∀ f ∈ restless, f.validate = .ok () := by decide +kernel
  have hbuilt : ∀ f ∈ restless, ∃ name script edits,
      f = (Func.ofScript name script).edited edits :=
    List.forall_mem_cons.mpr ⟨⟨"count", countingLoop, _, rfl⟩,
      List.forall_mem_singleton.mpr ⟨"late", lateValue, [], rfl⟩⟩
  have hrun : ∃ p ∈ outcome? ((propagation foldAndLook 10 Pass.sweep).run ⟨restless, .empty, #[]⟩),
      p.1 = 3 ∧ p.2 ≠ restless := by
    decide +kernel
  obtain ⟨⟨k, fs⟩, hout, rfl, hne⟩ := hrun
  obtain ⟨b, hb, rfl⟩ := outcome?_eq_some.mp hout
  obtain ⟨hk, hrest⟩ := run_converges foldAndLook 10 Pass.sweep Iteration.fair_sweep restless
    (fun f hf => ⟨hbuilt f hf, hvalid f hf⟩) (by rw [hwork]; decide) .empty #[] 3 b hb
  exact ⟨hvalid, hwork, b, hb, hk, hne, hrest .backward Iteration.fair_backward⟩

end ConstFlow
