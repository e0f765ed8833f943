import ConstFlow.Proofs.Folding

/-!
# Plans

A plan goes over the live instructions block by block and plans at most one change for each.

* `nodup_plan` : no two changes are about the same instruction;
* `Folding.Complete` : every value and branch that the solution allows to change is changed;
* `run_complete` : the pass leaves a complete folding, if its options allow a change at all;
* `run_of_plan_nil`, `run_of_solve_error` : runs of the pass that change nothing.
-/

namespace ConstFlow

/-- The instruction that a change is about. -/
def Change.id : Change → InstrId
  | .foldValue _ i _ | .foldBranch _ i _ => i.id

/-- Nothing that the solution and the options allow to change is left out. -/
structure Folding.Complete (f : Func) (r : Solution) (o : Options) (d : Folding) : Prop where
  const : ∀ {k : InstrId} {i : Instr} {c : Int64}, f.instr? k = some i → i.op.isFoldable = true →
    o.foldValues = true → r.const? k = some c → d.consts k ≠ none
  jump : ∀ {k : InstrId} {i : Instr} {target : BlockId}, f.instr? k = some i →
    o.foldBranches = true → r.reached i.block = true → r.Decides i target → d.jumps k ≠ none

section Plans
variable {f : Func} {r : Solution} {o : Options} {cs : List Change}

/-! ## The instructions that are gone over -/

theorem Func.Placed.ids_placed (hp : f.Placed) :
    f.placed.map (·.2.id) = f.blocks.toList.flatMap (·.instrs) := by
  rw [Func.placed, List.map_flatMap]
  refine List.flatMap_congr fun blk hblk => ?_
  obtain ⟨b, hb⟩ := List.getElem?_of_mem hblk
  have hb : f.block? b = some blk := by simpa [Func.block?] using hb
  rw [hp.number hb, List.map_map]
  exact hp.ids_blockInstrs hb

theorem sublist_of_planAll {ps : List (BlockId × Instr)} {cs : List Change}
    (h : planAll r o ps = .ok cs) : (cs.map Change.id).Sublist (ps.map (·.2.id)) := by
  induction ps generalizing cs with
  | nil =>
    cases h
    exact List.Sublist.refl _
  | cons p ps ih =>
    obtain ⟨b, i⟩ := p
    unfold planAll at h
    split at h
    · cases h
    · next change hchange =>
      split at h
      · cases h
      · next rest hrest =>
        cases h
        cases change with
        | none => exact (ih hrest).cons _
        | some c =>
          have hc : c.id = i.id := by
            rcases planInstr_eq_some.mp hchange with ⟨k, rfl, -⟩ | ⟨target, rfl, -⟩
            · rfl
            · rfl
          rw [List.map_append, Option.toList_some, List.map_singleton, hc]
          exact (ih hrest).cons_cons _

theorem nodup_plan (hp : f.Placed) {cs : List Change} (h : plan r o f = .ok cs) :
    (cs.map Change.id).Nodup :=
  (sublist_of_planAll h).nodup (hp.ids_placed ▸ hp.nodup_listed)

/-! ## Completeness -/

theorem Folding.consts_add {d : Folding} {k : InstrId} (c : Change) (h : d.consts k ≠ none) :
    (d.add c).consts k ≠ none := by
  cases c with
  | foldBranch b i target => exact h
  | foldValue b i v =>
    show (if k = i.id then some v else d.consts k) ≠ none
    split
    · exact Option.some_ne_none v
    · exact h

theorem Folding.jumps_add {d : Folding} {k : InstrId} (c : Change) (h : d.jumps k ≠ none) :
    (d.add c).jumps k ≠ none := by
  cases c with
  | foldValue b i v => exact h
  | foldBranch b i target =>
    show (if k = i.id then some target else d.jumps k) ≠ none
    split
    · exact Option.some_ne_none target
    · exact h

/-- What one change brings about, the changes after it keep. -/
theorem Folding.foldl_add {P : Folding → Prop}
    (hkeep : ∀ {d : Folding} (c : Change), P d → P (d.add c)) {c : Change}
    (hbring : ∀ d : Folding, P (d.add c)) :
    ∀ {cs : List Change} {d : Folding}, c ∈ cs → P (cs.foldl Folding.add d) := by
  have hrest : ∀ (cs : List Change) {d : Folding}, P d → P (cs.foldl Folding.add d) := by
    intro cs
    induction cs with
    | nil => exact fun h => h
    | cons c' cs ih => exact fun h => ih (hkeep c' h)
  intro cs
  induction cs with
  | nil => exact fun hc => nomatch hc
  | cons c' cs ih =>
    intro d hc
    rcases List.mem_cons.mp hc with rfl | hc
    · exact hrest cs (hbring d)
    · exact ih hc

/-- The changes of a plan leave nothing out. -/
theorem plan_complete (hp : f.Placed) (h : plan r o f = .ok cs) :
    (cs.foldl Folding.add .empty).Complete f r o where
  const {k i c} hi hfold hvalues hconst := by
    obtain rfl := hp.slot hi
    have hmem : .foldValue i.block i c ∈ cs := (mem_planAll h).mpr
      ⟨(i.block, i), hp.mem_placed.mpr ⟨hi, rfl⟩,
        planInstr_eq_some.mpr (.inl ⟨c, rfl, hfold, hvalues, hconst⟩)⟩
    refine Folding.foldl_add (P := fun d => d.consts i.id ≠ none) Folding.consts_add (fun d => ?_)
      hmem
    show (if i.id = i.id then some c else _) ≠ none
    rw [if_pos rfl]
    exact Option.some_ne_none c
  jump {k i target} hi hbranches hreached hdecides := by
    obtain rfl := hp.slot hi
    have hmem : .foldBranch i.block i target ∈ cs := (mem_planAll h).mpr
      ⟨(i.block, i), hp.mem_placed.mpr ⟨hi, rfl⟩,
        planInstr_eq_some.mpr (.inr ⟨target, rfl, hbranches, hreached, hdecides⟩)⟩
    refine Folding.foldl_add (P := fun d => d.jumps i.id ≠ none) Folding.jumps_add (fun d => ?_)
      hmem
    show (if i.id = i.id then some target else _) ≠ none
    rw [if_pos rfl]
    exact Option.some_ne_none target

/-- Planning fails at a branch in a reached block whose condition is a constant other than zero and
one. -/
theorem planInstr_error {b : BlockId} {i : Instr} {e : Error} (h : planInstr r o b i = .error e) :
    ∃ cond onTrue onFalse c, i.op = .branch cond onTrue onFalse ∧ o.foldBranches = true ∧
      r.reached b = true ∧ r.operandConst? cond = some c ∧ c ≠ 0 ∧ c ≠ 1 ∧
      e = .invalidCondition b c := by
  unfold planInstr at h
  split at h
  · next cond onTrue onFalse hop =>
    split at h
    · next hallowed =>
      refine ⟨cond, onTrue, onFalse, ?_⟩
      unfold planBranch at h
      split at h
      · cases h
      · next c hc =>
        split at h
        · cases h
        · next hone =>
          split at h
          · cases h
          · next hzero =>
            cases h
            obtain ⟨hfold, hreached⟩ := Bool.and_eq_true_iff.mp hallowed
            exact ⟨c, hop, hfold, hreached, hc, hzero, hone, rfl⟩
    · cases h
  · split at h <;> cases h

/-- A plan fails where the first of its instructions does. -/
theorem planAll_error {ps : List (BlockId × Instr)} {e : Error} (h : planAll r o ps = .error e) :
    ∃ pre p post, ps = pre ++ p :: post ∧ (∀ q ∈ pre, ∃ c, planInstr r o q.1 q.2 = .ok c) ∧
      planInstr r o p.1 p.2 = .error e := by
  induction ps with
  | nil => cases h
  | cons p ps ih =>
    obtain ⟨b, i⟩ := p
    unfold planAll at h
    split at h
    · next e' hp =>
      cases h
      exact ⟨[], (b, i), ps, rfl, fun q hq => (nomatch hq), hp⟩
    · next c hc =>
      split at h
      · next e' hps =>
        cases h
        obtain ⟨pre, p, post, rfl, hpre, hp⟩ := ih hps
        exact ⟨(b, i) :: pre, p, post, rfl, List.forall_mem_cons.mpr ⟨⟨c, hc⟩, hpre⟩, hp⟩
      · cases h

theorem plan_eq_nil (h : ∀ p ∈ f.placed, planInstr r o p.1 p.2 = .ok none) :
    plan r o f = .ok [] := by
  have hall : ∀ ps : List (BlockId × Instr), (∀ p ∈ ps, planInstr r o p.1 p.2 = .ok none) →
      planAll r o ps = .ok [] := by
    intro ps hps
    induction ps with
    | nil => rfl
    | cons p ps ih =>
      obtain ⟨hp, hps⟩ := List.forall_mem_cons.mp hps
      rw [planAll, hp, ih hps]
      rfl
  exact hall f.placed h

/-- A simplification that cannot be planned may still tell that the sizes differ. -/
theorem simplify_of_plan_error {w : Workspace} (pass : Option String) {e : Error}
    (h : plan r o w.func = .error e) : simplify r o pass w = .error e (warnSize r pass w) := by
  unfold simplify
  simp only [func_warnSize, h]

/-- So may a simplification with nothing to change. -/
theorem simplify_of_plan_nil {w : Workspace} (pass : Option String)
    (h : plan r o w.func = .ok []) : simplify r o pass w = .ok 0 (warnSize r pass w) := by
  unfold simplify
  simp only [func_warnSize, h]
  rfl

end Plans

/-! ## The pass -/

namespace ConstantPropagation
variable {o : Options} {w w' : Workspace} {r : Solution}

theorem run_complete (hf : w.func.Consistent) (hwf : w.func.WellFormed) {changed : Bool}
    (ho : o.allowsChange = true) (hsolve : w.func.solve o.recordHistory = .ok r)
    (h : run o w = .ok changed w') : ∃ d, Folded w.func d w'.func ∧ d.Justified w.func r ∧
      d.Complete w.func r o := by
  obtain ⟨r', w₁, n, w₂, hfunc, hsolve', htransform, rfl, -⟩ := run_ok h
  obtain rfl : r' = r := Except.ok.inj (hsolve'.symm.trans hsolve)
  unfold transform at htransform
  rw [if_pos ho] at htransform
  obtain ⟨cs, hplan, hfolded, hjust⟩ := simplify_folded (hfunc ▸ hf) (hfunc ▸ hwf) htransform
  rw [hfunc] at hplan hfolded hjust
  exact ⟨_, hfolded, hjust, plan_complete hf.placed hplan⟩

theorem run_unchanged {changed : Bool} (ho : o.allowsChange = false)
    (h : run o w = .ok changed w') : w'.func = w.func := by
  obtain ⟨r, w₁, n, w₂, hfunc, -, htransform, rfl, -⟩ := run_ok h
  unfold transform at htransform
  rw [if_neg (by rw [ho]; decide)] at htransform
  cases htransform
  exact hfunc

theorem verify_of_validate (h : o.verifyInput = true → w.func.validate = .ok ()) :
    verify o (started w) = .ok () (started w) := by
  unfold verify
  split
  · next ho => rw [show (started w).func.validate = .ok () from h ho]
  · rfl

theorem exists_analyse (o : Options) (w : Workspace) : ∃ w',
    analyse o w = (match w.func.solve o.recordHistory with
      | .ok r => .ok r w'
      | .error e => .error e w') ∧ w'.func = w.func := by
  unfold analyse Func.solve
  dsimp only
  cases (w.func.analyse o.recordHistory).result with
  | error e => exact ⟨_, rfl, rfl⟩
  | ok r =>
    refine ⟨_, rfl, ?_⟩
    split
    · exact func_foldl_record _ _
    · rfl

/-- A run of the pass on a function that it has nothing to change in. -/
theorem run_of_plan_nil (hvalid : o.verifyInput = true → w.func.validate = .ok ())
    (hsolve : w.func.solve o.recordHistory = .ok r)
    (hplan : o.allowsChange = true → plan r o w.func = .ok []) :
    ∃ w', run o w = .ok false w' ∧ w'.func = w.func := by
  obtain ⟨w₁, hanalyse, hfunc⟩ := exists_analyse o (started w)
  rw [show (started w).func.solve o.recordHistory = .ok r from hsolve] at hanalyse
  have htransform : ∃ w₂, transform o r w₁ = .ok 0 w₂ ∧ w₂.func = w.func := by
    unfold transform
    split
    · next ho =>
      have hplan : plan r o w₁.func = .ok [] := hfunc ▸ hplan ho
      exact ⟨_, simplify_of_plan_nil (some name) hplan, (func_warnSize _ r).trans hfunc⟩
    · exact ⟨w₁, rfl, hfunc⟩
  obtain ⟨w₂, htransform, hfunc₂⟩ := htransform
  rw [run_eq, verify_of_validate hvalid]
  simp only [hanalyse, htransform]
  exact ⟨_, rfl, hfunc₂⟩

/-- A run of the pass on a function that cannot be analysed. -/
theorem run_of_solve_error (hvalid : o.verifyInput = true → w.func.validate = .ok ()) {e : Error}
    (hsolve : w.func.solve o.recordHistory = .error e) :
    ∃ w', run o w = .error e w' ∧ w'.func = w.func := by
  obtain ⟨w', hanalyse, hfunc⟩ := exists_analyse o (started w)
  rw [show (started w).func.solve o.recordHistory = .error e from hsolve] at hanalyse
  rw [run_eq, verify_of_validate hvalid]
  simp only [hanalyse]
  exact ⟨w', rfl, hfunc⟩

end ConstantPropagation

end ConstFlow
