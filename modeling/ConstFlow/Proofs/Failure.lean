import ConstFlow.Proofs.Quiescence

/-!
# How an analysis fails

On a well-formed function the analysis has one way to fail. Every value that is read has a fact,
every edge leads to a block, and everything that is made to wait fits into its list; what is left is
a branch whose condition is, at that moment, a constant other than zero and one.

* `evaluate_fails` : the only failure of the evaluation;
* `State.Tidy.visit_fails` : the same for a visit;
* `solve_fails` : the same for the analysis, with the stage of the run at which it happens.

A function that is not well formed can make the analysis fail in more ways, but never by a write
beyond a capacity (`solve_ne_outOfBounds`).
-/

namespace ConstFlow

/-! ## Evaluation -/

section Evaluation
variable {m : FactMap} {x : Visits} {i : Instr}

theorem FactMap.exists_resolve {o : Operand} (h : ∀ d, o = .value d → ∃ v, m.get? d = some v) :
    ∃ v, m.resolve o = .ok v := by
  cases o with
  | const c => exact ⟨.const c, rfl⟩
  | undef => exact ⟨.unknown, rfl⟩
  | value d =>
    obtain ⟨v, hv⟩ := h d rfl
    exact ⟨v, FactMap.get_eq_ok.mpr hv⟩

theorem FactMap.exists_update {id : InstrId} {old : Fact} (h : m.get? id = some old) (v : Fact) :
    ∃ o m', m.update id v = .ok (o, m') := by
  unfold FactMap.update
  rw [h]
  dsimp only
  split
  · exact ⟨_, _, rfl⟩
  · exact ⟨_, _, rfl⟩

/-- A phi looks only at the entries that count. -/
theorem exists_evalPhi {ps : List PhiInput}
    (h : ∀ p ∈ ps, p.counts x = true → ∃ v, m.resolve p.value = .ok v) (acc : Fact) :
    ∃ v, evalPhi m x acc ps = .ok v := by
  induction ps generalizing acc with
  | nil => exact ⟨acc, rfl⟩
  | cons p ps ih =>
    have ih := ih fun q hq => h q (List.mem_cons_of_mem _ hq)
    unfold evalPhi
    split
    · next hc =>
      obtain ⟨v, hv⟩ := h p List.mem_cons_self hc
      rw [hv]
      dsimp only
      split
      · exact ⟨_, rfl⟩
      · exact ih _
    · exact ih acc

/-- An evaluation that finds a fact for every value it reads fails only on a branch, whose condition
is a constant other than zero and one. -/
theorem evaluate_fails (h : ∀ d ∈ i.op.uses, ∃ v, m.get? d = some v) {e : Error}
    (he : evaluate m x i = .error e) :
    ∃ cond onTrue onFalse c, i.op = .branch cond onTrue onFalse ∧
      m.resolve cond = .ok (.const c) ∧ c ≠ 0 ∧ c ≠ 1 ∧ e = .invalidCondition i.block c := by
  have hres : ∀ o ∈ i.op.operands, ∃ v, m.resolve o = .ok v := by
    intro o ho
    apply FactMap.exists_resolve
    rintro d rfl
    exact h d (Op.mem_uses.mpr ho)
  have hbinary : ∀ (g : Int64 → Int64 → Int64) {left right : Operand},
      i.op.operands = [left, right] → evalBinary m g left right ≠ .error e := by
    intro g left right hops
    obtain ⟨a, ha⟩ := hres left (by simp [hops])
    obtain ⟨b, hb⟩ := hres right (by simp [hops])
    simp [evalBinary, ha, hb]
  unfold evaluate at he
  revert hres hbinary he
  cases i.op with
  | jump target => exact fun he _ _ => nomatch he
  | ret value => exact fun he _ _ => nomatch he
  | uninterpreted name args => exact fun he _ _ => nomatch he
  | compare p left right => exact fun he _ hbinary => absurd he (hbinary p.word rfl)
  | add left right => exact fun he _ hbinary => absurd he (hbinary (· + ·) rfl)
  | sub left right => exact fun he _ hbinary => absurd he (hbinary (· - ·) rfl)
  | phi inputs =>
    intro he hres _
    obtain ⟨v, hv⟩ := exists_evalPhi (m := m) (x := x)
      (fun p hp _ => hres p.value (List.mem_map_of_mem hp)) .unknown
    simp [hv, Except.map] at he
  | branch cond onTrue onFalse =>
    intro he hres _
    obtain ⟨v, hv⟩ := hres cond List.mem_cons_self
    refine ⟨cond, onTrue, onFalse, ?_⟩
    dsimp only at he
    rw [hv] at he ⊢
    unfold branchTargets at he
    cases v with
    | unknown => cases he
    | overdefined => cases he
    | const c =>
      dsimp only at he
      split at he
      · cases he
      · next hone =>
        split at he
        · cases he
        · next hzero =>
          cases he
          exact ⟨c, rfl, rfl, hzero, hone, rfl⟩

theorem evaluate_invalid {cond : Operand} {onTrue onFalse : BlockId} {c : Int64}
    (hop : i.op = .branch cond onTrue onFalse) (hc : m.resolve cond = .ok (.const c))
    (hzero : c ≠ 0) (hone : c ≠ 1) : evaluate m x i = .error (.invalidCondition i.block c) := by
  simp only [evaluate, hop, hc, branchTargets, if_neg hone, if_neg hzero, Except.map]

end Evaluation

/-! ## Visits and runs -/

section Runs
variable {f : Func} {s : State} {i : Instr} {y : Yield} {e : Error}

/-- Once the instruction is evaluated nothing can fail. -/
theorem State.Tidy.exists_visit (ht : s.Tidy f) (hwf : f.WellFormed) (hi : f.instr? i.id = some i)
    (hy : evaluate s.facts s.visits i = .ok y) : ∃ s', s.visit f i.id = .ok s' := by
  have htargets : ∀ t ∈ y.targets, t < f.blockCount := fun t htarget =>
    (hwf.fits hi).target t (mem_successors_of_mem_targets hy htarget)
  obtain ⟨w, hw, -⟩ := foldlM_enqueueBlock y.targets htargets ht.blocks
  obtain ⟨v, hv⟩ := ht.fact hi
  obtain ⟨o, m, hupdate⟩ := FactMap.exists_update hv y.fact
  unfold State.visit
  simp only [Func.instr_eq_ok.mpr hi, hy, hw, hupdate, bind, Except.bind]
  cases o with
  | none => exact ⟨_, rfl⟩
  | some v' =>
    obtain ⟨w', hw', -⟩ := foldlM_enqueue (fun x j => isActive f x j = true) enqueueUser_ok
      (f.usersOf i.id) (s := ({ s with blocks := w } : State).raise i.id v' m) ht.instrs
    exact ⟨_, hw'⟩

/-- A visit fails only on a branch, whose condition is a constant other than zero and one. -/
theorem State.Tidy.visit_fails (ht : s.Tidy f) (hwf : f.WellFormed) (hi : f.instr? i.id = some i)
    (he : s.visit f i.id = .error e) :
    ∃ cond onTrue onFalse c, i.op = .branch cond onTrue onFalse ∧
      s.facts.resolve cond = .ok (.const c) ∧ c ≠ 0 ∧ c ≠ 1 ∧ e = .invalidCondition i.block c := by
  have huses : ∀ d ∈ i.op.uses, ∃ v, s.facts.get? d = some v := by
    intro d hd
    obtain ⟨j, hj, -⟩ := (hwf.fits hi).use d hd
    exact ht.fact hj
  cases hy : evaluate s.facts s.visits i with
  | error e' =>
    have hvisit : s.visit f i.id = .error e' := by
      unfold State.visit
      simp only [Func.instr_eq_ok.mpr hi, hy, bind, Except.bind]
    cases hvisit.symm.trans he
    exact evaluate_fails huses hy
  | ok y =>
    obtain ⟨s', hs'⟩ := ht.exists_visit hwf hi hy
    cases hs'.symm.trans he

/-- An analysis that fails was about to visit a branch whose condition, at that stage, is a constant
other than zero and one. -/
theorem solve_fails {history : Bool} (hp : f.Placed) (hindexed : f.Indexed) (hwf : f.WellFormed)
    (he : f.solve history = .error e) :
    ∃ s₀ s i todo cond onTrue onFalse c, State.start f history = .ok s₀ ∧
      Stage State.Due f s₀ s (i.id :: todo) ∧ f.instr? i.id = some i ∧
      i.op = .branch cond onTrue onFalse ∧ s.facts.resolve cond = .ok (.const c) ∧ c ≠ 0 ∧ c ≠ 1 ∧
      e = .invalidCondition i.block c := by
  obtain ⟨s₀, s, id, todo, hstart, hstage, hvisit⟩ := solve_failed hp hwf.nonempty he
  obtain ⟨hinit, ht⟩ := State.initial_start hp hstart
  have hsettling := hstage.invariant hp (settling_kept hp hindexed) ht (settling_initial hinit)
  obtain ⟨i, hi, -⟩ := State.isActive_iff.mp (hsettling.active id List.mem_cons_self)
  obtain rfl := hp.slot hi
  obtain ⟨cond, onTrue, onFalse, c, hfail⟩ := (hstage.tidy hp ht).visit_fails hwf hi hvisit
  exact ⟨s₀, s, i, todo, cond, onTrue, onFalse, c, hstart, hstage, hi, hfail⟩

end Runs

/-! ## Functions that are not well formed -/

section Refusals
variable {f : Func} {s : State} {m : FactMap} {x : Visits} {e : Error}

theorem FactMap.resolve_error {o : Operand} (h : m.resolve o = .error e) :
    ∃ id, e = .missingFact id := by
  cases o with
  | const c => cases h
  | undef => cases h
  | value id =>
    unfold FactMap.resolve FactMap.get at h
    dsimp only at h
    split at h
    · cases h
    · cases h
      exact ⟨id, rfl⟩

theorem evalBinary_error {g : Int64 → Int64 → Int64} {left right : Operand}
    (h : evalBinary m g left right = .error e) : ∃ id, e = .missingFact id := by
  unfold evalBinary at h
  split at h
  · next hleft =>
    cases h
    exact FactMap.resolve_error hleft
  · split at h
    · next hright =>
      cases h
      exact FactMap.resolve_error hright
    · cases h

theorem evalPhi_error (ps : List PhiInput) {acc : Fact} (h : evalPhi m x acc ps = .error e) :
    ∃ id, e = .missingFact id := by
  induction ps generalizing acc with
  | nil => cases h
  | cons p ps ih =>
    unfold evalPhi at h
    split at h
    · split at h
      · next hp =>
        cases h
        exact FactMap.resolve_error hp
      · split at h
        · cases h
        · exact ih h
    · exact ih h

/-- An evaluation fails for want of a fact, or at a branch. -/
theorem evaluate_error {i : Instr} (h : evaluate m x i = .error e) :
    (∃ id, e = .missingFact id) ∨ ∃ b c, e = .invalidCondition b c := by
  unfold evaluate at h
  split at h
  · cases h
  · next cond onTrue onFalse _ =>
    split at h
    · next hcond =>
      cases h
      exact .inl (FactMap.resolve_error hcond)
    · next v _ =>
      unfold branchTargets at h
      cases v with
      | unknown => cases h
      | overdefined => cases h
      | const c =>
        dsimp only at h
        split at h
        · cases h
        · split at h
          · cases h
          · cases h
            exact .inr ⟨_, _, rfl⟩
  · exact .inl (evalBinary_error h)
  · exact .inl (evalBinary_error h)
  · exact .inl (evalBinary_error h)
  · next inputs _ =>
    cases hphi : evalPhi m x .unknown inputs with
    | error e' =>
      rw [hphi] at h
      cases h
      exact .inl (evalPhi_error inputs hphi)
    | ok v =>
      rw [hphi] at h
      cases h
  · cases h
  · cases h

/-- Only a block that does not exist cannot be made to wait. -/
theorem foldlM_enqueueBlock_error (bs : List BlockId) : ∀ {s : State},
    s.blocks.Faithful f.blockCount → bs.foldlM (State.enqueueBlock f) s = .error e →
      ∃ b, e = .unknownBlock b := by
  induction bs with
  | nil => exact fun _ h => nomatch h
  | cons b bs ih =>
    intro s hs h
    rw [List.foldlM_cons] at h
    by_cases hb : b < f.blockCount
    · obtain ⟨w, hw, hfaith, -⟩ := State.enqueueBlock_ok hs hb
      rw [hw] at h
      exact ih (s := { s with blocks := w }) hfaith h
    · rw [State.enqueueBlock, if_neg hb] at h
      cases h
      exact ⟨b, rfl⟩

/-- A visit never writes beyond the capacity of a work list, even if it fails. -/
theorem State.Tidy.visit_ne_outOfBounds (ht : s.Tidy f) {id : InstrId}
    (h : s.visit f id = .error e) (cause : BitSet.OutOfBounds) : e ≠ .outOfBounds cause := by
  rintro rfl
  unfold State.visit at h
  simp only [bind, Except.bind] at h
  split at h
  · next hi =>
    unfold Func.instr at hi
    split at hi
    · cases hi
    · cases hi
      cases h
  · split at h
    · next hy =>
      cases h
      rcases evaluate_error hy with ⟨id, hid⟩ | ⟨b, c, hb⟩
      · cases hid
      · cases hb
    · next y hy =>
      split at h
      · next hblocks =>
        cases h
        obtain ⟨b, hb⟩ := foldlM_enqueueBlock_error y.targets ht.blocks hblocks
        cases hb
      · next t hblocks =>
        obtain ⟨w, rfl, -⟩ := State.growsBlocks_foldlM _ hblocks
        split at h
        · next hup =>
          unfold FactMap.update at hup
          split at hup
          · cases hup
            cases h
          · split at hup
            · cases hup
            · cases hup
        · split at h
          · cases h
          · next v m hup =>
            obtain ⟨w', hw', -⟩ := foldlM_enqueue (fun x j => isActive f x j = true) enqueueUser_ok
              (f.usersOf id) (s := ({ s with blocks := w } : State).raise id v m) ht.instrs
            cases hw'.symm.trans h

theorem solve_ne_outOfBounds (hp : f.Placed) (history : Bool) (cause : BitSet.OutOfBounds) :
    f.solve history ≠ .error (.outOfBounds cause) := by
  intro h
  by_cases hne : 0 < f.blockCount
  · obtain ⟨s₀, s, id, todo, hstart, hstage, hvisit⟩ := solve_failed hp hne h
    have ht := hstage.tidy hp (State.initial_start hp hstart).2
    exact ht.visit_ne_outOfBounds hvisit cause rfl
  · rw [solve_empty hp (Nat.eq_zero_of_not_pos hne)] at h
    cases h

end Refusals

end ConstFlow
