import ConstFlow.Proofs.Simultaneous

/-!
# All changes or none

Simplification plans all its changes before it makes the first. On a valid function the changes can
then be made (`exists_simplify_of_validate`), so what can fail is the plan, and a plan leaves the
function alone. A plan fails at a branch whose condition is, by the solution, a constant other than
zero and one. The solution may be that of another function: it may give such a constant to any
value, and reach any block.

* `Solution.Misleads` : the solution has such a constant for the branch at the end of a block;
* `Func.Placed.sorted_placed` : a plan goes over the blocks in ascending order;
* `plan_error` : so it fails at the first block with such a branch;
* `simplify_all_or_nothing` : what simplification comes to, on any valid function by any solution.
-/

namespace ConstFlow

/-- Block `b` was visited and ends in a branch, on the constant `c` or on a value that is always
`c`, where `c` is neither zero nor one. -/
def Solution.Misleads (r : Solution) (f : Func) (b : BlockId) (c : Int64) : Prop :=
  0 < r.visitsTo b ∧ c ≠ 0 ∧ c ≠ 1 ∧ ∃ i cond onTrue onFalse, f.terminator? b = some i ∧
    i.op = .branch cond onTrue onFalse ∧
    (cond = .const c ∨ ∃ v, cond = .value v ∧ r.const? v = some c)

section Plans
variable {f : Func} {r : Solution} {o : Options} {b : BlockId} {c : Int64} {i : Instr} {e : Error}

theorem Solution.operandConst?_eq_some {x : Operand} :
    r.operandConst? x = some c ↔ x = .const c ∨ ∃ v, x = .value v ∧ r.const? v = some c := by
  cases x with
  | const c' => simp [operandConst?]
  | value v => simp [operandConst?]
  | undef => simp [operandConst?]

theorem Solution.reached_iff : r.reached b = true ↔ 0 < r.visitsTo b := by
  unfold reached
  rw [decide_eq_true_eq]

theorem Func.Placed.of_terminator? (hp : f.Placed) (h : f.terminator? b = some i) :
    f.instr? i.id = some i ∧ i.block = b := by
  obtain ⟨id, hid, hi⟩ := Option.bind_eq_some_iff.mp h
  obtain ⟨blk, hblk, hlast⟩ := Option.bind_eq_some_iff.mp hid
  obtain ⟨j, hj, hown⟩ := (hp.mem hblk id).mp (List.mem_of_getLast? hlast)
  obtain rfl : j = i := Option.some.inj (hj.symm.trans hi)
  rw [hp.slot hi]
  exact ⟨hi, hown⟩

/-- Instructions are gone over block by block, in the order of the blocks. -/
theorem Func.Placed.sorted_placed (hp : f.Placed) :
    f.placed.Pairwise fun p q => p.1 ≤ q.1 := by
  have hblock : ∀ {blk : Block} {p : BlockId × Instr},
      p ∈ (f.blockInstrs blk.id).map (blk.id, ·) → p.1 = blk.id := by
    intro blk p hmem
    obtain ⟨i, -, rfl⟩ := List.mem_map.mp hmem
    rfl
  unfold Func.placed
  rw [List.pairwise_flatMap]
  constructor
  · intro blk _
    apply List.pairwise_iff_forall_sublist.mpr
    intro p q hsub
    rw [hblock (hsub.subset (by simp)), hblock (hsub.subset (by simp))]
  · apply List.pairwise_iff_getElem.mpr
    intro a b ha hb hlt p hp' q hq
    rw [hblock hp', hblock hq, hp.number (b := a) (by simp), hp.number (b := b) (by simp)]
    exact Nat.le_of_lt hlt

/-- In a valid function every branch is at the end of its block. -/
theorem Solution.Misleads.of_branch (hp : f.Placed) (hwf : f.WellFormed)
    (hi : f.instr? i.id = some i) {cond : Operand} {onTrue onFalse : BlockId}
    (hop : i.op = .branch cond onTrue onFalse) (hreached : r.reached i.block = true)
    (hc : r.operandConst? cond = some c) (hzero : c ≠ 0) (hone : c ≠ 1) :
    r.Misleads f i.block c :=
  ⟨Solution.reached_iff.mp hreached, hzero, hone, i, cond, onTrue, onFalse,
    hwf.terminator?_eq hp hi (by rw [hop]; rfl), hop, Solution.operandConst?_eq_some.mp hc⟩

/-- No change is planned for a branch whose condition is another constant. -/
theorem Solution.Misleads.planInstr_ne (h : r.Misleads f b c) (hp : f.Placed)
    (ho : o.foldBranches = true) : ∃ i, (b, i) ∈ f.placed ∧ ∀ x, planInstr r o b i ≠ .ok x := by
  obtain ⟨hvisits, hzero, hone, i, cond, onTrue, onFalse, hterm, hop, hcond⟩ := h
  refine ⟨i, hp.mem_placed.mpr (hp.of_terminator? hterm), fun x => ?_⟩
  have hc : r.operandConst? cond = some c := Solution.operandConst?_eq_some.mpr hcond
  simp [planInstr, planBranch, hop, ho, Solution.reached_iff.mpr hvisits, hc, hzero, hone]

/-- A plan that fails does so at the first block in which the solution misleads. -/
theorem plan_error (hp : f.Placed) (hwf : f.WellFormed) (h : plan r o f = .error e) :
    o.foldBranches = true ∧ ∃ b c, e = .invalidCondition b c ∧ r.Misleads f b c ∧
      ∀ b' < b, ∀ c', ¬ r.Misleads f b' c' := by
  obtain ⟨pre, ⟨b, i⟩, post, hsplit, hpre, hfail⟩ := planAll_error h
  obtain ⟨hi, rfl⟩ := hp.mem_placed.mp (hsplit ▸ List.mem_append_right pre List.mem_cons_self)
  obtain ⟨cond, onTrue, onFalse, c, hop, ho, hreached, hc, hzero, hone, rfl⟩ :=
    planInstr_error hfail
  refine ⟨ho, i.block, c, rfl, .of_branch hp hwf hi hop hreached hc hzero hone, ?_⟩
  -- what comes before was planned, and what comes after is in no lower block
  intro b' hlt c' hmisleads
  obtain ⟨j, hmem, hne⟩ := hmisleads.planInstr_ne hp ho
  have hsorted := hp.sorted_placed
  rw [hsplit, List.pairwise_append, List.pairwise_cons] at hsorted
  rw [hsplit, List.mem_append, List.mem_cons] at hmem
  rcases hmem with hmem | heq | hmem
  · obtain ⟨x, hx⟩ := hpre _ hmem
    exact hne x hx
  · cases heq
    exact Nat.lt_irrefl _ hlt
  · exact Nat.not_lt_of_le (hsorted.2.1.1 _ hmem) hlt

theorem Solution.Misleads.plan_ne (h : r.Misleads f b c) (hp : f.Placed)
    (ho : o.foldBranches = true) (cs : List Change) : plan r o f ≠ .ok cs := by
  intro hplan
  obtain ⟨i, hmem, hne⟩ := h.planInstr_ne hp ho
  obtain ⟨hi, rfl⟩ := hp.mem_placed.mp hmem
  exact hne _ (planInstr_of_plan hp hplan hi)

end Plans

/-- Simplifying a valid function by any solution, its own or that of another function, makes all
planned changes and counts them, or none. It makes none just if branches are to be folded and the
solution misleads at the end of some block; then the first such block is told, with the constant,
and the function is as it was. -/
theorem simplify_all_or_nothing (name : String) (script : List Stmt) (edits : List Edit) (f : Func)
    (hf : f = (Func.ofScript name script).edited edits) (hvalid : f.validate = .ok ())
    (r : Solution) (o : Options) (pass : Option String) (events : EventLog) (notes : Array Note) :
    ((∃ e w', simplify r o pass ⟨f, events, notes⟩ = .error e w') ↔
      o.foldBranches = true ∧ ∃ b c, r.Misleads f b c) ∧
    (∀ e w', simplify r o pass ⟨f, events, notes⟩ = .error e w' →
      ∃ b c, e = .invalidCondition b c ∧ r.Misleads f b c ∧
        (∀ b' < b, ∀ c', ¬ r.Misleads f b' c') ∧
        w'.func = f ∧ w'.events.transformations = events.transformations) ∧
    (¬ (o.foldBranches = true ∧ ∃ b c, r.Misleads f b c) →
      ∃ cs w', plan r o f = .ok cs ∧ cs = f.placed.filterMap (fun p => r.change? o p.2) ∧
        simplify r o pass ⟨f, events, notes⟩ = .ok cs.length w' ∧
        w'.func = f.folded (cs.foldl Folding.add .empty)) := by
  have hcons : f.Consistent := hf ▸ Func.consistent_edited name script edits
  have hp := hcons.placed
  have hwf := Func.WellFormed.of_validate hp hvalid
  cases hplan : plan r o f with
  | error e =>
    have hfail := simplify_of_plan_error (w := ⟨f, events, notes⟩) pass hplan
    obtain ⟨ho, b, c, rfl, hmisleads, hfirst⟩ := plan_error hp hwf hplan
    refine ⟨iff_of_true ⟨_, _, hfail⟩ ⟨ho, b, c, hmisleads⟩, fun e w' h => ?_, fun hnot => ?_⟩
    · rw [hfail] at h
      cases h
      exact ⟨b, c, rfl, hmisleads, hfirst, untouched_warnSize r pass _⟩
    · exact absurd ⟨ho, b, c, hmisleads⟩ hnot
  | ok cs =>
    obtain ⟨w', hw'⟩ := exists_simplify_of_validate hcons hvalid hplan pass events notes
    have hnot : ¬ (o.foldBranches = true ∧ ∃ b c, r.Misleads f b c) := by
      rintro ⟨ho, b, c, hmisleads⟩
      exact hmisleads.plan_ne hp ho cs hplan
    refine ⟨iff_of_false ?_ hnot, fun e w'' h => ?_, fun _ => ?_⟩
    · rintro ⟨e, w'', h⟩
      cases hw'.symm.trans h
    · cases hw'.symm.trans h
    · refine ⟨cs, w', rfl, plan_eq_filterMap hp hplan, hw', ?_⟩
      rw [plan_folding hp hplan]
      exact func_simplify hcons hvalid hw'

/-- A function with branches on numbers that are no truth values, and a sum before them. -/
def numberBranches : Func :=
  Func.ofScript "f"
    [.block 0 [.append (.uninterpreted "in" []), .append (.add (.value 0) (.const 1)),
       .append (.branch (.value 0) 1 2)],
     .block 1 [.append (.branch (.const 7) 3 3)], .block 2 [.append (.branch (.value 1) 3 3)],
     .block 3 [.append (.branch (.const 9) 3 3)]]

/-- A function with as many blocks, of which it does not reach the second. -/
def shortcut : Func :=
  Func.ofScript "g"
    [.block 0 [.append (.uninterpreted "in" []), .append (.add (.const 2) (.const 3)),
       .append (.jump 2)],
     .block 1 [.append (.ret none)], .block 2 [.append (.jump 3)], .block 3 [.append (.ret none)]]

theorem simplify_all_or_nothing_shortcut : numberBranches.validate = .ok () ∧
    ∃ r, shortcut.solve false = .ok r ∧ r.Misleads numberBranches 3 9 ∧
      (∃ w', simplify r {} none ⟨numberBranches, .empty, #[]⟩ = .error (.invalidCondition 2 5) w' ∧
        r.Misleads numberBranches 2 5 ∧ (∀ c, ¬ r.Misleads numberBranches 1 c) ∧
        w'.func = numberBranches ∧ w'.events.transformations = []) ∧
      ∃ w', simplify r { foldBranches := false } none ⟨numberBranches, .empty, #[]⟩ = .ok 1 w' := by
  have hvalid : numberBranches.validate = .ok () := by decide +kernel
  have hrun : ∃ r ∈ (shortcut.solve false).toOption, 0 < r.visitsTo 3 ∧
      (match simplify r {} none ⟨numberBranches, .empty, #[]⟩ with
        | .ok _ _ => false
        | .error e _ => e = .invalidCondition 2 5) = true ∧
      (numberBranches.placed.filterMap fun p =>
        r.change? { foldBranches := false } p.2).length = 1 := by decide +kernel
  obtain ⟨r, hr, hvisits, herror, hlength⟩ := hrun
  obtain ⟨-, hfails, -⟩ :=
    simplify_all_or_nothing "f" _ [] numberBranches rfl hvalid r {} none .empty #[]
  obtain ⟨-, -, hmakes⟩ := simplify_all_or_nothing "f" _ [] numberBranches rfl hvalid r
    { foldBranches := false } none .empty #[]
  refine ⟨hvalid, r, eq_ok_of_mem_toOption hr, ?_, ?_, ?_⟩
  · exact ⟨hvisits, by decide, by decide, ⟨5, 3, .branch (.const 9) 3 3⟩, _, _, _,
      by decide +kernel, rfl, .inl rfl⟩
  · split at herror
    · cases herror
    · next e w' heq =>
      obtain rfl : e = .invalidCondition 2 5 := by simpa using herror
      obtain ⟨b, c, hbc, hmisleads, hfirst, hfunc, htold⟩ := hfails _ w' heq
      cases hbc
      exact ⟨w', heq, hmisleads, hfirst 1 (by decide), hfunc, htold⟩
  · obtain ⟨cs, w', -, rfl, hw', -⟩ := hmakes (fun h => nomatch h.1)
    exact ⟨w', hlength ▸ hw'⟩

end ConstFlow
