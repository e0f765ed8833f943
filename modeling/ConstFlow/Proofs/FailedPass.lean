import ConstFlow.Proofs.Planning

/-!
# What a failed pass leaves

The pass plans all its changes first and then makes them, so that a failure should leave the
function as it was. It does, and no change is told, with one exception (`run_failed`).

While changes are made, values disappear and operations become others, but a terminator stays a
terminator and keeps its place (`Trimmed`). So a value can always be folded (its instruction is
still there, since no two changes are about the same one), and a branch can be replaced wherever its
block ends in a terminator. A function that was not verified may list a branch in a block that does
not. The plan has a change for it, and there the pass stops, with the changes before it made
(`strayBranch_changed`).
-/

namespace ConstFlow

/-- The function is as it was, and no change was told. -/
def Workspace.Untouched (w w' : Workspace) : Prop :=
  w'.func = w.func ∧ w'.events.transformations = w.events.transformations

/-- The instruction that a change removes. -/
def Change.removed? : Change → Option InstrId
  | .foldValue _ i _ => some i.id
  | .foldBranch .. => none

/-- The function after some changes, without the instructions `gone`. What is left stands where it
stood, and no operation became a terminator or ceased to be one. -/
structure Trimmed (f : Func) (gone : List InstrId) (g : Func) : Prop where
  consistent : g.Consistent
  kept : ∀ {k : InstrId} {i : Instr}, f.instr? k = some i → k ∉ gone →
    ∃ j, g.instr? k = some j ∧ j.op.isTerminator = i.op.isTerminator
  block : ∀ b, g.block? b = (f.block? b).map fun blk =>
    { blk with instrs := blk.instrs.filter (· ∉ gone) }

/-! ## What is recorded -/

section Untouched
variable {w w₁ w₂ : Workspace}

theorem Workspace.Untouched.trans (h₁ : w.Untouched w₁) (h₂ : w₁.Untouched w₂) :
    w.Untouched w₂ :=
  ⟨h₂.1.trans h₁.1, h₂.2.trans h₁.2⟩

theorem Workspace.events_record (w : Workspace) (d : EventDraft) :
    (w.record d).events.toList = w.events.toList ++ [d.finish] :=
  Array.toList_push

theorem Workspace.untouched_record (w : Workspace) {d : EventDraft}
    (hd : d.kind.isTransformation = false) : w.Untouched (w.record d) := by
  refine ⟨rfl, ?_⟩
  show (w.record d).events.toList.filter (·.kind.isTransformation) = _
  rw [w.events_record, List.filter_append, List.filter_singleton,
    show d.finish.kind.isTransformation = false from hd, cond_false, List.append_nil]
  rfl

theorem Workspace.untouched_foldl_record (ds : List EventDraft) (w : Workspace)
    (hds : ∀ d ∈ ds, d.kind.isTransformation = false) :
    w.Untouched (ds.foldl Workspace.record w) := by
  induction ds generalizing w with
  | nil => exact ⟨rfl, rfl⟩
  | cons d ds ih =>
    obtain ⟨hd, hds⟩ := List.forall_mem_cons.mp hds
    exact (w.untouched_record hd).trans (ih _ hds)

theorem untouched_warnSize (r : Solution) (pass : Option String) (w : Workspace) :
    w.Untouched (warnSize r pass w) := by
  unfold warnSize
  split
  · exact ⟨rfl, rfl⟩
  · exact (w.note _).untouched_record rfl

namespace ConstantPropagation

theorem untouched_started (w : Workspace) : w.Untouched (started w) :=
  w.untouched_record rfl

/-- The analysis tells only of histories, whether it fails or not. -/
theorem untouched_analyse (o : Options) (w : Workspace) :
    match analyse o w with
    | .ok _ w' => w.Untouched w'
    | .error _ w' => w.Untouched w' := by
  unfold analyse
  dsimp only
  cases (w.func.analyse o.recordHistory).result with
  | error e => exact ⟨rfl, rfl⟩
  | ok r =>
    dsimp only
    split
    · refine Workspace.untouched_foldl_record _ _ fun d hd => ?_
      obtain ⟨i, -, hd⟩ := List.mem_filterMap.mp hd
      obtain ⟨message, -, rfl⟩ := Option.map_eq_some_iff.mp hd
      rfl
    · exact ⟨rfl, rfl⟩

end ConstantPropagation

end Untouched

/-! ## Making the changes -/

section Changes
variable {f g : Func} {gone : List InstrId} {r : Solution} {pass : Option String} {c : Change}
  {w w' : Workspace} {e : Error}

theorem Trimmed.refl (h : f.Consistent) : Trimmed f [] f where
  consistent := h
  kept hi _ := ⟨_, hi, rfl⟩
  block b := by
    cases f.block? b with
    | none => rfl
    | some blk => simp

theorem Trimmed.foldValue (h : Trimmed f gone g) {id : InstrId} {k : Int64} {n : Nat} {i : Instr}
    {g₁ g₂ : Func} (hreplace : g.replaceUses id (.const k) = .ok (n, g₁))
    (hremove : g₁.remove id = .ok (i, g₂)) : Trimmed f (id :: gone) g₂ := by
  obtain ⟨-, hblocks₁, -, hindexed₁, hinstr₁⟩ :=
    Func.replaceUses_spec h.consistent.indexed (by simp) hreplace
  have hc₁ := (h.consistent.replaceUses hreplace).consistent
  obtain ⟨-, -, -, -, -, hinstr₂, hblock₂⟩ := Func.remove_spec hc₁.placed hindexed₁ hremove
  refine ⟨(hc₁.remove hremove).consistent, fun {k i} hi hk => ?_, fun b => ?_⟩
  · rw [List.mem_cons, not_or] at hk
    obtain ⟨j, hj, hterm⟩ := h.kept hi hk.2
    refine ⟨_, by rw [hinstr₂, if_neg hk.1, hinstr₁, hj, Option.map_some], ?_⟩
    rw [← hterm]
    exact Op.isTerminator_mapOperands _ j.op
  · rw [hblock₂, show g₁.block? b = g.block? b by rw [Func.block?, hblocks₁, Func.block?], h.block,
      Option.map_map]
    congr 1
    funext blk
    simp only [Function.comp_apply, List.filter_filter, List.mem_cons, not_or, decide_not,
      Bool.decide_and]

theorem Trimmed.foldBranch (h : Trimmed f gone g) {b : BlockId} {op old : Op} {g' : Func}
    (hreplace : g.replaceTerminator b op = .ok (old, g')) : Trimmed f gone g' := by
  obtain ⟨blk, id, i, -, -, hi, -, hold, hnew, hchanged⟩ :=
    Func.replaceTerminator_spec h.consistent.placed h.consistent.indexed hreplace
  refine ⟨⟨hchanged.placed, hchanged.indexed⟩, fun {k i'} hi' hk => ?_, fun b => ?_⟩
  · obtain ⟨j, hj, hterm⟩ := h.kept hi' hk
    rw [hchanged.instr]
    split
    · next heq =>
      obtain rfl : i = j := Option.some.inj (hi.symm.trans (heq ▸ hj))
      exact ⟨{ i with op := op }, by rw [hj, Option.map_some], by rw [← hterm, hold]; exact hnew⟩
    · exact ⟨j, hj, hterm⟩
  · rw [show g'.block? b = g.block? b by rw [Func.block?, hchanged.blocks, Func.block?], h.block]

theorem Change.commit_trimmed {u : Unit} (h : Trimmed f gone w.func)
    (hw : c.commit pass w = .ok u w') : Trimmed f (c.removed?.toList ++ gone) w'.func := by
  cases c with
  | foldValue b i k =>
    obtain ⟨_, g₁, _, g₂, hreplace, hremove, rfl⟩ := Change.commit_foldValue hw
    exact h.foldValue hreplace hremove
  | foldBranch b i target =>
    obtain ⟨_, g', hreplace, rfl⟩ := Change.commit_foldBranch hw
    exact h.foldBranch hreplace

theorem commitAll_trimmed (cs : List Change) : ∀ {gone : List InstrId} {w : Workspace} {u : Unit},
    Trimmed f gone w.func → commitAll pass cs w = .ok u w' →
      ∃ gone', Trimmed f gone' w'.func ∧
        ∀ k ∈ gone', k ∈ gone ∨ ∃ c ∈ cs, c.removed? = some k := by
  induction cs with
  | nil =>
    intro gone w u h hw
    cases hw
    exact ⟨gone, h, fun k hk => .inl hk⟩
  | cons c cs ih =>
    intro gone w u h hw
    unfold commitAll at hw
    split at hw
    · next w₁ hcommit =>
      obtain ⟨gone', h', hgone'⟩ := ih (c.commit_trimmed h hcommit) hw
      refine ⟨gone', h', fun k hk => ?_⟩
      rcases hgone' k hk with hk | ⟨c', hc', hk⟩
      · rcases List.mem_append.mp hk with hk | hk
        · exact .inr ⟨c, List.mem_cons_self, Option.mem_toList.mp hk⟩
        · exact .inl hk
      · exact .inr ⟨c', List.mem_cons_of_mem _ hc', hk⟩
    · cases hw

/-- Changes fail at one of them, after those before it were made. -/
theorem commitAll_stops (cs : List Change) : ∀ {w : Workspace}, commitAll pass cs w = .error e w' →
    ∃ pre c post w₁, cs = pre ++ c :: post ∧ commitAll pass pre w = .ok () w₁ ∧
      c.commit pass w₁ = .error e w' := by
  induction cs with
  | nil => exact fun hw => nomatch hw
  | cons c cs ih =>
    intro w hw
    unfold commitAll at hw
    split at hw
    · next w₁ hcommit =>
      obtain ⟨pre, c', post, w₂, rfl, hpre, hc'⟩ := ih hw
      exact ⟨c :: pre, c', post, w₂, rfl, by rw [commitAll, hcommit]; exact hpre, hc'⟩
    · next e' w₁ hcommit =>
      cases hw
      exact ⟨[], c, cs, w, rfl, rfl, hcommit⟩

/-- A value that is there can be folded. -/
theorem exists_foldValue (hg : g.Consistent) {i : Instr} {id : InstrId} (hi : g.instr? id = some i)
    (k : Int64) : ∃ n g₁ j g₂, g.replaceUses id (.const k) = .ok (n, g₁) ∧
      g₁.remove id = .ok (j, g₂) := by
  obtain ⟨n, g₁, hreplace⟩ : ∃ n g₁, g.replaceUses id (.const k) = .ok (n, g₁) := by
    unfold Func.replaceUses
    rw [hi]
    exact ⟨_, _, rfl⟩
  obtain ⟨-, -, -, -, hinstr₁⟩ := Func.replaceUses_spec hg.indexed (by simp) hreplace
  have hi₁ := hinstr₁ id
  rw [hi, Option.map_some] at hi₁
  refine ⟨n, g₁, ?_⟩
  unfold Func.remove
  rw [hi₁]
  exact ⟨_, _, hreplace, rfl⟩

/-- A terminator can be replaced, unless the block ends in something else. -/
theorem replaceTerminator_fails (hg : g.Placed) {b : BlockId} {blk : Block}
    (hblk : g.block? b = some blk) (hne : blk.instrs ≠ []) {op : Op} (hop : op.isTerminator = true)
    (h : g.replaceTerminator b op = .error e) :
    e = .malformed (.unterminated b) ∧ ∃ id i, blk.instrs.getLast? = some id ∧
      g.instr? id = some i ∧ i.op.isTerminator = false := by
  have hid := List.getLast?_eq_some_getLast hne
  obtain ⟨i, hi, -⟩ := (hg.mem hblk _).mp (List.mem_of_getLast? hid)
  have hi : g.instr? (blk.instrs.getLast hne) = some i := hi
  unfold Func.replaceTerminator at h
  simp only [if_pos hop, hblk, Block.terminator?, hid, hi] at h
  split at h
  · cases h
  · next hterm =>
    cases h
    exact ⟨rfl, _, i, hid, hi, Bool.eq_false_iff.mpr hterm⟩

/-- A planned change that fails, after others were made, is one to a branch whose block does not end
in a terminator. -/
theorem Change.commit_fails (hp : f.Placed) (h : Trimmed f gone w.func) (hc : c.Justified f r)
    (hout : c.id ∉ gone)
    (hgone : ∀ {k i}, f.instr? k = some i → i.op.isTerminator = true → k ∉ gone)
    (hw : c.commit pass w = .error e w') :
    w' = w ∧ ∃ i target blk id j, c = .foldBranch i.block i target ∧
      e = .malformed (.unterminated i.block) ∧ f.block? i.block = some blk ∧
      blk.instrs.getLast? = some id ∧ f.instr? id = some j ∧ j.op.isTerminator = false := by
  cases c with
  | foldValue b i k =>
    obtain ⟨hi, -⟩ := hc
    obtain ⟨j, hj, -⟩ := h.kept hi hout
    obtain ⟨n, g₁, j', g₂, hreplace, hremove⟩ := exists_foldValue h.consistent hj k
    simp only [Change.commit, hreplace, hremove] at hw
    cases hw
  | foldBranch b i target =>
    obtain ⟨hi, rfl, hdecides⟩ := hc
    obtain ⟨cond, onTrue, onFalse, hop, -⟩ := hdecides
    obtain ⟨blk, hblk, hmem⟩ := hp.listed hi
    have hblk' := h.block i.block
    rw [hblk, Option.map_some] at hblk'
    have hleft : i.id ∈ blk.instrs.filter (· ∉ gone) :=
      List.mem_filter.mpr ⟨hmem, decide_eq_true hout⟩
    unfold Change.commit at hw
    dsimp only at hw
    split at hw
    · next e' hreplace =>
      cases hw
      obtain ⟨rfl, id, j, hid, hj, hterm⟩ := replaceTerminator_fails h.consistent.placed hblk'
        (List.ne_nil_of_mem hleft) rfl hreplace
      have hid₀ := List.getLast?_eq_some_getLast (List.ne_nil_of_mem hmem)
      obtain ⟨j₀, hj₀, -⟩ := (hp.mem hblk _).mp (List.mem_of_getLast? hid₀)
      refine ⟨rfl, i, target, blk, _, j₀, rfl, rfl, hblk, hid₀, hj₀, ?_⟩
      -- a terminator at the end would still be there, and be one
      by_contra htrue
      have htrue : j₀.op.isTerminator = true := by simpa using htrue
      have hstays := hgone hj₀ htrue
      have hlast := getLast?_filter (p := (decide <| · ∉ gone)) hid₀ (decide_eq_true hstays)
      obtain ⟨j', hj', hsame⟩ := h.kept hj₀ hstays
      rw [Option.some.inj (hlast.symm.trans hid)] at hj'
      obtain rfl : j' = j := Option.some.inj (hj'.symm.trans hj)
      rw [hterm, htrue] at hsame
      cases hsame
    · cases hw

end Changes

/-! ## The pass -/

/-- The pass stopped at the change planned for the branch `i`, whose block does not end in a
terminator, and the changes planned before it were made. -/
def StoppedHalfway (o : Options) (w w' : Workspace) (e : Error) : Prop :=
  ∃ r w₁ pre i target post blk id j, w.func.solve o.recordHistory = .ok r ∧ w.Untouched w₁ ∧
    plan r o w.func = .ok (pre ++ .foldBranch i.block i target :: post) ∧
    commitAll (some ConstantPropagation.name) pre w₁ = .ok () w' ∧
    e = .malformed (.unterminated i.block) ∧ w.func.block? i.block = some blk ∧
    blk.instrs.getLast? = some id ∧ w.func.instr? id = some j ∧ j.op.isTerminator = false

section Pass
variable {o : Options} {r : Solution} {w w' : Workspace} {e : Error}

/-- The changes of a plan fail only at a branch whose block does not end in a terminator. -/
theorem commitAll_fails (hf : w.func.Consistent) {pass : Option String} {cs : List Change}
    (hplan : plan r o w.func = .ok cs) (hw : commitAll pass cs w = .error e w') :
    ∃ pre i target post blk id j, cs = pre ++ .foldBranch i.block i target :: post ∧
      commitAll pass pre w = .ok () w' ∧ e = .malformed (.unterminated i.block) ∧
      w.func.block? i.block = some blk ∧ blk.instrs.getLast? = some id ∧
      w.func.instr? id = some j ∧ j.op.isTerminator = false := by
  obtain ⟨pre, c, post, w₁, rfl, hpre, hc⟩ := commitAll_stops cs hw
  obtain ⟨gone, htrimmed, hgone⟩ := commitAll_trimmed pre (.refl hf) hpre
  have hremoved : ∀ k ∈ gone, ∃ c' ∈ pre, c'.removed? = some k := fun k hk =>
    (hgone k hk).resolve_left List.not_mem_nil
  have hout : c.id ∉ gone := by
    intro hmem
    obtain ⟨c', hc', hk⟩ := hremoved _ hmem
    have hid : c'.id = c.id := by
      cases c' with
      | foldValue b i k => exact Option.some.inj hk
      | foldBranch b i target => cases hk
    have hnodup := nodup_plan hf.placed hplan
    rw [List.map_append, List.map_cons, List.nodup_append] at hnodup
    exact hnodup.2.2 _ (List.mem_map_of_mem hc') _ List.mem_cons_self hid
  have hterminators : ∀ {k i}, w.func.instr? k = some i → i.op.isTerminator = true → k ∉ gone := by
    intro k i hi hterm hmem
    obtain ⟨c', hc', hk⟩ := hremoved k hmem
    cases c' with
    | foldBranch b i target => cases hk
    | foldValue b i' v =>
      obtain ⟨hi', -, hfold, -⟩ := justified_of_plan hf.placed hplan (List.mem_append_left _ hc')
      obtain rfl : i' = i := Option.some.inj (hi'.symm.trans (Option.some.inj hk ▸ hi))
      revert hfold hterm
      cases i'.op <;> simp [Op.isFoldable, Op.isTerminator]
  have hjust := justified_of_plan hf.placed hplan
    (List.mem_append_right pre (List.mem_cons_self (a := c) (l := post)))
  obtain ⟨rfl, i, target, blk, id, j, rfl, herror, hblock⟩ :=
    Change.commit_fails hf.placed htrimmed hjust hout hterminators hc
  exact ⟨pre, i, target, post, blk, id, j, rfl, hpre, herror, hblock⟩

theorem simplify_fails (hf : w.func.Consistent) {pass : Option String}
    (h : simplify r o pass w = .error e w') : w.Untouched w' ∨
      ∃ w₁ pre i target post blk id j, w.Untouched w₁ ∧
        plan r o w.func = .ok (pre ++ .foldBranch i.block i target :: post) ∧
        commitAll pass pre w₁ = .ok () w' ∧ e = .malformed (.unterminated i.block) ∧
        w.func.block? i.block = some blk ∧ blk.instrs.getLast? = some id ∧
        w.func.instr? id = some j ∧ j.op.isTerminator = false := by
  have hwarn := untouched_warnSize r pass w
  unfold simplify at h
  dsimp only at h
  split at h
  · cases h
    exact .inl hwarn
  · next cs hplan =>
    split at h
    · next e' w₂ hcommit =>
      cases h
      have hf' : (warnSize r pass w).func.Consistent := hwarn.1 ▸ hf
      obtain ⟨pre, i, target, post, blk, id, j, rfl, hpre, herror, hblock⟩ :=
        commitAll_fails hf' hplan hcommit
      rw [hwarn.1] at hplan hblock
      exact .inr ⟨_, pre, i, target, post, blk, id, j, hwarn, hplan, hpre, herror, hblock⟩
    · cases h

/-- A planned change to a branch needs the option. -/
theorem foldBranches_of_plan {f : Func} {cs : List Change} (h : plan r o f = .ok cs) {b : BlockId}
    {i : Instr} {target : BlockId} (hc : .foldBranch b i target ∈ cs) : o.foldBranches = true := by
  obtain ⟨p, -, hplan⟩ := (mem_planAll h).mp hc
  rcases planInstr_eq_some.mp hplan with ⟨k, hk, -⟩ | ⟨target', -, hfold, -⟩
  · cases hk
  · exact hfold

theorem ConstantPropagation.verify_error (h : verify o w = .error e w') : w' = w := by
  unfold verify at h
  split at h
  · split at h
    · cases h
    · cases h
      rfl
  · cases h

theorem ConstantPropagation.validate_of_verify {u : Unit} (h : verify o w = .ok u w')
    (ho : o.verifyInput = true) : w.func.validate = .ok () := by
  unfold verify at h
  rw [if_pos ho] at h
  split at h
  · next hvalid => exact hvalid
  · cases h

/-- A failed pass leaves the function as it was and tells of no change, or it stopped halfway: it
was not asked to verify the function, and a block with a decided branch does not end in a
terminator. -/
theorem run_failed (name : String) (script : List Stmt) (edits : List Edit) (o : Options)
    (w w' : Workspace) (e : Error) (hfunc : w.func = (Func.ofScript name script).edited edits)
    (hrun : (constantPropagation o).run w = .error e w') :
    (w'.func = w.func ∧ w'.events.transformations = w.events.transformations) ∨
      (o.verifyInput = false ∧ o.foldBranches = true ∧ StoppedHalfway o w w' e) := by
  have hf : w.func.Consistent := hfunc ▸ Func.consistent_edited name script edits
  have hrun : ConstantPropagation.run o w = .error e w' := hrun
  have hstarted := ConstantPropagation.untouched_started w
  rw [ConstantPropagation.run_eq] at hrun
  split at hrun
  · next e₀ w₀ hverify =>
    cases hrun
    rw [ConstantPropagation.verify_error hverify]
    exact .inl hstarted
  · next w₀ hverify =>
    have hanalyse := ConstantPropagation.untouched_analyse o w₀
    rw [ConstantPropagation.verify_ok hverify] at hrun hanalyse
    split at hrun
    · next e₁ w₁ heq =>
      cases hrun
      rw [heq] at hanalyse
      exact .inl (hstarted.trans hanalyse)
    · next r w₁ heq =>
      rw [heq] at hanalyse
      have hw₁ : w.Untouched w₁ := hstarted.trans hanalyse
      obtain ⟨-, hsolve⟩ := ConstantPropagation.analyse_ok heq
      split at hrun
      · next e₂ w₂ htransform =>
        cases hrun
        unfold ConstantPropagation.transform at htransform
        split at htransform
        · rcases simplify_fails (hw₁.1 ▸ hf) htransform with
            huntouched | ⟨w₃, pre, i, target, post, blk, id, j, hw₃, hplan, hpre, herror, hblk,
              hlast, hj, hterm⟩
          · exact .inl (hw₁.trans huntouched)
          · rw [hw₁.1] at hplan hblk hj
            have hbranches := foldBranches_of_plan hplan
              (List.mem_append_right pre List.mem_cons_self)
            refine .inr ⟨?_, hbranches, r, w₃, pre, i, target, post, blk, id, j, hsolve,
              hw₁.trans hw₃, hplan, hpre, herror, hblk, hlast, hj, hterm⟩
            -- a verified function has only blocks that end in a terminator
            rw [← Bool.not_eq_true]
            intro ho
            have hvalid := ConstantPropagation.validate_of_verify hverify ho
            rw [hstarted.1] at hvalid
            have hwf := Func.WellFormed.of_validate hf.placed hvalid
            obtain ⟨front, hfront⟩ := List.getLast?_eq_some_iff.mp hlast
            rw [(hwf.last hblk hfront hj).mpr rfl] at hterm
            cases hterm
        · cases htransform
      · cases hrun

/-- A block in which a decided branch stands before the end. -/
def strayBranch : List Stmt :=
  [.block 0 [.append (.add (.const 2) (.const 3)), .append (.branch (.const 1) 0 0),
     .append (.uninterpreted "use" [.value 0])]]

theorem run_failed_strayBranch : ∃ e w',
    (constantPropagation .unchecked).run (Workspace.ofFunc (Func.ofScript "f" strayBranch)) =
      .error e w' ∧
    w'.func.instr? 0 = none ∧
    StoppedHalfway .unchecked (Workspace.ofFunc (Func.ofScript "f" strayBranch)) w' e := by
  have hrun : (match (constantPropagation .unchecked).run
      (Workspace.ofFunc (Func.ofScript "f" strayBranch)) with
    | .ok _ _ => false
    | .error _ w' => w'.func.instr? 0 = none) = true := by decide +kernel
  split at hrun
  · cases hrun
  · next e w' heq =>
    have hnone : w'.func.instr? 0 = none := by simpa using hrun
    refine ⟨e, w', heq, hnone, ?_⟩
    rcases run_failed "f" strayBranch [] .unchecked _ w' e rfl heq with ⟨hsame, -⟩ | ⟨-, -, hhalf⟩
    · have hlive : (Func.ofScript "f" strayBranch).instr? 0 ≠ none := by decide +kernel
      rw [hsame] at hnone
      exact absurd hnone hlive
    · exact hhalf

/-- A pass that fails may have changed the function, and told so. -/
theorem strayBranch_changed :
    ¬ ∀ (name : String) (script : List Stmt) (edits : List Edit) (o : Options) (w w' : Workspace)
      (e : Error), w.func = (Func.ofScript name script).edited edits →
      (constantPropagation o).run w = .error e w' →
      w'.func = w.func ∧ w'.events.transformations = w.events.transformations := by
  intro h
  have hrun : (match (constantPropagation .unchecked).run
      (Workspace.ofFunc (Func.ofScript "f" strayBranch)) with
    | .ok _ _ => false
    | .error _ w' => w'.events.transformations ≠ []) = true := by decide +kernel
  split at hrun
  · cases hrun
  · next e w' heq =>
    have htold : w'.events.transformations ≠ [] := by simpa using hrun
    exact htold (h "f" strayBranch [] .unchecked _ w' e rfl heq).2

end Pass

end ConstFlow
