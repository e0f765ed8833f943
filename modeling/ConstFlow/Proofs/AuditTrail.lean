import ConstFlow.Proofs.Simultaneous

/-!
# What simplification tells

Every change is told when it is made, on a function that the changes before it have altered already.
Yet the events describe the function as it stood at first: read in order, they are the differences
between the two functions, instruction by instruction in the order of the lists.

* `Change.events` : what one change tells; `commitAll_events` : what a list of changes tells;
* `Folding.told` : what is told of an instruction, read off the function that is left;
* `Folded.events_eq` : the two agree;
* `simplify_told` : the events of a simplification, and what can be counted off them.
-/

namespace ConstFlow

/-- The kind of event that tells of a value that became a constant. -/
def Op.foldKind (op : Op) : EventKind :=
  if op.isPhi then .phiSimplified else .constantFolded

/-- The events that tell of a change. -/
def Change.events (function : String) (pass : Option String) : Change → List Event
  | .foldValue b i v =>
    [⟨i.op.foldKind, some function, some b, s!"{i.text} -> {v.toInt}", pass⟩,
      ⟨.instructionRemoved, some function, some b, valueName i.id, pass⟩]
  | .foldBranch b i target =>
    [⟨.branchSimplified, some function, some b, s!"{i.text} -> {(Op.jump target).text}", pass⟩]

/-- The event that tells of a solution with another number of slots, if that is so. -/
def sizeWarning (r : Solution) (pass : Option String) (f : Func) : List Event :=
  if r.facts.size = f.slotCount then []
  else [⟨.warning, some f.name, none,
    (Note.sizeMismatch r.facts.size f.name f.slotCount).message, pass⟩]

/-- What is told of the instruction `i` of `f`, where `g` is left of `f`. If it is gone, that its
value became what is read in its place, and that it was removed; if it is a branch and a jump stands
in its place, that; and otherwise nothing. -/
def Folding.told (d : Folding) (f g : Func) (pass : Option String) (i : Instr) : List Event :=
  match g.instr? i.id with
  | none =>
    [⟨i.op.foldKind, some f.name, some i.block,
        s!"{i.text} -> {(d.operand (.value i.id)).text}", pass⟩,
      ⟨.instructionRemoved, some f.name, some i.block, valueName i.id, pass⟩]
  | some j =>
    match i.op, j.op with
    | .branch .., .jump _ =>
      [⟨.branchSimplified, some f.name, some i.block, s!"{i.text} -> {j.op.text}", pass⟩]
    | _, _ => []

/-! ## Recording -/

section Recording
variable {w w' : Workspace} {pass : Option String} {c : Change} {cs : List Change} {u : Unit}

theorem Workspace.events_recordAt (w : Workspace) (kind : EventKind) (b : BlockId)
    (message : String) (pass : Option String) :
    (w.recordAt kind b message pass).events.toList =
      w.events.toList ++ [⟨kind, some w.func.name, some b, message, pass⟩] :=
  w.events_record _

theorem events_warnSize (r : Solution) (pass : Option String) (w : Workspace) :
    (warnSize r pass w).events.toList = w.events.toList ++ sizeWarning r pass w.func := by
  unfold warnSize sizeWarning
  split
  · exact (List.append_nil _).symm
  · exact (w.note _).events_record _

/-- A change is told under the name of the function, which it keeps. -/
theorem Change.commit_events (hf : w.func.Consistent) (h : c.commit pass w = .ok u w') :
    w'.func.Consistent ∧ w'.func.name = w.func.name ∧
      w'.events.toList = w.events.toList ++ c.events w.func.name pass := by
  have hcons : w'.func.Consistent := by
    have hderived := c.derived_commit pass hf
    rw [h] at hderived
    exact hderived.consistent
  refine ⟨hcons, ?_⟩
  cases c with
  | foldValue b i v =>
    obtain ⟨n, g₁, j, g₂, hreplace, hremove, rfl⟩ := Change.commit_foldValue h
    obtain ⟨hname₁, -⟩ := Func.replaceUses_spec hf.indexed (by simp) hreplace
    have hf₁ := (hf.replaceUses hreplace).consistent
    obtain ⟨-, hname₂, -⟩ := Func.remove_spec hf₁.placed hf₁.indexed hremove
    have hname : g₂.name = w.func.name := hname₂.trans hname₁
    refine ⟨hname, ?_⟩
    rw [Workspace.events_recordAt, Workspace.events_recordAt, List.append_assoc, ← hname]
    rfl
  | foldBranch b i target =>
    obtain ⟨old, g, hreplace, rfl⟩ := Change.commit_foldBranch h
    obtain ⟨_, _, _, -, -, -, -, -, -, hchanged⟩ :=
      Func.replaceTerminator_spec hf.placed hf.indexed hreplace
    refine ⟨hchanged.name, ?_⟩
    rw [Workspace.events_recordAt, ← hchanged.name]
    rfl

theorem commitAll_events (hf : w.func.Consistent) (h : commitAll pass cs w = .ok u w') :
    w'.events.toList = w.events.toList ++ cs.flatMap (Change.events w.func.name pass) := by
  induction cs generalizing w with
  | nil =>
    cases h
    exact (List.append_nil _).symm
  | cons c cs ih =>
    unfold commitAll at h
    split at h
    · next w₁ hcommit =>
      obtain ⟨hf₁, hname, hevents⟩ := Change.commit_events hf hcommit
      rw [ih hf₁ h, hevents, hname, List.flatMap_cons, List.append_assoc]
    · cases h

end Recording

/-! ## Reading the events -/

section Reading
variable {f g : Func} {r : Solution} {o : Options} {pass : Option String} {cs : List Change}
  {i : Instr}

/-- What the change to an instruction tells can be read off the function that is left. -/
theorem Folded.events_eq (h : Folded f (r.folding o f) g) (hi : f.instr? i.id = some i)
    (pass : Option String) : (r.change? o i).toList.flatMap (Change.events f.name pass) =
      (r.folding o f).told f g pass i := by
  have hconst := Solution.consts_folding (r := r) (o := o) hi
  have hjump := Solution.jumps_folding (r := r) (o := o) hi
  unfold Folding.told Solution.change?
  cases hc : r.constFor? o i with
  | some v =>
    have hgone : g.instr? i.id = none := by
      rw [h.instr, if_neg (by simp [hconst, hc])]
    rw [hgone, Folding.operand, hconst, hc]
    rfl
  | none =>
    rw [h.instr_kept hi (hconst.trans hc), Folding.op, hjump]
    cases ht : r.jumpFor? o i with
    | some target =>
      obtain ⟨-, -, cond, onTrue, onFalse, hop, -⟩ := Solution.jumpFor?_eq_some.mp ht
      simp only [hop]
      rfl
    | none =>
      -- other operands make no jump out of a branch
      cases i.op with
      | branch cond onTrue onFalse => rfl
      | _ => rfl

theorem plan_told (hp : f.Placed) (hplan : plan r o f = .ok cs) (h : Folded f (r.folding o f) g)
    (pass : Option String) : cs.flatMap (Change.events f.name pass) =
      f.placed.flatMap fun p => (r.folding o f).told f g pass p.2 := by
  rw [plan_eq_filterMap hp hplan, List.filterMap_eq_flatMap_toList, List.flatMap_assoc]
  refine List.flatMap_congr fun p hmem => ?_
  exact h.events_eq (hp.mem_placed.mp hmem).1 pass

theorem valueName_injective : Function.Injective valueName := by
  intro a b h
  have hrepr : a.repr = b.repr := by
    simpa [valueName] using h
  have hdigits : Nat.toDigits 10 a = Nat.toDigits 10 b := by
    rw [← Nat.toList_repr, hrepr, Nat.toList_repr]
  rw [← Nat.ofDigitChars_ten_toDigits (n := a), hdigits, Nat.ofDigitChars_ten_toDigits]

@[simp] theorem Op.foldKind_ne_removed (op : Op) : op.foldKind ≠ .instructionRemoved := by
  unfold foldKind
  split <;> decide

@[simp] theorem Op.foldKind_ne_branch (op : Op) : op.foldKind ≠ .branchSimplified := by
  unfold foldKind
  split <;> decide

/-- The removals that name an instruction are the changes that remove it. -/
theorem countP_removed (function : String) (pass : Option String) (cs : List Change) (k : InstrId) :
    (cs.flatMap (Change.events function pass)).countP
        (fun e => e.kind = .instructionRemoved ∧ e.message = valueName k) =
      (cs.filterMap Change.removed?).count k := by
  induction cs with
  | nil => rfl
  | cons c cs ih =>
    rw [List.flatMap_cons, List.countP_append, ih]
    cases c with
    | foldValue b i v =>
      rw [List.filterMap_cons_some (show (Change.foldValue b i v).removed? = some i.id from rfl),
        List.count_cons, Nat.add_comm]
      simp [Change.events, valueName_injective.eq_iff]
    | foldBranch b i target =>
      rw [List.filterMap_cons_none (show (Change.foldBranch b i target).removed? = none from rfl)]
      exact Nat.zero_add _

/-- Every change is told once, as a removal or as a branch that became a jump. -/
theorem countP_changes (function : String) (pass : Option String) (cs : List Change) :
    (cs.flatMap (Change.events function pass)).countP (·.kind = .instructionRemoved) +
      (cs.flatMap (Change.events function pass)).countP (·.kind = .branchSimplified) =
      cs.length := by
  induction cs with
  | nil => rfl
  | cons c cs ih =>
    have hone : (c.events function pass).countP (·.kind = .instructionRemoved) +
        (c.events function pass).countP (·.kind = .branchSimplified) = 1 := by
      cases c with
      | foldValue b i v => simp [Change.events]
      | foldBranch b i target => rfl
    rw [List.flatMap_cons, List.countP_append, List.countP_append, List.length_cons]
    omega

/-- An event is about an instruction as it stood, at the block where it stood. -/
theorem of_mem_told {d : Folding} {e : Event} (h : e ∈ d.told f g pass i) :
    e.function = some f.name ∧ e.block = some i.block ∧ e.pass = pass ∧
      (e.kind = .instructionRemoved ∧ e.message = valueName i.id ∨
        e.kind ≠ .instructionRemoved ∧ ∃ rest, e.message = i.text ++ " -> " ++ rest) := by
  unfold Folding.told at h
  split at h
  · rcases List.mem_pair.mp h with rfl | rfl
    · exact ⟨rfl, rfl, rfl, .inr ⟨i.op.foldKind_ne_removed, _, rfl⟩⟩
    · exact ⟨rfl, rfl, rfl, .inl ⟨rfl, rfl⟩⟩
  · split at h
    · rw [List.mem_singleton] at h
      subst h
      exact ⟨rfl, rfl, rfl, .inr ⟨nofun, _, rfl⟩⟩
    · cases h

/-- The instructions that the changes of a plan remove are those that are gone afterwards. -/
theorem mem_removed (hp : f.Placed) (hplan : plan r o f = .ok cs)
    (h : Folded f (r.folding o f) g) {k : InstrId} :
    k ∈ cs.filterMap Change.removed? ↔ (f.instr? k).isSome = true ∧ g.instr? k = none := by
  rw [List.mem_filterMap]
  constructor
  · rintro ⟨c, hc, hk⟩
    have hhas := has_of_mem_plan hp hplan hc
    cases c with
    | foldBranch b i target => cases hk
    | foldValue b i v =>
      cases hk
      have hconst : (r.folding o f).consts i.id = some v := hhas
      obtain ⟨j, hj, -⟩ := Option.bind_eq_some_iff.mp hconst
      exact ⟨by rw [hj]; rfl, (h.gone (by rw [hconst]; rfl)).1⟩
  · rintro ⟨hlive, hgone⟩
    obtain ⟨i, hi⟩ := Option.isSome_iff_exists.mp hlive
    obtain rfl := hp.slot hi
    cases hconst : r.constFor? o i with
    | none =>
      cases hgone.symm.trans (h.instr_kept hi ((Solution.consts_folding hi).trans hconst))
    | some v =>
      refine ⟨.foldValue i.block i v, (mem_plan hp hplan).mpr ⟨i, hi, ?_⟩, rfl⟩
      rw [Solution.change?, hconst]
      rfl

theorem nodup_removed (hp : f.Placed) (hplan : plan r o f = .ok cs) :
    (cs.filterMap Change.removed?).Nodup := by
  have hsub : (cs.filterMap Change.removed?).Sublist (cs.map Change.id) := by
    clear hplan
    induction cs with
    | nil => exact List.Sublist.refl _
    | cons c cs ih =>
      cases c with
      | foldValue b i v => exact ih.cons_cons i.id
      | foldBranch b i target => exact ih.cons i.id
  exact hsub.nodup (nodup_plan hp hplan)

end Reading

/-- The events of a simplification are those that were there, a warning if the solution has another
number of slots, and what became of the instructions of the function, told one by one in the order
of the lists. So the removals name the instructions that are gone, each once, the removals and the
branches are as many as the changes, and whatever is told is told of an instruction as it stood
before the first change. -/
theorem simplify_told (name : String) (script : List Stmt) (edits : List Edit) (f : Func)
    (hf : f = (Func.ofScript name script).edited edits) (hvalid : f.validate = .ok ())
    (r : Solution) (o : Options) (pass : Option String) (events : EventLog) (notes : Array Note)
    (n : Nat) (w' : Workspace) (h : simplify r o pass ⟨f, events, notes⟩ = .ok n w') :
    ∃ told : List Event,
      w'.events.toList = events.toList ++ sizeWarning r pass f ++ told ∧
      told = f.placed.flatMap (fun p => (r.folding o f).told f w'.func pass p.2) ∧
      (∀ k, told.countP (fun e => e.kind = .instructionRemoved ∧ e.message = valueName k) =
        if (f.instr? k).isSome = true ∧ w'.func.instr? k = none then 1 else 0) ∧
      n = told.countP (·.kind = .instructionRemoved) + told.countP (·.kind = .branchSimplified) ∧
      ∀ e ∈ told, ∃ i ∈ f.instrs, e.function = some f.name ∧ e.block = some i.block ∧
        e.pass = pass ∧ (e.kind = .instructionRemoved ∧ e.message = valueName i.id ∨
          e.kind ≠ .instructionRemoved ∧ ∃ rest, e.message = i.text ++ " -> " ++ rest) := by
  have hcons : f.Consistent := hf ▸ Func.consistent_edited name script edits
  have hp := hcons.placed
  have hwf := Func.WellFormed.of_validate hp hvalid
  obtain ⟨cs, w₁, hplan, rfl, hcommit, -, hevents⟩ := simplify_ok h
  replace hplan : plan r o f = .ok cs := hplan
  obtain ⟨-, -, -, hfolded, -, -⟩ := simplify_folding hcons hwf h
  replace hfolded : Folded f (r.folding o f) w'.func := hfolded
  have htold := plan_told hp hplan hfolded pass
  have hwarned : (warnSize r pass ⟨f, events, notes⟩).func = f := func_warnSize pass r
  refine ⟨cs.flatMap (Change.events f.name pass), ?_, htold, fun k => ?_,
    (countP_changes f.name pass cs).symm, fun e he => ?_⟩
  · rw [hevents, commitAll_events (hwarned.symm ▸ hcons) hcommit, hwarned, events_warnSize]
  · rw [countP_removed, (nodup_removed hp hplan).count]
    exact if_congr (mem_removed hp hplan hfolded) rfl rfl
  · rw [htold, List.mem_flatMap] at he
    obtain ⟨p, hmem, he⟩ := he
    exact ⟨p.2, hp.mem_instrs.mpr (hp.mem_placed.mp hmem).1, of_mem_told he⟩

theorem simplify_told_borrower : borrower.validate = .ok () ∧ ∃ r w' told,
    lender.solve false = .ok r ∧ simplify r {} none ⟨borrower, .empty, #[]⟩ = .ok 6 w' ∧
    sizeWarning r none borrower ≠ [] ∧
    w'.events.toList = [] ++ sizeWarning r none borrower ++ told ∧
    told.countP (·.kind = .instructionRemoved) + told.countP (·.kind = .branchSimplified) = 6 ∧
    told.countP (fun e => e.kind = .instructionRemoved ∧ e.message = valueName 4) = 1 ∧
    told.countP (fun e => e.kind = .instructionRemoved ∧ e.message = valueName 5) = 0 := by
  have hrun : ∃ r ∈ (lender.solve false).toOption, r.facts.size ≠ borrower.slotCount ∧
      (match simplify r {} none ⟨borrower, .empty, #[]⟩ with
        | .ok n w' => decide (n = 6 ∧ w'.func.instr? 4 = none ∧ w'.func.instr? 5 ≠ none)
        | .error _ _ => false) = true := by decide +kernel
  obtain ⟨r, hr, hsize, hmatch⟩ := hrun
  split at hmatch
  · next n w' heq =>
    obtain ⟨rfl, hfour, hfive⟩ := of_decide_eq_true hmatch
    obtain ⟨told, hevents, -, hremoved, hcount, -⟩ :=
      simplify_told "f" _ _ borrower rfl borrower_validates r {} none .empty #[] 6 w' heq
    refine ⟨borrower_validates, r, w', told, eq_ok_of_mem_toOption hr, heq, ?_, hevents,
      hcount.symm, ?_, ?_⟩
    · rw [sizeWarning, if_neg hsize]
      exact List.cons_ne_nil _ _
    · rw [hremoved, if_pos ⟨by decide +kernel, hfour⟩]
    · rw [hremoved, if_neg fun h => hfive h.2]
  · cases hmatch

end ConstFlow
