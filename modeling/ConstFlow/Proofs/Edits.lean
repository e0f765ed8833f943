import ConstFlow.Fold.Simplify
import ConstFlow.Proofs.Users

/-!
# Functions after edits

`Func.Consistent` joins the two agreements that a function is built with: arena and block lists name
the same instructions, and the user index is exact. `Func.edited` makes any sequence of edits, of
which some may fail. `Func.Derived` is what every edit does to a consistent function, whether it
succeeds or not; since it composes, `Func.consistent_edited` says that what was built from a script
stays consistent whatever is done to it.
-/

namespace ConstFlow

/-- A change that can be made to a function from outside. -/
inductive Edit where
  | replaceUses (id : InstrId) (new : Operand)
  | remove (id : InstrId)
  | replaceTerminator (b : BlockId) (op : Op)
  | recomputePreds
  | rebuildUsers
  | simplify (r : Solution) (o : Options) (pass : Option String)

/-- The function that work leaves, also when it fails. -/
def Workspace.left {α : Type} : EStateM.Result Error Workspace α → Func
  | .ok _ w => w.func
  | .error _ w => w.func

/-- The function after an attempt that leaves it as it is when it fails. -/
def Func.attempt {α : Type} (f : Func) : Except Error (α × Func) → Func
  | .ok (_, g) => g
  | .error _ => f

/-- The function after an edit, successful or not. -/
def Edit.apply (f : Func) : Edit → Func
  | .replaceUses id new => f.attempt (f.replaceUses id new)
  | .remove id => f.attempt (f.remove id)
  | .replaceTerminator b op => f.attempt (f.replaceTerminator b op)
  | .recomputePreds => f.recomputePreds
  | .rebuildUsers => f.rebuildUsers
  | .simplify r o pass => Workspace.left (ConstFlow.simplify r o pass (Workspace.ofFunc f))

namespace Func

/-- The function after a sequence of edits. -/
def edited (f : Func) (edits : List Edit) : Func :=
  edits.foldl Edit.apply f

/-- The arena, the block lists and the user index agree. -/
structure Consistent (f : Func) : Prop where
  placed : f.Placed
  indexed : f.Indexed

theorem consistent_ofScript (name : String) (script : List Stmt) :
    (ofScript name script).Consistent :=
  ⟨placed_ofScript name script, indexed_ofScript name script⟩

/-- Changing operations alone moves no instruction. -/
theorem Placed.of_instr? {f g : Func} (h : f.Placed) (hblocks : g.blocks = f.blocks)
    (change : Instr → Op)
    (hinstr : ∀ k, g.instr? k = (f.instr? k).map fun i => { i with op := change i }) :
    g.Placed := by
  constructor
  case slot =>
    intro k i hi
    obtain ⟨j, hj, rfl⟩ := Option.map_eq_some_iff.mp ((hinstr k).symm.trans hi)
    show j.id = k
    exact h.slot hj
  case number =>
    rw [hblocks]
    exact h.number
  case nodup =>
    rw [hblocks]
    exact h.nodup
  case mem =>
    rw [hblocks]
    intro b blk hb id
    show _ ↔ ∃ i, g.instr? id = some i ∧ _
    rw [h.mem hb, hinstr]
    constructor
    · rintro ⟨i, hi, hown⟩
      refine ⟨{ i with op := change i }, ?_, hown⟩
      rw [show f.instr? id = some i from hi, Option.map_some]
    · rintro ⟨i, hi, hown⟩
      obtain ⟨j, hj, rfl⟩ := Option.map_eq_some_iff.mp hi
      exact ⟨j, hj, hown⟩
  case owner =>
    intro k i hi
    obtain ⟨j, hj, rfl⟩ := Option.map_eq_some_iff.mp ((hinstr k).symm.trans hi)
    rw [hblocks]
    show j.block < f.blocks.size
    exact h.owner hj

/-- What edits make of `f`: the slots and the blocks stay as many, and a slot that is dead stays
dead. -/
structure Derived (f g : Func) : Prop where
  consistent : g.Consistent
  slots : g.slotCount = f.slotCount
  blocks : g.blockCount = f.blockCount
  dead : ∀ {k : InstrId}, f.instr? k = none → g.instr? k = none

theorem Consistent.derived {f : Func} (h : f.Consistent) : f.Derived f :=
  ⟨h, rfl, rfl, fun hk => hk⟩

theorem Derived.trans {f g k : Func} (h : f.Derived g) (h' : g.Derived k) : f.Derived k :=
  ⟨h'.consistent, h'.slots.trans h.slots, h'.blocks.trans h.blocks, fun hk => h'.dead (h.dead hk)⟩

namespace Consistent
variable {f g : Func}

theorem attempt {α : Type} {r : Except Error (α × Func)} (h : f.Consistent)
    (hr : ∀ {a : α} {g : Func}, r = .ok (a, g) → f.Derived g) : f.Derived (f.attempt r) := by
  cases r with
  | error e => exact h.derived
  | ok p => exact hr rfl

theorem replaceUses (h : f.Consistent) {id : InstrId} {new : Operand} {n : Nat}
    (hg : f.replaceUses id new = .ok (n, g)) : f.Derived g := by
  by_cases hself : new = .value id
  · rw [hself] at hg
    rw [replaceUses_self hg]
    exact h.derived
  · obtain ⟨-, hblocks, hslots, hindexed, hinstr⟩ := replaceUses_spec h.indexed hself hg
    refine ⟨⟨h.placed.of_instr? hblocks (·.op.substitute id new) hinstr, hindexed⟩, hslots, ?_, ?_⟩
    · rw [blockCount, hblocks, blockCount]
    · intro k hk
      rw [hinstr, hk, Option.map_none]

theorem remove (h : f.Consistent) {id : InstrId} {i : Instr} (hg : f.remove id = .ok (i, g)) :
    f.Derived g := by
  obtain ⟨-, -, hslots, hplaced, hindexed, hinstr, -⟩ := remove_spec h.placed h.indexed hg
  refine ⟨⟨hplaced, hindexed⟩, hslots, blockCount_remove hg, fun hk => ?_⟩
  rw [hinstr, hk, ite_self]

theorem replaceTerminator (h : f.Consistent) {b : BlockId} {op old : Op}
    (hg : f.replaceTerminator b op = .ok (old, g)) : f.Derived g := by
  obtain ⟨_, _, _, -, -, -, -, -, -, hchanged⟩ := replaceTerminator_spec h.placed h.indexed hg
  refine ⟨⟨hchanged.placed, hchanged.indexed⟩, hchanged.slots, ?_, fun hk => ?_⟩
  · rw [blockCount, hchanged.blocks, blockCount]
  · rw [hchanged.instr, hk, Option.map_none, ite_self]

theorem recomputePreds (h : f.Consistent) : f.Derived f.recomputePreds :=
  ⟨⟨h.placed.recomputePreds, h.indexed.recomputePreds⟩, rfl, Array.size_mapIdx, fun hk => hk⟩

theorem rebuildUsers (h : f.Consistent) : f.Derived f.rebuildUsers :=
  ⟨⟨h.placed, indexed_rebuildUsers h.placed⟩, rfl, rfl, fun hk => hk⟩

end Consistent

end Func

/-! ## Simplification -/

section Made
variable {w w' : Workspace} {pass : Option String} {b : BlockId} {i : Instr} {u : Unit}

/-- A value that was folded: its uses were replaced, its instruction was removed, and both were
told. -/
theorem Change.commit_foldValue {v : Int64}
    (h : (Change.foldValue b i v).commit pass w = .ok u w') :
    ∃ n g₁ j g₂, w.func.replaceUses i.id (.const v) = .ok (n, g₁) ∧ g₁.remove i.id = .ok (j, g₂) ∧
      w' = (((⟨g₂, w.events, w.notes⟩ : Workspace).note (.folded i.text v n)).recordAt
        (if i.op.isPhi then .phiSimplified else .constantFolded) b s!"{i.text} -> {v.toInt}"
        pass).recordAt .instructionRemoved b (valueName i.id) pass := by
  unfold Change.commit at h
  dsimp only at h
  split at h
  · cases h
  · next n g₁ hreplace =>
    split at h
    · cases h
    · next j g₂ hremove =>
      cases h
      exact ⟨n, g₁, j, g₂, hreplace, hremove, rfl⟩

/-- A branch that was folded: its block ends in a jump now, and that was told. -/
theorem Change.commit_foldBranch {target : BlockId}
    (h : (Change.foldBranch b i target).commit pass w = .ok u w') :
    ∃ old g, w.func.replaceTerminator b (.jump target) = .ok (old, g) ∧
      w' = ((⟨g, w.events, w.notes⟩ : Workspace).note (.branchDecided b i.text target)).recordAt
        .branchSimplified b s!"{i.text} -> {(Op.jump target).text}" pass := by
  unfold Change.commit at h
  dsimp only at h
  split at h
  · cases h
  · next old g hreplace =>
    cases h
    exact ⟨old, g, hreplace, rfl⟩

end Made

section Commit
variable {w : Workspace} (pass : Option String)

theorem Change.derived_commit (c : Change) (h : w.func.Consistent) :
    w.func.Derived (Workspace.left (c.commit pass w)) := by
  cases c with
  | foldValue b i c =>
    unfold Change.commit
    dsimp only
    split
    · exact h.derived
    · next uses f₁ hreplace =>
      have h₁ := h.replaceUses hreplace
      split
      · exact h₁
      · next f₂ hremove => exact h₁.trans (h₁.consistent.remove hremove)
  | foldBranch b i target =>
    unfold Change.commit
    dsimp only
    split
    · exact h.derived
    · next f₁ hreplace => exact h.replaceTerminator hreplace

theorem derived_commitAll (cs : List Change) (h : w.func.Consistent) :
    w.func.Derived (Workspace.left (commitAll pass cs w)) := by
  induction cs generalizing w with
  | nil => exact h.derived
  | cons c cs ih =>
    have hc := c.derived_commit pass h
    unfold commitAll
    cases hcommit : c.commit pass w with
    | error e w' =>
      rw [hcommit] at hc
      exact hc
    | ok u w' =>
      rw [hcommit] at hc
      exact hc.trans (ih hc.consistent)

@[simp] theorem func_warnSize (r : Solution) : (warnSize r pass w).func = w.func := by
  unfold warnSize
  split <;> rfl

theorem derived_simplify (r : Solution) (o : Options) (h : w.func.Consistent) :
    w.func.Derived (Workspace.left (simplify r o pass w)) := by
  rw [← func_warnSize (w := w) pass r] at h ⊢
  unfold simplify
  dsimp only
  cases plan r o (warnSize r pass w).func with
  | error e => exact h.derived
  | ok changes =>
    have hall := derived_commitAll pass changes h
    dsimp only
    cases hcommit : commitAll pass changes (warnSize r pass w) with
    | error e w' =>
      rw [hcommit] at hall
      exact hall
    | ok u w' =>
      rw [hcommit] at hall
      dsimp only [Workspace.left] at hall ⊢
      split <;> exact hall

end Commit

theorem Edit.derived_apply (e : Edit) {f : Func} (h : f.Consistent) : f.Derived (e.apply f) := by
  cases e with
  | replaceUses id new => exact h.attempt h.replaceUses
  | remove id => exact h.attempt h.remove
  | replaceTerminator b op => exact h.attempt h.replaceTerminator
  | recomputePreds => exact h.recomputePreds
  | rebuildUsers => exact h.rebuildUsers
  | simplify r o pass => exact derived_simplify (w := Workspace.ofFunc f) pass r o h

theorem Func.Consistent.derived_edited {f : Func} (h : f.Consistent) (edits : List Edit) :
    f.Derived (f.edited edits) := by
  induction edits generalizing f with
  | nil => exact h.derived
  | cons e edits ih =>
    have he := e.derived_apply h
    exact he.trans (ih he.consistent)

/-- Whatever is done to a function built from a script, it stays consistent. -/
theorem Func.consistent_edited (name : String) (script : List Stmt) (edits : List Edit) :
    ((Func.ofScript name script).edited edits).Consistent :=
  ((Func.consistent_ofScript name script).derived_edited edits).consistent

end ConstFlow
