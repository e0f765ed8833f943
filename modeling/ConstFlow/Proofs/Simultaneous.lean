import ConstFlow.Proofs.FoldedForm
import ConstFlow.Proofs.Validated

/-!
# Simplification as one substitution

Simplification makes its changes one after another. A value is replaced in the users that the index
has for it just then, and its instruction is struck from the user lists of what it still reads; a
condition may be a constant already when its branch is replaced, or not yet. `Func.folded` makes all
changes of a folding at once, on the function as it stood, and `Solution.folding` reads the folding
off a solution, for any function, without a plan.

* `plan_eq_filterMap` : a plan holds the change of every instruction that has one, in listed order;
* `plan_folding` : its changes add up to the folding of the solution;
* `commitAll_fewerUsers` : user lists only lose entries, so what is left of each is told by the
  operands (`Folded.usersOf_eq`);
* `simplify_eq_folded` : both ways come to the same function, the user index included.

Nothing of this asks that the solution is one of the function. What is left is a valid function
again (`simplify_validates`), and the same solution finds nothing more to change in it
(`simplify_twice`).
-/

namespace ConstFlow

/-! ## The folding of a solution -/

namespace Solution

/-- The constant that takes the place of an instruction's value, if one does. -/
def constFor? (r : Solution) (o : Options) (i : Instr) : Option Int64 :=
  if o.foldValues && i.op.isFoldable then r.const? i.id else none

/-- The target of the jump that takes the place of a branch, if one does. -/
def jumpFor? (r : Solution) (o : Options) (i : Instr) : Option BlockId :=
  match i.op with
  | .branch cond onTrue onFalse =>
    if o.foldBranches && r.reached i.block then
      (r.operandConst? cond).bind fun c =>
        if c = 1 then some onTrue else if c = 0 then some onFalse else none
    else none
  | _ => none

/-- All that a solution lets change in a function. -/
def folding (r : Solution) (o : Options) (f : Func) : Folding where
  consts k := (f.instr? k).bind (r.constFor? o)
  jumps k := (f.instr? k).bind (r.jumpFor? o)

/-- The change that is planned for an instruction. -/
def change? (r : Solution) (o : Options) (i : Instr) : Option Change :=
  ((r.constFor? o i).map (Change.foldValue i.block i)).or
    ((r.jumpFor? o i).map (Change.foldBranch i.block i))

variable {f : Func} {r : Solution} {o : Options} {k : InstrId} {i : Instr}

theorem consts_folding (hi : f.instr? k = some i) :
    (r.folding o f).consts k = r.constFor? o i := by
  show (f.instr? k).bind (r.constFor? o) = r.constFor? o i
  rw [hi, Option.bind_some]

theorem jumps_folding (hi : f.instr? k = some i) :
    (r.folding o f).jumps k = r.jumpFor? o i := by
  show (f.instr? k).bind (r.jumpFor? o) = r.jumpFor? o i
  rw [hi, Option.bind_some]

theorem constFor?_eq_some {c : Int64} : r.constFor? o i = some c ↔
    i.op.isFoldable = true ∧ o.foldValues = true ∧ r.const? i.id = some c := by
  unfold constFor?
  rw [Option.ite_none_right_eq_some, Bool.and_eq_true, and_comm (a := o.foldValues = true),
    and_assoc]

theorem jumpFor?_eq_some {target : BlockId} : r.jumpFor? o i = some target ↔
    o.foldBranches = true ∧ r.reached i.block = true ∧ r.Decides i target := by
  unfold jumpFor? Decides
  split
  · next cond onTrue onFalse hop =>
    rw [Option.ite_none_right_eq_some, Bool.and_eq_true, and_assoc, hop]
    refine and_congr_right fun _ => and_congr_right fun _ => ?_
    constructor
    · intro h
      obtain ⟨c, hc, htarget⟩ := Option.bind_eq_some_iff.mp h
      refine ⟨cond, onTrue, onFalse, rfl, ?_⟩
      split at htarget
      · next hone => exact .inl ⟨hone ▸ hc, (Option.some.inj htarget).symm⟩
      · rw [Option.ite_none_right_eq_some] at htarget
        exact .inr ⟨htarget.1 ▸ hc, (Option.some.inj htarget.2).symm⟩
    · rintro ⟨_, _, _, heq, ⟨hc, rfl⟩ | ⟨hc, rfl⟩⟩
      · cases heq
        rw [hc]
        rfl
      · cases heq
        rw [hc]
        rfl
  · next hne =>
    refine ⟨fun h => (nomatch h), ?_⟩
    rintro ⟨-, -, cond, onTrue, onFalse, hop, -⟩
    exact absurd hop (hne cond onTrue onFalse)

/-- No instruction is both a value and a branch. -/
theorem constFor?_eq_none {target : BlockId} (h : r.jumpFor? o i = some target) :
    r.constFor? o i = none := by
  obtain ⟨-, -, cond, onTrue, onFalse, hop, -⟩ := jumpFor?_eq_some.mp h
  simp [constFor?, hop, Op.isFoldable]

theorem change?_eq_some {c : Change} :
    r.change? o i = some c ↔ planInstr r o i.block i = .ok (some c) := by
  rw [change?, Option.or_eq_some_iff, planInstr_eq_some]
  simp only [Option.map_eq_some_iff, Option.map_eq_none_iff]
  refine or_congr (exists_congr fun k => ?_) ?_
  · rw [constFor?_eq_some, and_comm, eq_comm]
  · constructor
    · rintro ⟨-, target, hjump, rfl⟩
      exact ⟨target, rfl, jumpFor?_eq_some.mp hjump⟩
    · rintro ⟨target, rfl, hjump⟩
      have hjump := jumpFor?_eq_some.mpr hjump
      exact ⟨constFor?_eq_none hjump, target, hjump, rfl⟩

theorem change?_eq_of_planInstr {c : Option Change} (h : planInstr r o i.block i = .ok c) :
    r.change? o i = c := by
  apply Option.ext
  intro c'
  rw [change?_eq_some, h, Except.ok.injEq]

end Solution

/-! ## Plans -/

attribute [ext] Folding

/-- The change is part of the folding. -/
def Folding.Has (d : Folding) : Change → Prop
  | .foldValue _ i v => d.consts i.id = some v
  | .foldBranch _ i target => d.jumps i.id = some target

/-- Every part of the folding is part of another one. -/
structure Folding.Within (d d' : Folding) : Prop where
  const : ∀ {k : InstrId} {v : Int64}, d.consts k = some v → d'.consts k = some v
  jump : ∀ {k : InstrId} {target : BlockId}, d.jumps k = some target → d'.jumps k = some target

section Plans
variable {f : Func} {r : Solution} {o : Options} {cs : List Change} {i : Instr}

/-- A plan that can be made holds the change of every instruction that has one. -/
theorem planAll_ok {ps : List (BlockId × Instr)} (hps : ∀ p ∈ ps, p.2.block = p.1)
    (h : planAll r o ps = .ok cs) :
    (∀ p ∈ ps, planInstr r o p.1 p.2 = .ok (r.change? o p.2)) ∧
      cs = ps.filterMap fun p => r.change? o p.2 := by
  induction ps generalizing cs with
  | nil =>
    cases h
    exact ⟨fun p hp => (nomatch hp), rfl⟩
  | cons p ps ih =>
    obtain ⟨b, i⟩ := p
    obtain ⟨hb, hrest⟩ := List.forall_mem_cons.mp hps
    replace hb : i.block = b := hb
    subst hb
    unfold planAll at h
    split at h
    · cases h
    · next change hchange =>
      split at h
      · cases h
      · next rest hplan =>
        cases h
        obtain ⟨hall, rfl⟩ := ih hrest hplan
        obtain rfl := Solution.change?_eq_of_planInstr hchange
        refine ⟨List.forall_mem_cons.mpr ⟨hchange, hall⟩, ?_⟩
        rw [List.filterMap_cons]
        cases r.change? o i with
        | none => rfl
        | some c => rfl

/-- The changes of a plan come in the order of the lists. -/
theorem plan_eq_filterMap (hp : f.Placed) (h : plan r o f = .ok cs) :
    cs = f.placed.filterMap fun p => r.change? o p.2 :=
  (planAll_ok (fun _ hmem => (hp.mem_placed.mp hmem).2) h).2

theorem planInstr_of_plan (hp : f.Placed) (h : plan r o f = .ok cs) (hi : f.instr? i.id = some i) :
    planInstr r o i.block i = .ok (r.change? o i) :=
  (planAll_ok (fun _ hmem => (hp.mem_placed.mp hmem).2) h).1 (i.block, i)
    (hp.mem_placed.mpr ⟨hi, rfl⟩)

/-- Where a plan can be made, the conditions that the solution knows in reached blocks are zero or
one. -/
theorem condition_of_plan (hp : f.Placed) (h : plan r o f = .ok cs) (hi : f.instr? i.id = some i)
    {cond : Operand} {onTrue onFalse : BlockId} (hop : i.op = .branch cond onTrue onFalse)
    (hbranches : o.foldBranches = true) (hreached : r.reached i.block = true) {c : Int64}
    (hc : r.operandConst? cond = some c) : c = 1 ∨ c = 0 := by
  have hplan := planInstr_of_plan hp h hi
  by_contra hother
  rw [not_or] at hother
  simp [planInstr, planBranch, hop, hbranches, hreached, hc, hother] at hplan

theorem mem_plan (hp : f.Placed) (h : plan r o f = .ok cs) {c : Change} :
    c ∈ cs ↔ ∃ i, f.instr? i.id = some i ∧ r.change? o i = some c := by
  rw [plan_eq_filterMap hp h, List.mem_filterMap]
  constructor
  · rintro ⟨p, hmem, hc⟩
    exact ⟨p.2, (hp.mem_placed.mp hmem).1, hc⟩
  · rintro ⟨i, hi, hc⟩
    exact ⟨(i.block, i), hp.mem_placed.mpr ⟨hi, rfl⟩, hc⟩

theorem Folding.Within.add {d d' : Folding} (h : d.Within d') {c : Change} (hc : d'.Has c) :
    (d.add c).Within d' := by
  cases c with
  | foldValue b i v =>
    refine ⟨fun {k v'} hk => ?_, h.jump⟩
    replace hk : (if k = i.id then some v else d.consts k) = some v' := hk
    split at hk
    · next heq =>
      cases hk
      exact heq ▸ hc
    · exact h.const hk
  | foldBranch b i target =>
    refine ⟨h.const, fun {k target'} hk => ?_⟩
    replace hk : (if k = i.id then some target else d.jumps k) = some target' := hk
    split at hk
    · next heq =>
      cases hk
      exact heq ▸ hc
    · exact h.jump hk

theorem Folding.Within.foldl {d' : Folding} (hcs : ∀ c ∈ cs, d'.Has c) :
    ∀ {d : Folding}, d.Within d' → (cs.foldl Folding.add d).Within d' := by
  induction cs with
  | nil => exact fun h => h
  | cons c cs ih =>
    obtain ⟨hc, hcs⟩ := List.forall_mem_cons.mp hcs
    exact fun h => ih hcs (h.add hc)

/-- Every change of a plan is one that the solution lets make. -/
theorem has_of_mem_plan (hp : f.Placed) (h : plan r o f = .ok cs) {c : Change} (hc : c ∈ cs) :
    (r.folding o f).Has c := by
  obtain ⟨i, hi, hchange⟩ := (mem_plan hp h).mp hc
  rcases planInstr_eq_some.mp (Solution.change?_eq_some.mp hchange) with
    ⟨v, rfl, hconst⟩ | ⟨target, rfl, hjump⟩
  · exact (Solution.consts_folding hi).trans (Solution.constFor?_eq_some.mpr hconst)
  · exact (Solution.jumps_folding hi).trans (Solution.jumpFor?_eq_some.mpr hjump)

/-- The changes of a plan add up to what the solution lets change. -/
theorem plan_folding (hp : f.Placed) (h : plan r o f = .ok cs) :
    cs.foldl Folding.add .empty = r.folding o f := by
  have hwithin : (cs.foldl Folding.add .empty).Within (r.folding o f) :=
    Folding.Within.foldl (fun c => has_of_mem_plan hp h)
      ⟨fun hk => (nomatch hk), fun hk => (nomatch hk)⟩
  have hcomplete := plan_complete hp h
  -- a plan leaves nothing out, so what the solution lets change is there, with the same value
  apply Folding.ext
  · ext k v
    refine ⟨hwithin.const, fun hv => ?_⟩
    obtain ⟨i, hi, hconst⟩ := Option.bind_eq_some_iff.mp hv
    obtain ⟨hfold, hvalues, hc⟩ := Solution.constFor?_eq_some.mp hconst
    rw [hp.slot hi] at hc
    obtain ⟨v', hv'⟩ := Option.ne_none_iff_exists'.mp (hcomplete.const hi hfold hvalues hc)
    rw [hv', ← hwithin.const hv', hv]
  · ext k target
    refine ⟨hwithin.jump, fun ht => ?_⟩
    obtain ⟨i, hi, hjump⟩ := Option.bind_eq_some_iff.mp ht
    obtain ⟨hbranches, hreached, hdecides⟩ := Solution.jumpFor?_eq_some.mp hjump
    obtain ⟨target', ht'⟩ :=
      Option.ne_none_iff_exists'.mp (hcomplete.jump hi hbranches hreached hdecides)
    rw [ht', ← hwithin.jump ht', ht]

theorem Func.Placed.mem_instrs (hp : f.Placed) : i ∈ f.instrs ↔ f.instr? i.id = some i := by
  rw [Func.mem_instrs]
  exact ⟨fun ⟨k, hk⟩ => hp.slot hk ▸ hk, fun hi => ⟨i.id, hi⟩⟩

theorem Func.Placed.perm_placed (hp : f.Placed) : (f.placed.map (·.2)).Perm f.instrs := by
  have hplaced : (f.placed.map (·.2)).Nodup := by
    apply List.Nodup.of_map Instr.id
    rw [List.map_map]
    exact hp.ids_placed ▸ hp.nodup_listed
  rw [List.perm_ext_iff_of_nodup hplaced (hp.nodup_ids.of_map _)]
  intro i
  rw [List.mem_map, hp.mem_instrs]
  constructor
  · rintro ⟨⟨b, i⟩, hmem, rfl⟩
    exact (hp.mem_placed.mp hmem).1
  · intro hi
    exact ⟨(i.block, i), hp.mem_placed.mpr ⟨hi, rfl⟩, rfl⟩

theorem countP_or_of_disjoint {α : Type} {p q : α → Bool} (h : ∀ a, p a = true → q a = false)
    (l : List α) : l.countP (fun a => p a || q a) = l.countP p + l.countP q := by
  induction l with
  | nil => rfl
  | cons a l ih =>
    have ha := h a
    simp only [List.countP_cons, ih]
    cases hp : p a with
    | false => simp [Nat.add_assoc]
    | true => simp [ha hp]; omega

/-- A plan has as many changes as there are instructions that have one. -/
theorem length_plan_eq (hp : f.Placed) (h : plan r o f = .ok cs) :
    cs.length = f.instrs.countP fun i => (r.change? o i).isSome :=
  calc cs.length = f.placed.countP (fun p => (r.change? o p.2).isSome) := by
        rw [plan_eq_filterMap hp h, List.length_filterMap_eq_countP]
    _ = f.instrs.countP (fun i => (r.change? o i).isSome) := by
        rw [← hp.perm_placed.countP_eq, List.countP_map]
        rfl

/-- These are the values and the branches to change. -/
theorem length_plan (hp : f.Placed) (h : plan r o f = .ok cs) :
    cs.length = f.instrs.countP (fun i => (r.constFor? o i).isSome) +
      f.instrs.countP (fun i => (r.jumpFor? o i).isSome) := by
  have hdisjoint : ∀ i : Instr, (r.constFor? o i).isSome = true →
      (r.jumpFor? o i).isSome = false := by
    intro i hconst
    by_contra hjump
    obtain ⟨target, htarget⟩ := Option.isSome_iff_exists.mp (Bool.eq_true_of_not_eq_false hjump)
    rw [Solution.constFor?_eq_none htarget] at hconst
    cases hconst
  rw [length_plan_eq hp h, ← countP_or_of_disjoint hdisjoint]
  simp only [Solution.change?, Option.isSome_or, Option.isSome_map]

end Plans

/-! ## The user index -/

/-- No user list of the second function is longer than that of the first, or in another order. -/
def Func.FewerUsers (f g : Func) : Prop :=
  ∀ v, (g.usersOf v).Sublist (f.usersOf v)

namespace Func
variable {f g k : Func} {id : InstrId}

theorem FewerUsers.refl (f : Func) : f.FewerUsers f :=
  fun _ => List.Sublist.refl _

theorem FewerUsers.trans (h : f.FewerUsers g) (h' : g.FewerUsers k) : f.FewerUsers k :=
  fun v => (h' v).trans (h v)

theorem fewerUsers_unlink (f : Func) (id : InstrId) (values : List InstrId) :
    f.FewerUsers (f.unlink id values) := by
  intro v
  rw [usersOf_unlink]
  split
  · exact List.filter_sublist
  · exact List.Sublist.refl _

/-- A constant has no users, so none are entered. -/
theorem users_replaceIn_const (id : InstrId) (c : Int64) (p : Nat × Func) (u : InstrId) :
    (replaceIn id (.const c) p u).2.users = p.2.users := by
  unfold replaceIn
  split <;> rfl

theorem users_foldl_replaceIn_const (id : InstrId) (c : Int64) (us : List InstrId)
    (p : Nat × Func) :
    (us.foldl (replaceIn id (.const c)) p).2.users = p.2.users := by
  induction us generalizing p with
  | nil => rfl
  | cons u us ih => rw [List.foldl_cons, ih, users_replaceIn_const]

theorem fewerUsers_replaceUses {c : Int64} {n : Nat}
    (h : f.replaceUses id (.const c) = .ok (n, g)) : f.FewerUsers g := by
  have husers : g.users = f.users.setIfInBounds id [] := by
    unfold replaceUses at h
    split at h
    · cases h
    · rw [if_neg (by simp [Operand.references]), Except.ok.injEq] at h
      have hsame := users_foldl_replaceIn_const id c (f.usersOf id)
        (0, { f with users := f.users.setIfInBounds id [] })
      rwa [h] at hsame
  intro v
  rw [usersOf, husers, Array.getElem?_setIfInBounds]
  split
  · split
    · exact List.nil_sublist _
    · exact List.nil_sublist _
  · exact List.Sublist.refl _

theorem fewerUsers_remove {i : Instr} (h : f.remove id = .ok (i, g)) : f.FewerUsers g := by
  unfold remove at h
  split at h
  · cases h
  · cases h
    exact fewerUsers_unlink _ _ _

theorem fewerUsers_replaceTerminator {b target : BlockId} {old : Op}
    (h : f.replaceTerminator b (.jump target) = .ok (old, g)) : f.FewerUsers g := by
  unfold replaceTerminator at h
  rw [if_pos (show (Op.jump target).isTerminator = true from rfl)] at h
  split at h
  · cases h
  · split at h
    · cases h
    · split at h
      · cases h
      · split at h
        · cases h
          exact fewerUsers_unlink _ _ _
        · cases h

end Func

theorem Change.commit_fewerUsers {pass : Option String} {c : Change} {w w' : Workspace} {u : Unit}
    (h : c.commit pass w = .ok u w') : w.func.FewerUsers w'.func := by
  cases c with
  | foldValue b i v =>
    obtain ⟨_, g₁, _, g₂, hreplace, hremove, rfl⟩ := Change.commit_foldValue h
    exact (Func.fewerUsers_replaceUses hreplace).trans (Func.fewerUsers_remove hremove)
  | foldBranch b i target =>
    obtain ⟨_, g, hreplace, rfl⟩ := Change.commit_foldBranch h
    exact Func.fewerUsers_replaceTerminator hreplace

theorem commitAll_fewerUsers {pass : Option String} {cs : List Change} {w w' : Workspace} {u : Unit}
    (h : commitAll pass cs w = .ok u w') : w.func.FewerUsers w'.func := by
  induction cs generalizing w with
  | nil =>
    cases h
    exact .refl _
  | cons c cs ih =>
    unfold commitAll at h
    split at h
    · next w₁ hcommit => exact (Change.commit_fewerUsers hcommit).trans (ih h)
    · cases h

/-! ## All changes at once -/

/-- The function with all changes of a folding made at once. Blocks lose the values that become
constants, and user lists lose the instructions that are gone or read nothing any more. -/
def Func.folded (f : Func) (d : Folding) : Func where
  name := f.name
  blocks := f.blocks.map fun blk =>
    { blk with instrs := blk.instrs.filter fun k => (d.consts k).isNone }
  arena := f.arena.mapIdx fun k slot =>
    if d.consts k = none then slot.map fun i => { i with op := d.op k i.op } else none
  users := f.users.mapIdx fun v us =>
    if d.consts v = none then us.filter fun u => (d.consts u).isNone && (d.jumps u).isNone else []

theorem eq_filter_of_sublist {α : Type} {p : α → Bool} {l l' : List α} (hsub : l'.Sublist l)
    (hnodup : l.Nodup) (hmem : ∀ a ∈ l, a ∈ l' ↔ p a = true) : l' = l.filter p := by
  have hperm : l'.Perm (l.filter p) := by
    rw [List.perm_ext_iff_of_nodup (hsub.nodup hnodup) (hnodup.filter p)]
    intro a
    rw [List.mem_filter]
    exact ⟨fun ha => ⟨hsub.subset ha, (hmem a (hsub.subset ha)).mp ha⟩,
      fun ha => (hmem a ha.1).mpr ha.2⟩
  have hkept : l'.filter p = l' :=
    List.filter_eq_self.mpr fun a ha => (hmem a (hsub.subset ha)).mp ha
  exact (hkept ▸ hsub.filter p).eq_of_length hperm.length_eq

section Folded
variable {f g : Func} {d : Folding} {r : Solution} {o : Options}

/-- What is left of a user list that only lost entries: the users that still read the value. -/
theorem Folded.usersOf_eq (h : Folded f d g) (hx : f.Indexed) (hd : d.Justified f r)
    (hfewer : f.FewerUsers g) {v : InstrId} (hv : v < f.slotCount) :
    g.usersOf v = if d.consts v = none then
      (f.usersOf v).filter fun u => (d.consts u).isNone && (d.jumps u).isNone else [] := by
  have hreads := h.consistent.indexed.mem (h.slots ▸ hv)
  split
  · next hkept =>
    refine eq_filter_of_sublist (hfewer v) (hx.nodup v) fun u hu => ?_
    obtain ⟨i, hi, huse⟩ := (hx.mem hv u).mp hu
    rw [hreads, Bool.and_eq_true, Option.isNone_iff_eq_none, Option.isNone_iff_eq_none]
    constructor
    · rintro ⟨j, hj, hread⟩
      obtain ⟨hnone, i', -, rfl⟩ := h.instr_eq_some.mp hj
      refine ⟨hnone, ?_⟩
      cases hjump : d.jumps u with
      | none => rfl
      | some target =>
        simp only [Folding.op, hjump] at hread
        cases hread
    · rintro ⟨hnone, hjump⟩
      refine ⟨_, h.instr_kept hi hnone, ?_⟩
      simp only [Folding.op, hjump, Op.mem_uses, Op.operands_mapOperands, List.mem_map]
      exact ⟨_, Op.mem_uses.mp huse, Folding.operand_eq_value.mpr ⟨rfl, hkept⟩⟩
  · next hgone =>
    rw [List.eq_nil_iff_forall_not_mem]
    intro u hu
    obtain ⟨j, hj, hread⟩ := (hreads u).mp hu
    obtain ⟨-, i, hi, rfl⟩ := h.instr_eq_some.mp hj
    exact hgone (hd.mem_uses hi hread).2

theorem Func.arena_getElem? (f : Func) {k : InstrId} (hk : k < f.slotCount) :
    f.arena[k]? = some (f.instr? k) := by
  have hslot : f.arena[k]? = some f.arena[k] := Array.getElem?_eq_getElem hk
  rw [instr?, hslot]
  rfl

theorem Func.users_getElem? (f : Func) {v : InstrId} (hv : v < f.users.size) :
    f.users[v]? = some (f.usersOf v) := by
  have hslot : f.users[v]? = some f.users[v] := Array.getElem?_eq_getElem hv
  rw [usersOf, hslot]
  rfl

/-- Changes made one after another come to the changes made at once. -/
theorem Folded.eq_folded (h : Folded f d g) (hx : f.Indexed) (hd : d.Justified f r)
    (hfewer : f.FewerUsers g) : g = f.folded d := by
  have hblocks : g.blocks = (f.folded d).blocks := by
    apply Array.ext_getElem?
    intro b
    rw [Func.folded, Array.getElem?_map]
    exact h.block b
  have harena : g.arena = (f.folded d).arena := by
    apply Array.ext_getElem?
    intro k
    rw [Func.folded, Array.getElem?_mapIdx]
    by_cases hk : k < f.slotCount
    · rw [f.arena_getElem? hk, g.arena_getElem? (h.slots ▸ hk), h.instr, Option.map_some]
    · have hk' : ¬ k < g.slotCount := h.slots ▸ hk
      rw [Array.getElem?_eq_none (Nat.le_of_not_lt hk),
        Array.getElem?_eq_none (Nat.le_of_not_lt hk'), Option.map_none]
  have husers : g.users = (f.folded d).users := by
    have hsize : g.users.size = f.users.size := by
      rw [h.consistent.indexed.size, h.slots, hx.size]
    apply Array.ext_getElem?
    intro v
    rw [Func.folded, Array.getElem?_mapIdx]
    by_cases hv : v < f.users.size
    · rw [f.users_getElem? hv, g.users_getElem? (hsize ▸ hv),
        h.usersOf_eq hx hd hfewer (hx.size ▸ hv), Option.map_some]
    · rw [Array.getElem?_eq_none (Nat.le_of_not_lt hv),
        Array.getElem?_eq_none (Nat.le_of_not_lt (hsize ▸ hv)), Option.map_none]
  calc g = ⟨g.name, g.blocks, g.arena, g.users⟩ := rfl
    _ = f.folded d := by
      rw [h.name, hblocks, harena, husers]
      rfl

end Folded

/-! ## Simplification -/

section Simplify
variable {f : Func} {r : Solution} {o : Options} {k : InstrId} {i : Instr} {w w' : Workspace}
  {pass : Option String} {n : Nat}

/-- Simplification makes all the changes that the solution lets make, and no other. -/
theorem simplify_folding (hf : w.func.Consistent) (hwf : w.func.WellFormed)
    (h : simplify r o pass w = .ok n w') :
    ∃ cs, plan r o w.func = .ok cs ∧ n = cs.length ∧
      Folded w.func (r.folding o w.func) w'.func ∧ (r.folding o w.func).Justified w.func r ∧
      w.func.FewerUsers w'.func := by
  obtain ⟨cs, w₁, hplan, hn, hcommit, hfunc, -⟩ := simplify_ok h
  obtain ⟨cs', hplan', hfolded, hjust⟩ := simplify_folded hf hwf h
  obtain rfl : cs' = cs := Except.ok.inj (hplan'.symm.trans hplan)
  rw [plan_folding hf.placed hplan] at hfolded hjust
  have hfewer := commitAll_fewerUsers hcommit
  rw [func_warnSize, ← hfunc] at hfewer
  exact ⟨cs', hplan, hn, hfolded, hjust, hfewer⟩

theorem exists_simplify_of_validate (hf : f.Consistent) (hvalid : f.validate = .ok ())
    {cs : List Change} (hplan : plan r o f = .ok cs) (pass : Option String) (events : EventLog)
    (notes : Array Note) : ∃ w', simplify r o pass ⟨f, events, notes⟩ = .ok cs.length w' :=
  exists_simplify (w := ⟨f, events, notes⟩) hf (.of_validate hf.placed hvalid) hplan pass

theorem func_simplify (hf : f.Consistent) (hvalid : f.validate = .ok ()) {events : EventLog}
    {notes : Array Note} (h : simplify r o pass ⟨f, events, notes⟩ = .ok n w') :
    w'.func = f.folded (r.folding o f) := by
  obtain ⟨-, -, -, hfolded, hjust, hfewer⟩ :=
    simplify_folding (w := ⟨f, events, notes⟩) hf (.of_validate hf.placed hvalid) h
  exact hfolded.eq_folded hf.indexed hjust hfewer

/-- A value that becomes a constant is in no slot and in no list any more. -/
theorem Folded.gone {d : Folding} {g : Func} (h : Folded f d g) (hk : (d.consts k).isSome = true) :
    g.instr? k = none ∧ ∀ blk ∈ g.blocks, k ∉ blk.instrs := by
  have hgone : g.instr? k = none := by
    rw [h.instr, if_neg (Option.isSome_iff_ne_none.mp hk)]
  refine ⟨hgone, fun blk hblk hmem => ?_⟩
  obtain ⟨b, hb⟩ := Array.getElem?_of_mem hblk
  obtain ⟨j, hj, -⟩ := (h.consistent.placed.mem hb k).mp hmem
  cases hgone.symm.trans hj

/-- A branch that the solution decides, in a block that it reaches, becomes a jump. -/
theorem Folded.instr_decided {g : Func} {cs : List Change} (h : Folded f (r.folding o f) g)
    (hp : f.Placed) (hplan : plan r o f = .ok cs) (hi : f.instr? i.id = some i) {cond : Operand}
    {onTrue onFalse : BlockId} (hop : i.op = .branch cond onTrue onFalse)
    (hbranches : o.foldBranches = true) (hreached : r.reached i.block = true) {c : Int64}
    (hc : r.operandConst? cond = some c) :
    c = 1 ∧ g.instr? i.id = some { i with op := .jump onTrue } ∨
      c = 0 ∧ g.instr? i.id = some { i with op := .jump onFalse } := by
  have hjump : ∀ target, r.Decides i target →
      g.instr? i.id = some { i with op := .jump target } := by
    intro target hdecides
    have htarget := Solution.jumpFor?_eq_some.mpr ⟨hbranches, hreached, hdecides⟩
    rw [h.instr_kept hi, Folding.op, Solution.jumps_folding hi, htarget]
    rw [Solution.consts_folding hi, Solution.constFor?_eq_none htarget]
  rcases condition_of_plan hp hplan hi hop hbranches hreached hc with rfl | rfl
  · exact .inl ⟨rfl, hjump onTrue ⟨cond, onTrue, onFalse, hop, .inl ⟨hc, rfl⟩⟩⟩
  · exact .inr ⟨rfl, hjump onFalse ⟨cond, onTrue, onFalse, hop, .inr ⟨hc, rfl⟩⟩⟩

/-- Something is different where something was planned. -/
theorem Folded.ne_of_mem_plan {g : Func} {cs : List Change} (h : Folded f (r.folding o f) g)
    (hp : f.Placed) (hplan : plan r o f = .ok cs) {c : Change} (hc : c ∈ cs) : g ≠ f := by
  rintro rfl
  obtain ⟨i, hi, hchange⟩ := (mem_plan hp hplan).mp hc
  obtain ⟨hnone, j, hj, heq⟩ := h.instr_eq_some.mp hi
  rw [hi, Option.some.injEq] at hj
  subst hj
  rw [Solution.consts_folding hi] at hnone
  rcases planInstr_eq_some.mp (Solution.change?_eq_some.mp hchange) with
    ⟨v, -, hconst⟩ | ⟨target, -, hjump⟩
  · rw [Solution.constFor?_eq_some.mpr hconst] at hnone
    cases hnone
  · have hsame := congrArg Instr.op heq
    simp only [Folding.op, Solution.jumps_folding hi, Solution.jumpFor?_eq_some.mpr hjump] at hsame
    obtain ⟨-, -, cond, onTrue, onFalse, hop, -⟩ := hjump
    cases hsame.symm.trans hop

theorem simplify_unchanged (hf : w.func.Consistent) (hwf : w.func.WellFormed)
    (h : simplify r o pass w = .ok n w') : n = 0 ↔ w'.func = w.func := by
  obtain ⟨cs, hplan, rfl, hfolded, -, -⟩ := simplify_folding hf hwf h
  constructor
  · intro hzero
    rw [List.length_eq_zero_iff.mp hzero] at hplan
    rw [simplify_of_plan_nil pass hplan] at h
    obtain ⟨-, rfl⟩ := EStateM.Result.ok.inj h
    exact func_warnSize pass r
  · intro hsame
    by_contra hne
    obtain ⟨c, hc⟩ := List.exists_mem_of_length_pos (Nat.pos_of_ne_zero hne)
    exact hfolded.ne_of_mem_plan hf.placed hplan hc hsame

/-- The solution knows of an operand after the folding what it knew before. -/
theorem Folding.Justified.operandConst?_operand {d : Folding} (hd : d.Justified f r) (x : Operand) :
    r.operandConst? (d.operand x) = r.operandConst? x := by
  cases x with
  | const c => rfl
  | undef => rfl
  | value v =>
    cases hv : d.consts v with
    | none => rw [Folding.operand, hv]
    | some c =>
      obtain ⟨i, -, -, hc⟩ := hd.const hv
      rw [Folding.operand, hv]
      exact hc.symm

/-- An instruction that is to stay is to stay on other operands too, if as much is known of them. -/
theorem planInstr_mapOperands {t : Operand → Operand}
    (ht : ∀ x, r.operandConst? (t x) = r.operandConst? x) {b : BlockId}
    (h : planInstr r o b i = .ok none) :
    planInstr r o b { i with op := i.op.mapOperands t } = .ok none := by
  obtain ⟨id, blk, op⟩ := i
  cases op with
  | branch cond onTrue onFalse =>
    simp only [planInstr, planBranch, Op.mapOperands, ht] at h ⊢
    split at h
    · next hallowed =>
      rw [if_pos hallowed]
      cases hc : r.operandConst? cond with
      | none => rfl
      | some c =>
        simp only [hc] at h
        split at h
        · cases h
        · split at h <;> cases h
    · next hallowed => rw [if_neg hallowed]
  | compare p x y => simpa [planInstr, Op.mapOperands, Op.isFoldable] using h
  | phi inputs => simpa [planInstr, Op.mapOperands, Op.isFoldable] using h
  | add x y => simpa [planInstr, Op.mapOperands, Op.isFoldable] using h
  | sub x y => simpa [planInstr, Op.mapOperands, Op.isFoldable] using h
  | jump target => rfl
  | ret value => rfl
  | uninterpreted name args => rfl

/-- The solution has nothing more to change in what its changes left. -/
theorem Folded.plan_eq_nil {g : Func} {cs : List Change} (h : Folded f (r.folding o f) g)
    (hp : f.Placed) (hd : (r.folding o f).Justified f r) (hplan : plan r o f = .ok cs) :
    plan r o g = .ok [] := by
  apply ConstFlow.plan_eq_nil
  rintro ⟨b, j⟩ hmem
  obtain ⟨hj, rfl⟩ := h.consistent.placed.mem_placed.mp hmem
  obtain ⟨hconst, i, hi, heq⟩ := h.instr_eq_some.mp hj
  have hid := hp.slot hi
  rcases hd.op_cases hi with ⟨hjump, hop⟩ | ⟨target, -, -, hop⟩
  · -- neither a value nor a branch that was to change
    have hstay := planInstr_of_plan hp hplan (hid ▸ hi)
    rw [Solution.change?, ← Solution.consts_folding hi, ← Solution.jumps_folding hi, hconst,
      hjump] at hstay
    rw [heq, hop]
    exact planInstr_mapOperands hd.operandConst?_operand hstay
  · rw [heq, hop]
    rfl

end Simplify

/-- Simplifying a valid function by any solution, its own or that of another function, makes all
changes as if at once. The constant values are gone, and a decided branch of a reached block is a
jump to the target that its condition selects. Every other instruction stands where it stood, does
what it did, and reads constants in place of the values that are gone. What is counted are the
values and the branches, and the function is the same just if there are none. -/
theorem simplify_eq_folded (name : String) (script : List Stmt) (edits : List Edit) (f : Func)
    (hf : f = (Func.ofScript name script).edited edits) (hvalid : f.validate = .ok ())
    (r : Solution) (o : Options) (pass : Option String) (events : EventLog) (notes : Array Note)
    (n : Nat) (w' : Workspace) (h : simplify r o pass ⟨f, events, notes⟩ = .ok n w') :
    w'.func = f.folded (r.folding o f) ∧
    w'.func.name = f.name ∧ w'.func.slotCount = f.slotCount ∧
    (∀ b, w'.func.block? b = (f.block? b).map fun blk =>
      { blk with instrs := blk.instrs.filter fun k => ((r.folding o f).consts k).isNone }) ∧
    (∀ i ∈ f.instrs, (r.constFor? o i).isSome = true →
      w'.func.instr? i.id = none ∧ ∀ blk ∈ w'.func.blocks, i.id ∉ blk.instrs) ∧
    (∀ i ∈ f.instrs, ∀ cond onTrue onFalse c, i.op = .branch cond onTrue onFalse →
      o.foldBranches = true → r.reached i.block = true → r.operandConst? cond = some c →
      c = 1 ∧ w'.func.instr? i.id = some { i with op := .jump onTrue } ∨
        c = 0 ∧ w'.func.instr? i.id = some { i with op := .jump onFalse }) ∧
    (∀ i ∈ f.instrs, r.constFor? o i = none → r.jumpFor? o i = none →
      w'.func.instr? i.id = some { i with op := i.op.mapOperands (r.folding o f).operand }) ∧
    n = f.instrs.countP (fun i => (r.constFor? o i).isSome) +
      f.instrs.countP (fun i => (r.jumpFor? o i).isSome) ∧
    (n = 0 ↔ w'.func = f) := by
  have hcons : f.Consistent := hf ▸ Func.consistent_edited name script edits
  have hp := hcons.placed
  have hwf := Func.WellFormed.of_validate hp hvalid
  obtain ⟨cs, hplan, rfl, hfolded, hjust, hfewer⟩ := simplify_folding hcons hwf h
  replace hplan : plan r o f = .ok cs := hplan
  replace hfolded : Folded f (r.folding o f) w'.func := hfolded
  refine ⟨hfolded.eq_folded hcons.indexed hjust hfewer, hfolded.name, hfolded.slots, hfolded.block,
    fun i hi hconst => hfolded.gone ?_,
    fun i hi _ _ _ _ => fun hop hbranches hreached hc => ?_,
    fun i hi hconst hjump => ?_, length_plan hp hplan, simplify_unchanged hcons hwf h⟩
  · rwa [Solution.consts_folding (hp.mem_instrs.mp hi)]
  · exact hfolded.instr_decided hp hplan (hp.mem_instrs.mp hi) hop hbranches hreached hc
  · have hi := hp.mem_instrs.mp hi
    rw [← Solution.consts_folding hi] at hconst
    rw [← Solution.jumps_folding hi] at hjump
    rw [hfolded.instr_kept hi hconst, Folding.op, hjump]

/-- A loop through a phi, with a value and a condition that the loop computes. -/
def borrower : Func :=
  (Func.ofScript "f"
    [.block 0 [.append (.add (.const 2) (.const 3)), .append (.compare .sgt (.value 0) (.const 4)),
       .append (.branch (.value 1) 1 2)],
     .block 1 [.append (.phi [⟨.value 0, 0⟩, ⟨.value 4, 1⟩]), .append (.sub (.value 3) (.value 0)),
       .append (.branch (.value 4) 1 2)],
     .block 2 [.append (.uninterpreted "use" [.value 3, .value 0]), .append (.ret none)]]).edited
    [.replaceTerminator 2 (.ret (some (.value 4)))]

/-- Other constants under the same numbers. -/
def lender : Func :=
  Func.ofScript "g"
    [.block 0 [.append (.add (.const 2) (.const 3)), .append (.sub (.const 1) (.const 0)),
       .append (.jump 1)],
     .block 1 [.append (.add (.const 3) (.const 4)), .append (.sub (.const 1) (.const 1)),
       .append (.ret none)]]

theorem borrower_validates : borrower.validate = .ok () := by decide +kernel

theorem exists_simplify_borrower : ∃ r w', lender.solve false = .ok r ∧
    simplify r {} none ⟨borrower, .empty, #[]⟩ = .ok 6 w' := by
  have hplan : ∃ r ∈ (lender.solve false).toOption, ∃ cs ∈ (plan r {} borrower).toOption,
      cs.length = 6 := by decide +kernel
  obtain ⟨r, hr, cs, hcs, hlength⟩ := hplan
  obtain ⟨w', hw'⟩ := exists_simplify_of_validate (Func.consistent_edited _ _ _)
    borrower_validates (eq_ok_of_mem_toOption hcs) none .empty #[]
  exact ⟨r, w', eq_ok_of_mem_toOption hr, hlength ▸ hw'⟩

theorem simplify_eq_folded_borrower : borrower.validate = .ok () ∧ ∃ r w',
    lender.solve false = .ok r ∧ simplify r {} none ⟨borrower, .empty, #[]⟩ = .ok 6 w' ∧
    w'.func = borrower.folded (r.folding {} borrower) ∧ w'.func ≠ borrower ∧
    w'.func.instr? 4 = none ∧ w'.func.instr? 5 = some ⟨5, 1, .jump 2⟩ ∧
    w'.func.instr? 6 = some ⟨6, 2, .uninterpreted "use" [.const 7, .const 5]⟩ := by
  obtain ⟨r, w', hr, hw'⟩ := exists_simplify_borrower
  obtain ⟨hfolded, -, -, -, -, -, -, -, hsame⟩ :=
    simplify_eq_folded "f" _ _ borrower rfl borrower_validates r {} none _ _ 6 w' hw'
  have hinstrs : ∃ r ∈ (lender.solve false).toOption,
      (borrower.folded (r.folding {} borrower)).instr? 4 = none ∧
      (borrower.folded (r.folding {} borrower)).instr? 5 = some ⟨5, 1, .jump 2⟩ ∧
      (borrower.folded (r.folding {} borrower)).instr? 6 =
        some ⟨6, 2, .uninterpreted "use" [.const 7, .const 5]⟩ := by decide +kernel
  obtain ⟨r', hr', hinstrs⟩ := hinstrs
  obtain rfl : r' = r := Except.ok.inj ((eq_ok_of_mem_toOption hr').symm.trans hr)
  exact ⟨borrower_validates, r', w', hr, hw', hfolded, mt hsame.mpr (by decide), hfolded ▸ hinstrs⟩

/-- A valid function that is simplified, by its own solution or that of another function, is a valid
function with the predecessors it had. -/
theorem simplify_validates (name : String) (script : List Stmt) (edits : List Edit) (f : Func)
    (hf : f = (Func.ofScript name script).edited edits) (hvalid : f.validate = .ok ())
    (r : Solution) (o : Options) (pass : Option String) (events : EventLog) (notes : Array Note)
    (n : Nat) (w' : Workspace) (h : simplify r o pass ⟨f, events, notes⟩ = .ok n w') :
    w'.func.validate = .ok () := by
  have hcons : f.Consistent := hf ▸ Func.consistent_edited name script edits
  have hwf := Func.WellFormed.of_validate hcons.placed hvalid
  obtain ⟨-, -, -, hfolded, hjust, -⟩ := simplify_folding hcons hwf h
  exact (hfolded.wellFormed hcons.placed hwf hjust).validate_ok hfolded.consistent.placed

theorem simplify_validates_borrower : borrower.validate = .ok () ∧ ∃ r w',
    lender.solve false = .ok r ∧ simplify r {} none ⟨borrower, .empty, #[]⟩ = .ok 6 w' ∧
    w'.func.validate = .ok () := by
  obtain ⟨r, w', hr, hw'⟩ := exists_simplify_borrower
  exact ⟨borrower_validates, r, w', hr, hw',
    simplify_validates "f" _ _ borrower rfl borrower_validates r {} none _ _ 6 w' hw'⟩

/-- Simplifying a second time by the same solution finds nothing to change, and tells of no
change. -/
theorem simplify_twice (name : String) (script : List Stmt) (edits : List Edit) (f : Func)
    (hf : f = (Func.ofScript name script).edited edits) (hvalid : f.validate = .ok ())
    (r : Solution) (o : Options) (pass : Option String) (events events' : EventLog)
    (notes notes' : Array Note) (n : Nat) (w' : Workspace)
    (h : simplify r o pass ⟨f, events, notes⟩ = .ok n w') :
    ∃ w'', simplify r o pass ⟨w'.func, events', notes'⟩ = .ok 0 w'' ∧ w''.func = w'.func ∧
      w''.events.transformations = events'.transformations := by
  have hcons : f.Consistent := hf ▸ Func.consistent_edited name script edits
  have hwf := Func.WellFormed.of_validate hcons.placed hvalid
  obtain ⟨cs, hplan, -, hfolded, hjust, -⟩ := simplify_folding hcons hwf h
  exact ⟨_, simplify_of_plan_nil pass (hfolded.plan_eq_nil hcons.placed hjust hplan),
    untouched_warnSize r pass _⟩

theorem simplify_twice_borrower : borrower.validate = .ok () ∧ ∃ r w' w'',
    lender.solve false = .ok r ∧ simplify r {} none ⟨borrower, .empty, #[]⟩ = .ok 6 w' ∧
    simplify r {} none ⟨w'.func, .empty, #[]⟩ = .ok 0 w'' ∧ w''.func = w'.func ∧
    w''.events.transformations = EventLog.empty.transformations := by
  obtain ⟨r, w', hr, hw'⟩ := exists_simplify_borrower
  obtain ⟨w'', hagain⟩ :=
    simplify_twice "f" _ _ borrower rfl borrower_validates r {} none _ .empty _ #[] 6 w' hw'
  exact ⟨borrower_validates, r, w', w'', hr, hw', hagain⟩

end ConstFlow
