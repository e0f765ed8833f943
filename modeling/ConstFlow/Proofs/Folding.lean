import ConstFlow.Fold.Pass
import ConstFlow.Proofs.Edits
import ConstFlow.Proofs.WellFormed

/-!
# What simplification does to a function

Changes are committed one at a time, each on the function that the ones before it left. `Folded`
says what they come to: one `Folding`, applied to all instructions at once. The values with a
constant are gone from the arena and from the lists, the decided branches are jumps, and every other
instruction reads constants in place of those values.

* `Folded.foldValue`, `Folded.foldBranch` : one change more;
* `commitAll_folded` : a whole list of changes;
* `simplify_folded` : what `simplify` leaves, and that every part of it is justified by the solution
  (`Folding.Justified`);
* `run_folded` : the same for the pass.
-/

namespace ConstFlow

/-- The values that become constants, and the branches that become jumps. -/
structure Folding where
  consts : InstrId → Option Int64
  jumps : InstrId → Option BlockId

namespace Folding

/-- Nothing is changed. -/
def empty : Folding :=
  ⟨fun _ => none, fun _ => none⟩

/-- What an operand becomes. -/
def operand (d : Folding) : Operand → Operand
  | .value id =>
    match d.consts id with
    | some c => .const c
    | none => .value id
  | o => o

/-- What the operation of an instruction becomes. -/
def op (d : Folding) (id : InstrId) (op : Op) : Op :=
  match d.jumps id with
  | some target => .jump target
  | none => op.mapOperands d.operand

/-- One change more. -/
def add (d : Folding) : Change → Folding
  | .foldValue _ i c => { d with consts := fun k => if k = i.id then some c else d.consts k }
  | .foldBranch _ i target =>
    { d with jumps := fun k => if k = i.id then some target else d.jumps k }

end Folding

/-- The function after a folding. -/
structure Folded (f : Func) (d : Folding) (g : Func) : Prop where
  name : g.name = f.name
  slots : g.slotCount = f.slotCount
  consistent : g.Consistent
  instr : ∀ k, g.instr? k =
    if d.consts k = none then (f.instr? k).map fun i => { i with op := d.op k i.op } else none
  block : ∀ b, g.block? b = (f.block? b).map fun blk =>
    { blk with instrs := blk.instrs.filter fun id => (d.consts id).isNone }

/-! ## Operands -/

section Operands
variable {d : Folding}

@[simp] theorem Op.mapOperands_mapOperands (g g' : Operand → Operand) (op : Op) :
    (op.mapOperands g).mapOperands g' = op.mapOperands fun o => g' (g o) := by
  cases op with
  | ret value => cases value <;> rfl
  | phi inputs => simp [Op.mapOperands]
  | uninterpreted name args => simp [Op.mapOperands]
  | _ => rfl

@[simp] theorem Op.isTerminator_mapOperands (g : Operand → Operand) (op : Op) :
    (op.mapOperands g).isTerminator = op.isTerminator := by
  cases op <;> rfl

theorem Folding.operand_empty (o : Operand) : Folding.empty.operand o = o := by
  cases o <;> rfl

theorem Folding.op_empty (id : InstrId) (op : Op) : Folding.empty.op id op = op := by
  show op.mapOperands Folding.empty.operand = op
  rw [show Folding.empty.operand = fun o => o from funext Folding.operand_empty, Op.mapOperands_id]

/-- Replacing one value more is replacing it in what the others left. -/
theorem Folding.op_foldValue {i : Instr} (h : d.consts i.id = none) (b : BlockId) (c : Int64)
    (k : InstrId) (op : Op) :
    (d.add (.foldValue b i c)).op k op = (d.op k op).substitute i.id (.const c) := by
  unfold Folding.op
  rw [show (d.add (.foldValue b i c)).jumps k = d.jumps k from rfl]
  cases d.jumps k with
  | some target => rfl
  | none =>
    dsimp only
    rw [Op.substitute, Op.mapOperands_mapOperands]
    refine Op.mapOperands_congr fun o _ => ?_
    cases o with
    | const c' => rfl
    | undef => rfl
    | value v =>
      by_cases hv : v = i.id
      · simp [Folding.operand, Folding.add, Operand.references, hv, h]
      · cases hc : d.consts v with
        | none => simp [Folding.operand, Folding.add, Operand.references, hv, hc]
        | some c' => simp [Folding.operand, Folding.add, Operand.references, hv, hc]

end Operands

theorem Folded.refl {f : Func} (h : f.Consistent) : Folded f .empty f where
  name := rfl
  slots := rfl
  consistent := h
  instr k := by
    simp only [Folding.op_empty]
    cases f.instr? k <;> rfl
  block b := by
    cases f.block? b with
    | none => rfl
    | some blk => simp [Folding.empty]

/-! ## One change -/

section Changes
variable {f g : Func} {d : Folding} {i : Instr}

theorem Folded.instr_eq_some (h : Folded f d g) {k : InstrId} {j : Instr} :
    g.instr? k = some j ↔
      d.consts k = none ∧ ∃ i, f.instr? k = some i ∧ j = { i with op := d.op k i.op } := by
  rw [h.instr]
  split
  · next hnone =>
    rw [Option.map_eq_some_iff, and_iff_right hnone]
    exact exists_congr fun i => and_congr_right fun _ => eq_comm
  · next hsome => simp [hsome]

theorem Folded.instr_kept (h : Folded f d g) {k : InstrId} (hi : f.instr? k = some i)
    (hnone : d.consts k = none) : g.instr? k = some { i with op := d.op k i.op } :=
  h.instr_eq_some.mpr ⟨hnone, i, hi, rfl⟩

theorem Folded.foldValue (h : Folded f d g) {b : BlockId} {c : Int64} {n : Nat} {j : Instr}
    {g₁ g₂ : Func} (hreplace : g.replaceUses i.id (.const c) = .ok (n, g₁))
    (hremove : g₁.remove i.id = .ok (j, g₂)) : Folded f (d.add (.foldValue b i c)) g₂ := by
  obtain ⟨hname₁, hblocks₁, hslots₁, hindexed₁, hinstr₁⟩ :=
    Func.replaceUses_spec h.consistent.indexed (by simp) hreplace
  have hc₁ := (h.consistent.replaceUses hreplace).consistent
  obtain ⟨hj, hname₂, hslots₂, -, -, hinstr₂, hblock₂⟩ :=
    Func.remove_spec hc₁.placed hindexed₁ hremove
  have hnone : d.consts i.id = none := by
    rw [hinstr₁, Option.map_eq_some_iff] at hj
    obtain ⟨j', hj', -⟩ := hj
    exact (h.instr_eq_some.mp hj').1
  constructor
  case name => rw [hname₂, hname₁, h.name]
  case slots => rw [hslots₂, hslots₁, h.slots]
  case consistent => exact (hc₁.remove hremove).consistent
  case instr =>
    intro k
    rw [hinstr₂, hinstr₁, h.instr]
    simp only [Folding.op_foldValue hnone]
    by_cases hk : k = i.id
    · simp [Folding.add, hk]
    · rw [if_neg hk, show (d.add (.foldValue b i c)).consts k = d.consts k from if_neg hk]
      split
      · rw [Option.map_map]
        rfl
      · rfl
  case block =>
    intro a
    rw [hblock₂, show g₁.block? a = g.block? a by rw [Func.block?, hblocks₁, Func.block?], h.block,
      Option.map_map]
    congr 1
    funext blk
    simp only [Function.comp_apply, List.filter_filter]
    congr 2
    funext k
    by_cases hk : k = i.id
    · simp [Folding.add, hk]
    · simp [Folding.add, hk]

theorem getLast?_filter {α : Type} {l : List α} {a : α} {p : α → Bool} (h : l.getLast? = some a)
    (ha : p a = true) : (l.filter p).getLast? = some a := by
  obtain ⟨pre, rfl⟩ := List.getLast?_eq_some_iff.mp h
  rw [List.filter_append, List.filter_singleton, ha, cond_true, List.getLast?_append]
  rfl

theorem Folded.foldBranch (h : Folded f d g) (hp : f.Placed) (hwf : f.WellFormed)
    (hi : f.instr? i.id = some i) (hterm : i.op.isTerminator = true) (hnone : d.consts i.id = none)
    {target : BlockId} {old : Op} {g' : Func}
    (hreplace : g.replaceTerminator i.block (.jump target) = .ok (old, g')) :
    Folded f (d.add (.foldBranch i.block i target)) g' := by
  obtain ⟨blk, id, j, hblk, hlast, hj, -, -, -, hchanged⟩ :=
    Func.replaceTerminator_spec h.consistent.placed h.consistent.indexed hreplace
  -- the branch is still the last of its block
  have hid : id = i.id := by
    rw [h.block] at hblk
    obtain ⟨blk₀, hblk₀, rfl⟩ := Option.map_eq_some_iff.mp hblk
    have hend := getLast?_filter (p := fun id => (d.consts id).isNone)
      ((hwf.last_iff hp hblk₀ hi).mp hterm) (by rw [hnone]; rfl)
    exact Option.some.inj (hlast.symm.trans hend)
  subst hid
  constructor
  case name => rw [hchanged.name, h.name]
  case slots => rw [hchanged.slots, h.slots]
  case consistent => exact ⟨hchanged.placed, hchanged.indexed⟩
  case instr =>
    intro k
    rw [hchanged.instr, h.instr,
      show (d.add (.foldBranch i.block i target)).consts = d.consts from rfl]
    by_cases hk : k = i.id
    · subst hk
      rw [if_pos rfl, if_pos hnone, if_pos hnone, hi]
      simp [Folding.op, Folding.add]
    · rw [if_neg hk]
      simp only [Folding.op, Folding.add, if_neg hk]
      rfl
  case block =>
    intro a
    rw [show g'.block? a = g.block? a by rw [Func.block?, hchanged.blocks, Func.block?], h.block]
    rfl

end Changes

/-! ## All changes of a plan -/

/-- The solution decides the branch `i` in favour of `target`. -/
def Solution.Decides (r : Solution) (i : Instr) (target : BlockId) : Prop :=
  ∃ cond onTrue onFalse, i.op = .branch cond onTrue onFalse ∧
    (r.operandConst? cond = some 1 ∧ target = onTrue ∨
      r.operandConst? cond = some 0 ∧ target = onFalse)

/-- The change is about an instruction as it stands in the function, and the solution allows it. -/
def Change.Justified (f : Func) (r : Solution) : Change → Prop
  | .foldValue b i c => f.instr? i.id = some i ∧ i.block = b ∧ i.op.isFoldable = true ∧
      r.const? i.id = some c
  | .foldBranch b i target => f.instr? i.id = some i ∧ i.block = b ∧ r.Decides i target

/-- Every part of the folding is allowed by the solution. -/
structure Folding.Justified (f : Func) (r : Solution) (d : Folding) : Prop where
  const : ∀ {k : InstrId} {c : Int64}, d.consts k = some c →
    ∃ i, f.instr? k = some i ∧ i.op.isFoldable = true ∧ r.const? k = some c
  jump : ∀ {k : InstrId} {target : BlockId}, d.jumps k = some target →
    ∃ i, f.instr? k = some i ∧ r.Decides i target

section Plans
variable {f : Func} {r : Solution} {o : Options} {d : Folding}

theorem Folding.justified_empty (f : Func) (r : Solution) : Folding.empty.Justified f r :=
  ⟨(fun h => nomatch h), (fun h => nomatch h)⟩

/-- An instruction that is no foldable value becomes no constant. -/
theorem Folding.Justified.consts_eq_none (h : d.Justified f r) {id : InstrId} {i : Instr}
    (hi : f.instr? id = some i) (hop : i.op.isFoldable = false) : d.consts id = none := by
  by_contra hne
  obtain ⟨v, hv⟩ := Option.ne_none_iff_exists'.mp hne
  obtain ⟨j, hj, hfold, -⟩ := h.const hv
  obtain rfl : j = i := Option.some.inj (hj.symm.trans hi)
  rw [hop] at hfold
  cases hfold

/-- What becomes of an operation: a decided branch is a jump, of all others the operands change. -/
theorem Folding.Justified.op_cases (hd : d.Justified f r) {k : InstrId} {i : Instr}
    (hi : f.instr? k = some i) : d.jumps k = none ∧ d.op k i.op = i.op.mapOperands d.operand ∨
      ∃ target, d.jumps k = some target ∧ r.Decides i target ∧ d.op k i.op = .jump target := by
  cases hk : d.jumps k with
  | none => exact .inl ⟨rfl, by rw [op, hk]⟩
  | some target =>
    obtain ⟨j, hj, hdecides⟩ := hd.jump hk
    obtain rfl : j = i := Option.some.inj (hj.symm.trans hi)
    exact .inr ⟨target, rfl, hdecides, by rw [op, hk]⟩

theorem Folding.Justified.add (h : d.Justified f r) {c : Change} (hc : c.Justified f r) :
    (d.add c).Justified f r := by
  cases c with
  | foldValue b i c =>
    obtain ⟨hi, -, hfold, hconst⟩ := hc
    refine ⟨fun {k v} hk => ?_, h.jump⟩
    by_cases heq : k = i.id
    · rw [show (d.add (.foldValue b i c)).consts k = some c from if_pos heq] at hk
      cases hk
      exact ⟨i, heq ▸ hi, hfold, heq ▸ hconst⟩
    · rw [show (d.add (.foldValue b i c)).consts k = d.consts k from if_neg heq] at hk
      exact h.const hk
  | foldBranch b i target =>
    obtain ⟨hi, -, hdecides⟩ := hc
    refine ⟨h.const, fun {k v} hk => ?_⟩
    by_cases heq : k = i.id
    · rw [show (d.add (.foldBranch b i target)).jumps k = some target from if_pos heq] at hk
      cases hk
      exact ⟨i, heq ▸ hi, hdecides⟩
    · rw [show (d.add (.foldBranch b i target)).jumps k = d.jumps k from if_neg heq] at hk
      exact h.jump hk

theorem planBranch_eq_some {b : BlockId} {i : Instr} {cond : Operand} {onTrue onFalse : BlockId}
    {c : Change} : planBranch r b i cond onTrue onFalse = .ok (some c) ↔
      ∃ target, c = .foldBranch b i target ∧ (r.operandConst? cond = some 1 ∧ target = onTrue ∨
        r.operandConst? cond = some 0 ∧ target = onFalse) := by
  unfold planBranch
  cases r.operandConst? cond with
  | none => simp
  | some k =>
    dsimp only
    split
    · next hone =>
      subst hone
      simp [eq_comm]
    · next hone =>
      split
      · next hzero =>
        subst hzero
        simp [eq_comm]
      · next hzero => simp [hone, hzero]

/-- What is planned for one instruction: a foldable value that is constant becomes its constant, and
a branch in a reached block that is decided becomes a jump. -/
theorem planInstr_eq_some {b : BlockId} {i : Instr} {c : Change} :
    planInstr r o b i = .ok (some c) ↔
      (∃ k, c = .foldValue b i k ∧ i.op.isFoldable = true ∧ o.foldValues = true ∧
        r.const? i.id = some k) ∨
      ∃ target, c = .foldBranch b i target ∧ o.foldBranches = true ∧ r.reached b = true ∧
        r.Decides i target := by
  unfold planInstr Solution.Decides
  split
  · next cond onTrue onFalse hop =>
    rw [hop]
    simp only [Op.isFoldable, Bool.false_eq_true, false_and, and_false, exists_false, false_or]
    split
    · next hallowed =>
      rw [Bool.and_eq_true] at hallowed
      rw [planBranch_eq_some]
      simp [hallowed]
    · next hallowed =>
      refine ⟨fun h => (nomatch h), ?_⟩
      rintro ⟨target, -, hfold, hreached, -⟩
      exact absurd (Bool.and_eq_true_iff.mpr ⟨hfold, hreached⟩) hallowed
  · next hne =>
    have hno : ∀ cond onTrue onFalse, i.op ≠ .branch cond onTrue onFalse := hne
    simp only [hno, false_and, exists_false, and_false, or_false]
    split
    · next hallowed =>
      obtain ⟨hfold, hvalues⟩ := Bool.and_eq_true_iff.mp hallowed
      rw [Except.ok.injEq, Option.map_eq_some_iff]
      constructor
      · rintro ⟨k, hk, rfl⟩
        exact ⟨k, rfl, hfold, hvalues, hk⟩
      · rintro ⟨k, rfl, -, -, hk⟩
        exact ⟨k, hk, rfl⟩
    · next hallowed =>
      refine ⟨fun h => (nomatch h), ?_⟩
      rintro ⟨k, -, hfold, hvalues, -⟩
      exact absurd (Bool.and_eq_true_iff.mpr ⟨hfold, hvalues⟩) hallowed

theorem justified_of_planInstr {b : BlockId} {i : Instr} {c : Change}
    (hi : f.instr? i.id = some i) (hb : i.block = b) (h : planInstr r o b i = .ok (some c)) :
    c.Justified f r := by
  rcases planInstr_eq_some.mp h with ⟨k, rfl, hfold, -, hconst⟩ | ⟨target, rfl, -, -, hdecides⟩
  · exact ⟨hi, hb, hfold, hconst⟩
  · exact ⟨hi, hb, hdecides⟩

theorem mem_planAll {ps : List (BlockId × Instr)} {cs : List Change} (h : planAll r o ps = .ok cs)
    {c : Change} : c ∈ cs ↔ ∃ p ∈ ps, planInstr r o p.1 p.2 = .ok (some c) := by
  induction ps generalizing cs with
  | nil =>
    cases h
    simp
  | cons p ps ih =>
    obtain ⟨b, i⟩ := p
    unfold planAll at h
    split at h
    · cases h
    · next change hchange =>
      split at h
      · cases h
      · next rest hrest =>
        cases h
        rw [List.mem_append, Option.mem_toList, ih hrest, List.exists_mem_cons_iff]
        exact or_congr_left (by rw [hchange, Except.ok.injEq])

theorem Func.Placed.mem_placed (hp : f.Placed) {b : BlockId} {i : Instr} :
    (b, i) ∈ f.placed ↔ f.instr? i.id = some i ∧ i.block = b := by
  simp only [Func.placed, List.mem_flatMap, List.mem_map, Prod.mk.injEq]
  constructor
  · rintro ⟨blk, -, j, hj, rfl, rfl⟩
    exact hp.mem_blockInstrs.mp hj
  · rintro ⟨hi, rfl⟩
    obtain ⟨blk, hblk, -⟩ := hp.listed hi
    have hnumber : blk.id = i.block := hp.number hblk
    refine ⟨blk, Array.mem_toList_iff.mpr (Array.mem_of_getElem? hblk), i, ?_, hnumber, rfl⟩
    exact hp.mem_blockInstrs.mpr ⟨hi, hnumber.symm⟩

theorem justified_of_plan (hp : f.Placed) {cs : List Change} (h : plan r o f = .ok cs) {c : Change}
    (hc : c ∈ cs) : c.Justified f r := by
  obtain ⟨⟨b, i⟩, hmem, hplan⟩ := (mem_planAll h).mp hc
  obtain ⟨hi, hb⟩ := hp.mem_placed.mp hmem
  exact justified_of_planInstr hi hb hplan

/-- Committing a change that is justified adds it to the folding. -/
theorem Change.commit_folded (hp : f.Placed) (hwf : f.WellFormed) {pass : Option String}
    {c : Change} {w w' : Workspace} {u : Unit} (hd : d.Justified f r) (hc : c.Justified f r)
    (h : Folded f d w.func) (hw : c.commit pass w = .ok u w') : Folded f (d.add c) w'.func := by
  cases c with
  | foldValue b i c =>
    obtain ⟨_, g₁, _, g₂, hreplace, hremove, rfl⟩ := Change.commit_foldValue hw
    exact h.foldValue hreplace hremove
  | foldBranch b i target =>
    obtain ⟨hi, rfl, cond, onTrue, onFalse, hop, -⟩ := hc
    obtain ⟨_, g', hreplace, rfl⟩ := Change.commit_foldBranch hw
    exact h.foldBranch hp hwf hi (by rw [hop]; rfl) (hd.consts_eq_none hi (by rw [hop]; rfl))
      hreplace

theorem commitAll_folded (hp : f.Placed) (hwf : f.WellFormed) {pass : Option String}
    (cs : List Change) : ∀ {d : Folding} {w w' : Workspace} {u : Unit}, d.Justified f r →
      (∀ c ∈ cs, c.Justified f r) → Folded f d w.func → commitAll pass cs w = .ok u w' →
        Folded f (cs.foldl Folding.add d) w'.func ∧ (cs.foldl Folding.add d).Justified f r := by
  induction cs with
  | nil =>
    intro d w w' u hd _ h hw
    cases hw
    exact ⟨h, hd⟩
  | cons c cs ih =>
    intro d w w' u hd hcs h hw
    have hc := hcs c List.mem_cons_self
    unfold commitAll at hw
    split at hw
    · next w₁ hcommit =>
      exact ih (hd.add hc) (fun c' hc' => hcs c' (List.mem_cons_of_mem _ hc'))
        (c.commit_folded hp hwf hd hc h hcommit) hw
    · cases hw

/-- A simplification that succeeds made all the changes of its plan. -/
theorem simplify_ok {w w' : Workspace} {pass : Option String} {n : Nat}
    (h : simplify r o pass w = .ok n w') :
    ∃ cs w₁, plan r o w.func = .ok cs ∧ n = cs.length ∧
      commitAll pass cs (warnSize r pass w) = .ok () w₁ ∧ w'.func = w₁.func ∧
      w'.events = w₁.events := by
  unfold simplify at h
  dsimp only at h
  split at h
  · cases h
  · next cs hplan =>
    rw [func_warnSize] at hplan
    split at h
    · cases h
    · next w₁ hcommit =>
      cases h
      refine ⟨cs, w₁, hplan, rfl, hcommit, ?_, ?_⟩
      · split <;> rfl
      · split <;> rfl

/-- What simplification leaves of a valid function is one folding of it, allowed by the solution. -/
theorem simplify_folded {w w' : Workspace} {pass : Option String} {n : Nat} (hf : w.func.Consistent)
    (hwf : w.func.WellFormed) (h : simplify r o pass w = .ok n w') :
    ∃ cs, plan r o w.func = .ok cs ∧ Folded w.func (cs.foldl Folding.add .empty) w'.func ∧
      (cs.foldl Folding.add .empty).Justified w.func r := by
  obtain ⟨cs, w₁, hplan, -, hcommit, hfunc, -⟩ := simplify_ok h
  have hstart : Folded w.func .empty (warnSize r pass w).func := by
    rw [func_warnSize]
    exact .refl hf
  obtain ⟨hfolded, hjust⟩ := commitAll_folded hf.placed hwf cs (Folding.justified_empty _ r)
    (fun c hc => justified_of_plan hf.placed hplan hc) hstart hcommit
  exact ⟨cs, hplan, hfunc ▸ hfolded, hjust⟩

end Plans

/-! ## The pass -/

namespace ConstantPropagation
variable {o : Options} {w w' : Workspace}

theorem func_foldl_record (ds : List EventDraft) (w : Workspace) :
    (ds.foldl Workspace.record w).func = w.func := by
  induction ds generalizing w with
  | nil => rfl
  | cons d ds ih => exact ih _

theorem verify_ok {u : Unit} (h : verify o w = .ok u w') : w' = w := by
  unfold verify at h
  split at h
  · split at h
    · cases h
      rfl
    · cases h
  · cases h
    rfl

theorem analyse_ok {r : Solution} (h : analyse o w = .ok r w') :
    w'.func = w.func ∧ w.func.solve o.recordHistory = .ok r := by
  unfold analyse at h
  dsimp only at h
  split at h
  · cases h
  · next r' hr =>
    cases h
    refine ⟨?_, hr⟩
    split
    · rw [func_foldl_record]
    · rfl

/-- The stages of the pass, each on the workspace that the one before it left. -/
theorem run_eq (o : Options) (w : Workspace) :
    run o w =
      match verify o (started w) with
      | .error e w₀ => .error e w₀
      | .ok _ w₀ =>
        match analyse o w₀ with
        | .error e w₁ => .error e w₁
        | .ok r w₁ =>
          match transform o r w₁ with
          | .error e w₂ => .error e w₂
          | .ok n w₂ => .ok (decide (0 < n)) (completed r n w₂) := by
  unfold run
  rw [show (modify started : Work Unit) = fun w => .ok () (started w) from rfl]
  simp only [bind, EStateM.bind]
  cases verify o (started w) with
  | error e w₀ => rfl
  | ok u w₀ =>
    simp only
    cases analyse o w₀ with
    | error e w₁ => rfl
    | ok r w₁ =>
      simp only
      cases transform o r w₁ with
      | error e w₂ => rfl
      | ok n w₂ => rfl

/-- A run of the pass that succeeds analysed the function and simplified it by the solution, if the
options allow that at all. -/
theorem run_ok {changed : Bool} (h : run o w = .ok changed w') :
    ∃ r w₁ n w₂, w₁.func = w.func ∧ w.func.solve o.recordHistory = .ok r ∧
      transform o r w₁ = .ok n w₂ ∧ w' = completed r n w₂ ∧ changed = decide (0 < n) := by
  rw [run_eq] at h
  split at h
  · cases h
  · next u w₀ hverify =>
    rw [verify_ok hverify] at h
    split at h
    · cases h
    · next r w₁ hanalyse =>
      obtain ⟨hfunc, hsolve⟩ := analyse_ok hanalyse
      split at h
      · cases h
      · next n w₂ htransform =>
        cases h
        exact ⟨r, w₁, n, w₂, hfunc, hsolve, htransform, rfl, rfl⟩

/-- The pass leaves one folding of a valid function, allowed by the solution that it computed. -/
theorem run_folded (hf : w.func.Consistent) (hwf : w.func.WellFormed) {changed : Bool}
    (h : run o w = .ok changed w') :
    ∃ r d, w.func.solve o.recordHistory = .ok r ∧ Folded w.func d w'.func ∧
      d.Justified w.func r := by
  obtain ⟨r, w₁, n, w₂, hfunc, hsolve, htransform, rfl, -⟩ := run_ok h
  unfold transform at htransform
  split at htransform
  · obtain ⟨cs, -, hfolded, hjust⟩ := simplify_folded (hfunc ▸ hf) (hfunc ▸ hwf) htransform
    rw [hfunc] at hfolded hjust
    exact ⟨r, _, hsolve, hfolded, hjust⟩
  · cases htransform
    refine ⟨r, .empty, hsolve, ?_, Folding.justified_empty _ r⟩
    show Folded w.func .empty w₁.func
    rw [hfunc]
    exact .refl hf

end ConstantPropagation

end ConstFlow
