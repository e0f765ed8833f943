import ConstFlow.Proofs.Stages
import ConstFlow.Proofs.WellFormed

/-!
# Runs on strict functions

In a strict function every use is dominated by its definition. The analysis then never reads a value
of which it knows nothing: by the time an instruction is visited, the definitions that it reads were
visited, since they lie on every way to its block or before it in the block.

* `Func.Walk`, `Func.Dominates` : ways from the entry, and the blocks that lie on all of them;
* `Func.Strict` : no undefined operand, phis with an entry for every predecessor, and every use
  dominated by its definition;
* `Paced` : the invariant. Reached blocks are reached along reached blocks, and in reached blocks
  something is known of every instruction, save those still to be visited in a block that is entered
  for the first time;
* `Paced.operand_known` : something is known of every operand that is read outside a phi.

A phi without entries in the entry block is not excluded by `Func.Strict`, and nothing is ever known
of it. `paced_kept` therefore asks for an entry block without phis.
-/

namespace ConstFlow

namespace Func

/-- A way from the entry along edges, last block first. -/
inductive Walk (f : Func) : List BlockId → Prop
  | entry : Walk f [Func.entry]
  | edge {a b : BlockId} {way : List BlockId} (before : Walk f (a :: way)) (edge : b ∈ f.succs a) :
      Walk f (b :: a :: way)

/-- Every way to `b` leads over `a`. -/
def Dominates (f : Func) (a b : BlockId) : Prop :=
  ∀ way, f.Walk (b :: way) → a ∈ b :: way

/-- The instructions that the block of `i` lists before it. -/
def listedBefore (f : Func) (i : Instr) : List InstrId :=
  match f.block? i.block with
  | some blk => blk.instrs.takeWhile (· ≠ i.id)
  | none => []

/-- Static single assignment form in the strict sense. -/
structure Strict (f : Func) : Prop where
  defined : ∀ i ∈ f.instrs, .undef ∉ i.op.operands
  total : ∀ i ∈ f.instrs, i.op.isPhi = true → ∀ a ∈ f.preds i.block,
    ∃ p ∈ i.op.phiInputs, p.pred = a
  used : ∀ i ∈ f.instrs, i.op.isPhi = false → ∀ d ∈ i.op.uses, d ∈ f.listedBefore i ∨
    ∃ j, f.instr? d = some j ∧ j.block ≠ i.block ∧ f.Dominates j.block i.block
  fed : ∀ i ∈ f.instrs, ∀ p ∈ i.op.phiInputs, ∀ d, p.value = .value d →
    ∃ j, f.instr? d = some j ∧ f.Dominates j.block p.pred

/-- A way to a block into which only one other leads leads over that one. -/
theorem dominates_of_edges {f : Func} {a b : BlockId} (hne : b ≠ entry)
    (h : ∀ c ∈ List.range f.blockCount, b ∈ f.succs c → c = a) : f.Dominates a b := by
  intro way hwalk
  cases hwalk with
  | entry => exact absurd rfl hne
  | edge before hedge =>
    rw [h _ (List.mem_range.mpr (lt_blockCount_of_mem_succs hedge)) hedge]
    exact List.mem_cons_of_mem _ List.mem_cons_self

set_option synthInstance.maxSize 256 in
/-- A form of `Strict` that can be decided: values are read in the block that defines them or in one
into which only that block leads, and phis read values of the very blocks that they name. -/
def StrictByEdges (f : Func) : Prop :=
  (∀ i ∈ f.instrs, .undef ∉ i.op.operands) ∧
  (∀ i ∈ f.instrs, i.op.isPhi = true → ∀ a ∈ f.preds i.block, ∃ p ∈ i.op.phiInputs, p.pred = a) ∧
  (∀ i ∈ f.instrs, i.op.isPhi = false → ∀ d ∈ i.op.uses, d ∈ f.listedBefore i ∨
    ∃ j ∈ f.instr? d, j.block ≠ i.block ∧ i.block ≠ entry ∧
      ∀ c ∈ List.range f.blockCount, i.block ∈ f.succs c → c = j.block) ∧
  ∀ i ∈ f.instrs, ∀ p ∈ i.op.phiInputs, ∀ d ∈ p.value.value?, ∃ j ∈ f.instr? d, j.block = p.pred
deriving Decidable

theorem StrictByEdges.strict {f : Func} (h : f.StrictByEdges) : f.Strict := by
  obtain ⟨hdefined, htotal, hused, hfed⟩ := h
  refine ⟨hdefined, htotal, fun i hi hphi d hd => ?_, fun i hi p hp d hd => ?_⟩
  · refine (hused i hi hphi d hd).imp_right ?_
    rintro ⟨j, hj, hne, hentry, hedges⟩
    exact ⟨j, hj, hne, dominates_of_edges hentry hedges⟩
  · obtain ⟨j, hj, hblock⟩ := hfed i hi p hp d (by rw [hd]; rfl)
    exact ⟨j, hj, fun way _ => hblock ▸ List.mem_cons_self⟩

end Func

/-! ## What is known during a run -/

variable {f : Func} {s s' : State} {i : Instr} {y : Yield} {b : BlockId} {todo todo' : List InstrId}

/-- Something is known of the value. -/
def State.Knows (s : State) (id : InstrId) : Prop :=
  ∃ v, s.facts.get? id = some v ∧ v ≠ .unknown

/-- Something is known of every instruction of a reached block, save those in the list. -/
def Known (f : Func) (s : State) (todo : List InstrId) : Prop :=
  ∀ {id : InstrId} {i : Instr}, f.instr? id = some i → s.visits.reached i.block = true →
    id ∈ todo ∨ s.Knows id

/-- Block `b` was entered for the first time, on a way that does not lead over it, and the list
holds what is left of it. -/
structure Opening (f : Func) (s : State) (b : BlockId) (todo : List InstrId) : Prop where
  rest : ∃ blk before, f.block? b = some blk ∧ blk.instrs = before ++ todo
  way : b = Func.entry ∨ ∃ a way, f.Walk (a :: way) ∧ b ∉ a :: way ∧
    (∀ c ∈ a :: way, s.visits.reached c = true) ∧ b ∈ f.succs a

/-- What holds between two strides of a run on a strict function. -/
structure Paced (f : Func) (s : State) (todo : List InstrId) : Prop where
  active : ∀ id ∈ todo, State.isActive f s.visits id = true
  walk : ∀ {b : BlockId}, s.visits.reached b = true →
    ∃ way, f.Walk (b :: way) ∧ ∀ a ∈ b :: way, s.visits.reached a = true
  waiting : ∀ {b : BlockId}, b ∈ s.blocks.pending →
    b = Func.entry ∨ ∃ a, s.visits.reached a = true ∧ b ∈ f.succs a
  known : Known f s [] ∨ ∃ b, Opening f s b todo ∧ Known f s todo

theorem paced_initial (h : s.Initial f) : Paced f s [] where
  active _ hid := absurd hid List.not_mem_nil
  walk hb := absurd hb (h.unreached _)
  waiting hb := .inl ((h.blocks _).mp hb)
  known := .inl fun _ hreached => absurd hreached (h.unreached _)

/-- Between two tasks nothing is left out. -/
theorem Paced.known_nil (h : Paced f s []) : Known f s [] := by
  rcases h.known with hknown | ⟨b, -, hknown⟩
  · exact hknown
  · exact hknown

/-- A block on every way to a reached block is reached. -/
theorem Paced.reached_of_dominates (h : Paced f s todo) {a b : BlockId} (hdom : f.Dominates a b)
    (hb : s.visits.reached b = true) : s.visits.reached a = true := by
  obtain ⟨way, hwalk, hreached⟩ := h.walk hb
  exact hreached a (hdom way hwalk)

theorem State.Visited.knows (hv : State.Visited f s i y s') {id : InstrId} (h : s.Knows id) :
    s'.Knows id := by
  obtain ⟨v, hfact, hne⟩ := h
  rw [State.Knows, hv.fact]
  split
  · exact ⟨v.join y.fact, by rw [hfact, Option.map_some],
      Fact.ne_unknown_of_le (Fact.le_join_left _ _) hne⟩
  · exact ⟨v, hfact, hne⟩

/-! ## Operands of the next instruction -/

theorem Opening.owner (h : Opening f s b todo) (hp : f.Placed) {id : InstrId} (hid : id ∈ todo)
    (hi : f.instr? id = some i) : i.block = b := by
  obtain ⟨blk, before, hblk, hlist⟩ := h.rest
  have hmem : id ∈ blk.instrs := by
    rw [hlist]
    exact List.mem_append_right _ hid
  obtain ⟨j, hj, hown⟩ := (hp.mem hblk id).mp hmem
  obtain rfl : j = i := Option.some.inj (hj.symm.trans hi)
  exact hown

/-- What is listed before the next instruction is not among what is left. -/
theorem Opening.not_mem_of_listedBefore (h : Opening f s b (i.id :: todo)) (hp : f.Placed)
    (hi : f.instr? i.id = some i) {d : InstrId} (hd : d ∈ f.listedBefore i) :
    d ∉ i.id :: todo := by
  obtain rfl := h.owner hp List.mem_cons_self hi
  obtain ⟨blk, before, hblk, hlist⟩ := h.rest
  have hnodup := hp.nodup hblk
  rw [hlist, List.nodup_append] at hnodup
  have hbefore : ∀ a ∈ before, decide (a ≠ i.id) = true := by
    intro a ha
    exact decide_eq_true (hnodup.2.2 a ha i.id List.mem_cons_self)
  rw [Func.listedBefore, hblk] at hd
  dsimp only at hd
  rw [hlist, List.takeWhile_append_of_pos hbefore, List.takeWhile_cons,
    if_neg (by simp), List.append_nil] at hd
  exact fun hmem => hnodup.2.2 d hd d hmem rfl

theorem Paced.reached_next (h : Paced f s (i.id :: todo)) (hi : f.instr? i.id = some i) :
    s.visits.reached i.block = true := by
  obtain ⟨j, hj, hreached⟩ := State.isActive_iff.mp (h.active _ List.mem_cons_self)
  obtain rfl : j = i := Option.some.inj (hj.symm.trans hi)
  exact hreached

/-- Something is known of an instruction in a reached block that is not among what is left of the
block in progress. -/
theorem Paced.knows (h : Paced f s todo) {d : InstrId} {j : Instr} (hj : f.instr? d = some j)
    (hreached : s.visits.reached j.block = true) (hout : ∀ {b}, Opening f s b todo → d ∉ todo) :
    s.Knows d := by
  rcases h.known with hknown | ⟨b, hopening, hknown⟩
  · exact (hknown hj hreached).resolve_left List.not_mem_nil
  · exact (hknown hj hreached).resolve_left (hout hopening)

/-- Something is known of every value that the next instruction reads, if it is no phi. -/
theorem Paced.use_known (h : Paced f s (i.id :: todo)) (hp : f.Placed) (hstrict : f.Strict)
    (hi : f.instr? i.id = some i) (hphi : i.op.isPhi = false) {d : InstrId} (hd : d ∈ i.op.uses) :
    s.Knows d := by
  have hreached := h.reached_next hi
  rcases hstrict.used i (Func.mem_instrs.mpr ⟨_, hi⟩) hphi d hd with hbefore | ⟨j, hj, hne, hdom⟩
  · obtain ⟨blk, hblk, -⟩ := hp.listed hi
    have hmem := hbefore
    rw [Func.listedBefore, hblk] at hmem
    obtain ⟨j, hj, hown⟩ := (hp.mem hblk d).mp (List.takeWhile_subset _ hmem)
    exact h.knows hj (hown ▸ hreached) fun hopening =>
      hopening.not_mem_of_listedBefore hp hi hbefore
  · refine h.knows hj (h.reached_of_dominates hdom hreached) fun hopening hmem => hne ?_
    rw [hopening.owner hp hmem hj, hopening.owner hp List.mem_cons_self hi]

/-- The fact that an operand resolves to says something. -/
theorem Paced.operand_known (h : Paced f s (i.id :: todo)) (hp : f.Placed) (hstrict : f.Strict)
    (hi : f.instr? i.id = some i) (hphi : i.op.isPhi = false) {o : Operand}
    (ho : o ∈ i.op.operands) {v : Fact} (hv : s.facts.resolve o = .ok v) : v ≠ .unknown := by
  cases o with
  | const c =>
    cases hv
    exact Fact.noConfusion
  | undef => exact absurd ho (hstrict.defined i (Func.mem_instrs.mpr ⟨_, hi⟩))
  | value d =>
    obtain ⟨w, hw, hne⟩ := h.use_known hp hstrict hi hphi (Op.mem_uses.mpr ho)
    obtain rfl : v = w := Option.some.inj ((FactMap.get_eq_ok.mp hv).symm.trans hw)
    exact hne

/-- In a block entered for the first time every phi has an entry that counts and of which something
is known: the one for the way that control took. -/
theorem Paced.entry_known (h : Paced f s (i.id :: todo)) (hp : f.Placed) (hstrict : f.Strict)
    (hpreds : ∀ {a b : BlockId}, b < f.blockCount → b ∈ f.succs a → a ∈ f.preds b)
    (hentry : ∀ i ∈ f.blockInstrs Func.entry, i.op.isPhi = false)
    (hi : f.instr? i.id = some i) (hphi : i.op.isPhi = true) {b : BlockId}
    (hopening : Opening f s b (i.id :: todo)) :
    ∃ p ∈ i.op.phiInputs, p.counts s.visits = true ∧
      ∃ v, s.facts.resolve p.value = .ok v ∧ v ≠ .unknown := by
  have hmem := Func.mem_instrs.mpr ⟨_, hi⟩
  obtain rfl := hopening.owner hp List.mem_cons_self hi
  rcases hopening.way with hb | ⟨a, way, hwalk, hnot, hreached, hedge⟩
  · have hno := hentry i (hp.mem_blockInstrs.mpr ⟨hi, hb⟩)
    rw [hphi] at hno
    cases hno
  · obtain ⟨p, hpmem, rfl⟩ := hstrict.total i hmem hphi a (hpreds (hp.owner hi) hedge)
    have hdef : p.value ≠ .undef := fun hundef =>
      hstrict.defined i hmem (hundef ▸ Op.value_mem_operands hpmem)
    refine ⟨p, hpmem, ?_, ?_⟩
    · exact PhiInput.counts_iff.mpr ⟨hdef, hreached _ List.mem_cons_self⟩
    · cases hval : p.value with
      | undef => exact absurd hval hdef
      | const c => exact ⟨.const c, rfl, Fact.noConfusion⟩
      | value d =>
        -- the definition lies on the way to the predecessor, so not in this block
        obtain ⟨j, hj, hdom⟩ := hstrict.fed i hmem p hpmem d hval
        have hon := hdom way hwalk
        have hout : ∀ {b}, Opening f s b (i.id :: todo) → d ∉ i.id :: todo := by
          intro b hopening' hleft
          have hsame : j.block = i.block := by
            rw [hopening'.owner hp hleft hj, hopening'.owner hp List.mem_cons_self hi]
          exact hnot (hsame ▸ hon)
        obtain ⟨v, hv, hne⟩ := h.knows hj (hreached _ hon) hout
        exact ⟨v, FactMap.get_eq_ok.mpr hv, hne⟩

/-! ## Every stride keeps the pace -/

theorem State.Knows.of_facts {id : InstrId} (h : s.Knows id) (hfacts : s'.facts = s.facts) :
    s'.Knows id := by
  rw [State.Knows, hfacts]
  exact h

/-- Taking something up or passing it over, between two tasks. -/
theorem Paced.turn (h : Paced f s []) (hfacts : s'.facts = s.facts) (hvisits : s'.visits = s.visits)
    (hblocks : ∀ b, b ∈ s'.blocks.pending → b ∈ s.blocks.pending)
    (hactive : ∀ id ∈ todo, State.isActive f s.visits id = true) : Paced f s' todo where
  active := hvisits ▸ hactive
  walk := hvisits ▸ h.walk
  waiting hb := hvisits ▸ h.waiting (hblocks _ hb)
  known := .inl fun hi hreached =>
    (h.known_nil hi (hvisits ▸ hreached)).imp_right fun hknows => hknows.of_facts hfacts

theorem Fact.lift₂_ne_unknown (g : Int64 → Int64 → Int64) {a b : Fact} (ha : a ≠ .unknown)
    (hb : b ≠ .unknown) : a.lift₂ g b ≠ .unknown := by
  cases a <;> cases b <;> simp_all [Fact.lift₂]

section Strides
variable (hp : f.Placed) (hwf : f.WellFormed) (hstrict : f.Strict)
  (hpreds : ∀ {a b : BlockId}, b < f.blockCount → b ∈ f.succs a → a ∈ f.preds b)
  (hentry : ∀ i ∈ f.blockInstrs Func.entry, i.op.isPhi = false)

include hp hstrict hpreds hentry in
/-- The first visit to an instruction yields a fact that says something. -/
theorem Paced.yield_known (h : Paced f s (i.id :: todo)) (hi : f.instr? i.id = some i)
    (hy : evaluate s.facts s.visits i = .ok y) (hopening : Opening f s b (i.id :: todo)) :
    y.fact ≠ .unknown := by
  have hknown : i.op.isPhi = false → ∀ o ∈ i.op.operands, ∀ v, s.facts.resolve o = .ok v →
      v ≠ .unknown := fun hphi o ho v hv => h.operand_known hp hstrict hi hphi ho hv
  have hlift : ∀ {g : Int64 → Int64 → Int64} {left right : Operand}, i.op.isPhi = false →
      i.op.operands = [left, right] → (∃ a b, s.facts.resolve left = .ok a ∧
        s.facts.resolve right = .ok b ∧ y = ⟨a.lift₂ g b, []⟩) → y.fact ≠ .unknown := by
    rintro g left right hphi hops ⟨a, b, ha, hb, rfl⟩
    exact Fact.lift₂_ne_unknown g (hknown hphi left (by simp [hops]) a ha)
      (hknown hphi right (by simp [hops]) b hb)
  have hphis := h.entry_known hp hstrict hpreds hentry hi
  have hyield := evaluate_ok hy
  generalize i.op = op at hknown hlift hphis hyield
  cases op with
  | jump target =>
    obtain rfl := hyield
    exact Fact.noConfusion
  | ret value =>
    obtain rfl := hyield
    exact Fact.noConfusion
  | uninterpreted name args =>
    obtain rfl := hyield
    exact Fact.noConfusion
  | branch cond onTrue onFalse => exact hknown rfl cond List.mem_cons_self _ hyield.1
  | compare p left right => exact hlift rfl rfl hyield
  | add left right => exact hlift rfl rfl hyield
  | sub left right => exact hlift rfl rfl hyield
  | phi inputs =>
    obtain ⟨p, hpmem, hcounts, v, hv, hne⟩ := hphis rfl hopening
    exact Fact.ne_unknown_of_le (le_evalPhi_of_mem hyield.1 hpmem hcounts hv) hne

include hp hwf hstrict hpreds hentry in
theorem Paced.visit (h : Paced f s (i.id :: todo)) (ht : s.Tidy f) (hv : State.Visited f s i y s') :
    Paced f s' todo := by
  have hreached := h.reached_next hv.live
  constructor
  case active =>
    intro id hid
    rw [hv.visits]
    exact h.active id (List.mem_cons_of_mem _ hid)
  case walk =>
    rw [hv.visits]
    exact h.walk
  case waiting =>
    intro b hb
    rw [hv.visits]
    rcases (hv.blocks b).mp hb with hb | htarget
    · exact h.waiting hb
    · have hsucc := mem_successors_of_mem_targets hv.yields htarget
      refine .inr ⟨i.block, hreached, ?_⟩
      rw [hwf.succs_eq hp hv.live (Op.isTerminator_of_mem_successors hsucc)]
      exact hsucc
  case known =>
    rcases h.known with hknown | ⟨b, hopening, hknown⟩
    · left
      intro id j hj hjreached
      rw [hv.visits] at hjreached
      exact .inr (hv.knows ((hknown hj hjreached).resolve_left List.not_mem_nil))
    · right
      refine ⟨b, ⟨?_, hv.visits ▸ hopening.way⟩, fun {id j} hj hjreached => ?_⟩
      · obtain ⟨blk, before, hblk, hlist⟩ := hopening.rest
        exact ⟨blk, before ++ [i.id], hblk, by rw [hlist, List.append_assoc]; rfl⟩
      · rw [hv.visits] at hjreached
        rcases hknown hj hjreached with hmem | hknows
        · rcases List.mem_cons.mp hmem with rfl | hmem
          · obtain ⟨v, hfact⟩ := ht.fact hj
            refine .inr ⟨v.join y.fact, ?_, ?_⟩
            · rw [hv.fact, if_pos rfl, hfact, Option.map_some]
            · exact Fact.ne_unknown_of_le (Fact.le_join_right _ _)
                (h.yield_known hp hstrict hpreds hentry hv.live hv.yields hopening)
          · exact .inl hmem
        · exact .inr (hv.knows hknows)

include hp in
theorem Paced.enter (h : Paced f s []) {blk : Block} (hb : b ∈ s.blocks.pending)
    (hblk : f.block? b = some blk) (hfacts : s'.facts = s.facts)
    (hvisits : ∀ a, s'.visits.reached a = true ↔ a = b ∨ s.visits.reached a = true)
    (hblocks : ∀ c, c ∈ s'.blocks.pending ↔ c ∈ s.blocks.pending ∧ c ≠ b) :
    Paced f s' blk.instrs := by
  have hmono : ∀ {a}, s.visits.reached a = true → s'.visits.reached a = true :=
    fun ha => (hvisits _).mpr (.inr ha)
  constructor
  case active =>
    intro id hid
    obtain ⟨i, hi, rfl⟩ := (hp.mem hblk id).mp hid
    exact State.isActive_iff.mpr ⟨i, hi, (hvisits _).mpr (.inl rfl)⟩
  case walk =>
    intro a ha
    rcases (hvisits a).mp ha with rfl | ha
    · rcases h.waiting hb with rfl | ⟨c, hc, hedge⟩
      · exact ⟨[], .entry, fun c hc => (List.mem_singleton.mp hc) ▸ ha⟩
      · obtain ⟨way, hwalk, hreached⟩ := h.walk hc
        refine ⟨c :: way, .edge hwalk hedge, fun x hx => ?_⟩
        rcases List.mem_cons.mp hx with rfl | hx
        · exact ha
        · exact hmono (hreached x hx)
    · obtain ⟨way, hwalk, hreached⟩ := h.walk ha
      exact ⟨way, hwalk, fun c hc => hmono (hreached c hc)⟩
  case waiting =>
    intro c hc
    rcases h.waiting ((hblocks c).mp hc).1 with rfl | ⟨a, ha, hedge⟩
    · exact .inl rfl
    · exact .inr ⟨a, hmono ha, hedge⟩
  case known =>
    by_cases hold : s.visits.reached b = true
    · left
      intro id i hi hreached
      have hreached : s.visits.reached i.block = true :=
        ((hvisits _).mp hreached).elim (fun heq => heq ▸ hold) (fun ha => ha)
      exact .inr (((h.known_nil hi hreached).resolve_left List.not_mem_nil).of_facts hfacts)
    · -- the whole block is left, and the way to it came over blocks reached before
      right
      refine ⟨b, ⟨⟨blk, [], hblk, rfl⟩, ?_⟩, fun {id i} hi hreached => ?_⟩
      · refine (h.waiting hb).imp_right fun ⟨a, ha, hedge⟩ => ?_
        obtain ⟨way, hwalk, hway⟩ := h.walk ha
        exact ⟨a, way, hwalk, fun hmem => hold (hway b hmem), fun c hc => hmono (hway c hc), hedge⟩
      · rcases (hvisits _).mp hreached with rfl | hreached
        · exact .inl ((hp.mem hblk id).mpr ⟨i, hi, rfl⟩)
        · exact .inr (((h.known_nil hi hreached).resolve_left List.not_mem_nil).of_facts hfacts)

include hp hwf hstrict hpreds hentry in
theorem paced_kept : Kept f (Paced f) := by
  intro s s' todo todo' ht h hstride
  cases hstride with
  | visit hv => exact h.visit hp hwf hstrict hpreds hentry ht hv
  | enter hb hblk hfacts hvisits hblocks hinstrs =>
    exact h.enter hp hb hblk hfacts (Visits.enter_cases hvisits).2.2 hblocks
  | take hwaiting hfacts hvisits hblocks hinstrs =>
    refine h.turn hfacts hvisits (fun b hb => hblocks ▸ hb) fun id hid => ?_
    rw [List.mem_singleton.mp hid]
    exact ht.active _ hwaiting
  | pass hb hclosed hfacts hvisits hblocks hinstrs =>
    exact h.turn hfacts hvisits (fun c hc => ((hblocks c).mp hc).1) fun _ hid => nomatch hid

end Strides

end ConstFlow
