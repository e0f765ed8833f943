import ConstFlow.Flow.Solve
import ConstFlow.Proofs.Transfer

/-!
# The steps of a run

A run of the analysis is cut into strides, each of which reads and writes the state in one of four
ways: a waiting block is passed over, a waiting block is entered, a waiting instruction is taken up,
or the next instruction is visited. `Stride` says what each of them may change, in terms of facts,
visits and of what waits, without the queues and sets behind them.

* `Worklist.Faithful` : what waits, waits once, and the set of a work list holds just that;
* `State.Tidy` : the two lists are faithful and hold blocks and active instructions of the function;
* `State.Tidy.visit` : a visit to an instruction is a stride;
* `perform_eq` : a task is prepared, then its instructions are visited;
* `State.Tidy.prepare` : preparing a waiting task never fails, and is a stride.

A `Stride` may take any block or instruction that waits, so nothing here depends on the order of the
queues.
-/

namespace ConstFlow

/-! ## Work lists -/

namespace Worklist

/-- Numbers below `n` wait, each once, and the set holds just those that wait. -/
structure Faithful (w : Worklist) (n : Nat) : Prop where
  capacity : w.queued.capacity = n
  sized : w.queued.Sized
  nodup : w.pending.Nodup
  mem : ∀ i, w.queued.contains i = true ↔ i ∈ w.pending

theorem faithful_empty (n : Nat) : (empty n).Faithful n where
  capacity := rfl
  sized := BitSet.sized_empty n
  nodup := List.nodup_nil
  mem i := by simp [empty]

variable {w w' : Worklist} {n i : Nat}

theorem Faithful.lt (h : w.Faithful n) (hi : i ∈ w.pending) : i < n :=
  h.capacity ▸ BitSet.lt_capacity_of_contains ((h.mem i).mpr hi)

/-- A number in range can be made to wait. -/
theorem Faithful.push (h : w.Faithful n) (hi : i < n) : ∃ w', w.push i = .ok w' ∧ w'.Faithful n ∧
    ∀ j, j ∈ w'.pending ↔ j ∈ w.pending ∨ j = i := by
  have hlt : i < w.queued.capacity := h.capacity ▸ hi
  have hmem : ∀ j, j ∈ (if (!w.queued.contains i) = true then w.pending ++ [i] else w.pending) ↔
      j ∈ w.pending ∨ j = i := by
    intro j
    split
    · simp
    · next hc =>
      have hi : i ∈ w.pending := (h.mem i).mp (by simpa using hc)
      refine ⟨.inl, ?_⟩
      rintro (hj | rfl)
      · exact hj
      · exact hi
  refine ⟨_, by rw [Worklist.push, BitSet.insert, if_pos hlt],
    ⟨?_, h.sized.mark i, ?_, fun j => ?_⟩, hmem⟩
  · rw [← h.capacity, BitSet.capacity_mark]
  · show (if _ then _ else _ : List Nat).Nodup
    split
    · next hc =>
      have hi : i ∉ w.pending := fun hi => by simp [(h.mem i).mpr hi] at hc
      refine List.nodup_append.mpr ⟨h.nodup, List.nodup_singleton i, ?_⟩
      rintro a ha b hb rfl
      exact hi (List.mem_singleton.mp hb ▸ ha)
    · exact h.nodup
  · rw [hmem, BitSet.contains_mark h.sized hlt, Bool.or_eq_true, decide_eq_true_eq, h.mem,
      or_comm]

/-- The list without a number that waits in it. -/
def without (w : Worklist) (i : Nat) : Worklist :=
  ⟨w.pending.erase i, w.queued.unmark i⟩

theorem Faithful.without (h : w.Faithful n) (i : Nat) : (w.without i).Faithful n ∧
    ∀ j, j ∈ (w.without i).pending ↔ j ∈ w.pending ∧ j ≠ i := by
  have hmem : ∀ j, j ∈ w.pending.erase i ↔ j ∈ w.pending ∧ j ≠ i := by
    intro j
    rw [h.nodup.mem_erase_iff, and_comm]
  refine ⟨⟨?_, h.sized.unmark i, h.nodup.erase i, fun j => ?_⟩, hmem⟩
  · rw [← h.capacity]
    exact BitSet.capacity_unmark w.queued i
  · show (w.queued.unmark i).contains j = true ↔ j ∈ w.pending.erase i
    rw [hmem, BitSet.contains_unmark, Bool.and_eq_true, Bool.not_eq_true',
      decide_eq_false_iff_not, h.mem, and_comm]

/-- Taking the first number never fails, and takes a number out that waits. -/
theorem Faithful.pop (h : w.Faithful n) : w.pop? = .ok none ∧ w.pending = [] ∨
    ∃ i, w.pop? = .ok (some (i, w.without i)) ∧ i ∈ w.pending := by
  cases hpending : w.pending with
  | nil => exact .inl ⟨by rw [pop?, hpending], rfl⟩
  | cons i rest =>
    have hi : i ∈ w.pending := hpending ▸ List.mem_cons_self
    have hlt : i < w.queued.capacity := h.capacity ▸ h.lt hi
    refine .inr ⟨i, ?_, List.mem_cons_self⟩
    simp only [pop?, Worklist.without, hpending, BitSet.erase, if_pos hlt, List.erase_cons_head]

end Worklist

/-! ## Making things wait -/

namespace State
variable {f : Func} {s s' : State}

theorem enqueueBlock_ok {b : BlockId} (hs : s.blocks.Faithful f.blockCount)
    (hb : b < f.blockCount) :
    ∃ w, enqueueBlock f s b = .ok { s with blocks := w } ∧ w.Faithful f.blockCount ∧
      ∀ c, c ∈ w.pending ↔ c ∈ s.blocks.pending ∨ c = b := by
  obtain ⟨w, hw, hfaith, hmem⟩ := hs.push hb
  exact ⟨w, by rw [enqueueBlock, if_pos hb, hw], hfaith, hmem⟩

/-- Only blocks of the function can be made to wait. -/
theorem lt_of_foldlM_enqueueBlock (bs : List BlockId) :
    ∀ {s s' : State}, bs.foldlM (enqueueBlock f) s = .ok s' → ∀ b ∈ bs, b < f.blockCount := by
  induction bs with
  | nil => exact fun _ _ hb => absurd hb List.not_mem_nil
  | cons b bs ih =>
    intro s s' h
    rw [List.foldlM_cons] at h
    by_cases hlt : b < f.blockCount
    · cases hb : enqueueBlock f s b with
      | error e => simp [hb, bind, Except.bind] at h
      | ok t =>
        rw [hb] at h
        exact List.forall_mem_cons.mpr ⟨hlt, ih h⟩
    · rw [enqueueBlock, if_neg hlt] at h
      cases h

/-- Making blocks wait changes only which blocks wait. -/
theorem foldlM_enqueueBlock (bs : List BlockId) (hbs : ∀ b ∈ bs, b < f.blockCount) :
    ∀ {s : State}, s.blocks.Faithful f.blockCount →
      ∃ w, bs.foldlM (enqueueBlock f) s = .ok { s with blocks := w } ∧ w.Faithful f.blockCount ∧
        ∀ b, b ∈ w.pending ↔ b ∈ s.blocks.pending ∨ b ∈ bs := by
  induction bs with
  | nil => exact fun {s} hs => ⟨s.blocks, rfl, hs, by simp⟩
  | cons b bs ih =>
    intro s hs
    obtain ⟨hb, hbs⟩ := List.forall_mem_cons.mp hbs
    obtain ⟨w, hw, hfaith, hmem⟩ := enqueueBlock_ok hs hb
    obtain ⟨w', hw', hfaith', hmem'⟩ := ih hbs (s := { s with blocks := w }) hfaith
    refine ⟨w', by rw [List.foldlM_cons, hw]; exact hw', hfaith', fun c => ?_⟩
    rw [hmem', hmem, List.mem_cons, or_assoc]

theorem enqueueInstr_ok (hs : s.instrs.Faithful f.slotCount) (id : InstrId) :
    ∃ w, s.enqueueInstr id = .ok { s with instrs := w } ∧ w.Faithful f.slotCount ∧
      ∀ j, j ∈ w.pending ↔ j ∈ s.instrs.pending ∨ j = id ∧ id < f.slotCount := by
  unfold enqueueInstr
  rw [hs.capacity]
  by_cases hlt : id < f.slotCount
  · obtain ⟨w, hw, hfaith, hmem⟩ := hs.push hlt
    refine ⟨w, by rw [if_pos hlt, hw], hfaith, fun j => ?_⟩
    rw [hmem, and_iff_left hlt]
  · exact ⟨s.instrs, if_neg hlt, hs, fun j => by simp [hlt]⟩

theorem lt_slotCount_of_isActive {x : Visits} {id : InstrId} (h : isActive f x id = true) :
    id < f.slotCount := by
  unfold isActive at h
  split at h
  · next i hi => exact Func.lt_slotCount hi
  · cases h

theorem isActive_iff {x : Visits} {id : InstrId} :
    isActive f x id = true ↔ ∃ i, f.instr? id = some i ∧ x.reached i.block = true := by
  unfold isActive
  cases f.instr? id with
  | none => simp
  | some i => simp

/-- Making instructions wait, by a step that keeps out those that `keep` refuses, never fails and
changes only which instructions wait. -/
theorem foldlM_enqueue {step : State → InstrId → Except Error State}
    (keep : Visits → InstrId → Prop)
    (hstep : ∀ {s : State}, s.instrs.Faithful f.slotCount → ∀ id,
      ∃ w, step s id = .ok { s with instrs := w } ∧ w.Faithful f.slotCount ∧
        ∀ j, j ∈ w.pending ↔ j ∈ s.instrs.pending ∨ j = id ∧ keep s.visits id)
    (ids : List InstrId) : ∀ {s : State}, s.instrs.Faithful f.slotCount →
      ∃ w, ids.foldlM step s = .ok { s with instrs := w } ∧ w.Faithful f.slotCount ∧
        ∀ j, j ∈ w.pending ↔ j ∈ s.instrs.pending ∨ j ∈ ids ∧ keep s.visits j := by
  induction ids with
  | nil => exact fun {s} hs => ⟨s.instrs, rfl, hs, by simp⟩
  | cons id ids ih =>
    intro s hs
    obtain ⟨w, hw, hfaith, hmem⟩ := hstep hs id
    obtain ⟨w', hw', hfaith', hmem'⟩ := ih (s := { s with instrs := w }) hfaith
    refine ⟨w', by rw [List.foldlM_cons, hw]; exact hw', hfaith', fun j => ?_⟩
    rw [hmem', hmem, List.mem_cons]
    constructor
    · rintro ((hj | ⟨rfl, hk⟩) | ⟨hj, hk⟩)
      · exact .inl hj
      · exact .inr ⟨.inl rfl, hk⟩
      · exact .inr ⟨.inr hj, hk⟩
    · rintro (hj | ⟨rfl | hj, hk⟩)
      · exact .inl (.inl hj)
      · exact .inl (.inr ⟨rfl, hk⟩)
      · exact .inr ⟨hj, hk⟩

theorem enqueueUser_ok (hs : s.instrs.Faithful f.slotCount) (id : InstrId) :
    ∃ w, enqueueUser f s id = .ok { s with instrs := w } ∧ w.Faithful f.slotCount ∧
      ∀ j, j ∈ w.pending ↔ j ∈ s.instrs.pending ∨ j = id ∧ isActive f s.visits id = true := by
  unfold enqueueUser
  split
  · next hact =>
    obtain ⟨w, hw, hfaith, hmem⟩ := enqueueInstr_ok hs id
    refine ⟨w, hw, hfaith, fun j => ?_⟩
    rw [hmem, and_iff_left (lt_slotCount_of_isActive hact), and_iff_left hact]
  · next hact => exact ⟨s.instrs, rfl, hs, fun j => by simp [hact]⟩

/-! ## Tidy states -/

/-- There is a fact for every live instruction and a tally for every block, the lists are faithful,
and the instructions that wait are active. -/
structure Tidy (f : Func) (s : State) : Prop where
  live : ∀ id, (s.facts.get? id).isSome = (f.instr? id).isSome
  size : s.visits.size = f.blockCount
  blocks : s.blocks.Faithful f.blockCount
  instrs : s.instrs.Faithful f.slotCount
  active : ∀ id ∈ s.instrs.pending, isActive f s.visits id = true

theorem Tidy.fact {id : InstrId} {i : Instr} (h : s.Tidy f) (hi : f.instr? id = some i) :
    ∃ v, s.facts.get? id = some v := by
  have := h.live id
  rw [hi, Option.isSome_some, Option.isSome_iff_exists] at this
  exact this

/-- What a visit to the instruction `i`, which yields `y`, changes: its own fact, the blocks that
wait, and if the fact rose the instructions that wait. -/
structure Visited (f : Func) (s : State) (i : Instr) (y : Yield) (s' : State) : Prop where
  live : f.instr? i.id = some i
  yields : evaluate s.facts s.visits i = .ok y
  visits : s'.visits = s.visits
  fact : ∀ j, s'.facts.get? j =
    if j = i.id then (s.facts.get? j).map (·.join y.fact) else s.facts.get? j
  blocks : ∀ b, b ∈ s'.blocks.pending ↔ b ∈ s.blocks.pending ∨ b ∈ y.targets
  instrs : ∀ j, j ∈ s'.instrs.pending ↔ j ∈ s.instrs.pending ∨
    (s'.facts.get? i.id ≠ s.facts.get? i.id ∧ j ∈ f.usersOf i.id ∧ isActive f s.visits j = true)

theorem Tidy.visit {id : InstrId} (hp : f.Placed) (h : s.Tidy f) (hv : s.visit f id = .ok s') :
    s'.Tidy f ∧ ∃ i y, i.id = id ∧ Visited f s i y s' := by
  obtain ⟨i, y, s₁, hi, hy, hs₁, hcases⟩ := visit_cases hv
  have hi : f.instr? id = some i := Func.instr_eq_ok.mp hi
  obtain rfl : i.id = id := hp.slot hi
  obtain ⟨w, hqueued, hw, hwmem⟩ :=
    foldlM_enqueueBlock y.targets (lt_of_foldlM_enqueueBlock _ hs₁) h.blocks
  obtain rfl := Except.ok.inj (hqueued.symm.trans hs₁)
  rcases hcases with ⟨m, hup, rfl⟩ | ⟨v, m, hup, hfold⟩
  · -- the fact did not rise, so the map is the one before
    obtain ⟨old, hold, hle, -⟩ := FactMap.update_cases hup
    have hsame : old.join y.fact = old := Fact.join_eq_left.mpr (hle.mp rfl)
    refine ⟨{ h with blocks := hw }, i, y, rfl, hi, hy, rfl, fun j => ?_, hwmem, by simp⟩
    split
    · next hj =>
      rw [hj]
      show s.facts.get? i.id = _
      rw [show s.facts.get? i.id = some old from hold, Option.map_some, hsame]
    · rfl
  · obtain ⟨old, hold, hle, hget⟩ := FactMap.update_cases hup
    have hne : old.join y.fact ≠ old := fun heq => by simpa using hle.mpr (Fact.join_eq_left.mp heq)
    have hraised : (({ s with blocks := w } : State).raise i.id v m).instrs.Faithful f.slotCount :=
      h.instrs
    obtain ⟨w', hqueued', hw', hmem'⟩ :=
      foldlM_enqueue (fun x j => isActive f x j = true) enqueueUser_ok (f.usersOf i.id) hraised
    obtain rfl := Except.ok.inj (hqueued'.symm.trans hfold)
    have hold : s.facts.get? i.id = some old := hold
    have hfact : ∀ j, m.get? j =
        if j = i.id then (s.facts.get? j).map (·.join y.fact) else s.facts.get? j := by
      intro j
      rw [hget]
      by_cases hj : j = i.id
      · rw [if_pos hj, if_pos hj, hj, hold]
        rfl
      · rw [if_neg hj, if_neg hj]
    refine ⟨⟨fun j => ?_, h.size, hw, hw', fun j hj => ?_⟩, i, y, rfl, hi, hy, rfl, hfact, hwmem,
      ?_⟩
    · show (m.get? j).isSome = _
      rw [hfact, ← h.live]
      split <;> simp
    · rcases (hmem' j).mp hj with hj | hj
      · exact h.active j hj
      · exact hj.2
    · intro j
      rw [hmem' j]
      show _ ∨ _ ↔ _ ∨ (m.get? i.id ≠ _ ∧ _)
      have hchanged : m.get? i.id ≠ s.facts.get? i.id := by
        rw [hfact, if_pos rfl, hold]
        simpa using hne
      exact or_congr_right ⟨fun hj => ⟨hchanged, hj⟩, fun hj => hj.2⟩

end State

/-! ## Strides -/

/-- One stride of a run. The list holds the instructions that were taken up, alone or with the block
in progress, and are still to be visited. -/
inductive Stride (f : Func) : State → List InstrId → State → List InstrId → Prop
  /-- A block that may not be visited again is passed over. -/
  | pass {s s' : State} {b : BlockId} (waiting : b ∈ s.blocks.pending)
      (closed : ¬ s.visits.isOpen b = true) (facts : s'.facts = s.facts)
      (visits : s'.visits = s.visits)
      (blocks : ∀ c, c ∈ s'.blocks.pending ↔ c ∈ s.blocks.pending ∧ c ≠ b)
      (instrs : s'.instrs = s.instrs) : Stride f s [] s' []
  /-- A block is entered, and at the first time the phis that it feeds are made to wait. -/
  | enter {s s' : State} {b : BlockId} {blk : Block} {n : Nat} (waiting : b ∈ s.blocks.pending)
      (block : f.block? b = some blk) (facts : s'.facts = s.facts)
      (visits : s.visits.enter b = .ok (n, s'.visits))
      (blocks : ∀ c, c ∈ s'.blocks.pending ↔ c ∈ s.blocks.pending ∧ c ≠ b)
      (instrs : ∀ j, j ∈ s'.instrs.pending ↔ j ∈ s.instrs.pending ∨
        ¬ s.visits.reached b = true ∧ j ∈ phisFedBy f s'.visits b) :
      Stride f s [] s' blk.instrs
  /-- A waiting instruction is taken up. -/
  | take {s s' : State} {id : InstrId} (waiting : id ∈ s.instrs.pending)
      (facts : s'.facts = s.facts) (visits : s'.visits = s.visits) (blocks : s'.blocks = s.blocks)
      (instrs : ∀ j, j ∈ s'.instrs.pending ↔ j ∈ s.instrs.pending ∧ j ≠ id) : Stride f s [] s' [id]
  /-- The next instruction is visited. -/
  | visit {s s' : State} {todo : List InstrId} {i : Instr} {y : Yield}
      (visited : State.Visited f s i y s') : Stride f s (i.id :: todo) s' todo

/-! ## Taking up a task -/

section Tasks
variable {f : Func} {s s₁ s' : State} {t : Task}

theorem mem_phisFedBy (hp : f.Placed) {x : Visits} {b : BlockId} {j : InstrId} :
    j ∈ phisFedBy f x b ↔ ∃ i, f.instr? j = some i ∧ i.block ∈ f.succs b ∧ i.block ≠ b ∧
      x.reached i.block = true ∧ ∃ p ∈ i.op.phiInputs, p.pred = b := by
  unfold phisFedBy
  simp only [List.mem_flatMap, List.mem_filter, List.mem_range, Bool.and_eq_true, decide_eq_true_eq,
    bne_iff_ne, List.mem_map, hp.mem_blockInstrs, List.any_eq_true, beq_iff_eq]
  constructor
  · rintro ⟨a, ⟨-, ⟨hsucc, hne⟩, hreach⟩, i, ⟨⟨hi, rfl⟩, hphi⟩, rfl⟩
    exact ⟨i, hi, hsucc, hne, hreach, hphi⟩
  · rintro ⟨i, hi, hsucc, hne, hreach, hphi⟩
    have hid := hp.slot hi
    exact ⟨i.block, ⟨hp.owner hi, ⟨hsucc, hne⟩, hreach⟩, i, ⟨⟨hid ▸ hi, rfl⟩, hphi⟩, hid⟩

/-- Takes a waiting task off its list, whatever its place there. -/
def State.take? (s : State) : Task → Option State
  | .block b =>
    if b ∈ s.blocks.pending then some { s with blocks := s.blocks.without b, turn := .blocks }
    else none
  | .instr id =>
    if id ∈ s.instrs.pending then some { s with instrs := s.instrs.without id, turn := .instrs }
    else none

/-- The task that is due waits, and one is due unless nothing waits. -/
theorem State.Tidy.next? (ht : s.Tidy f) :
    s.next? = .ok none ∧ s.blocks.pending = [] ∧ s.instrs.pending = [] ∨
      ∃ t s₁, s.next? = .ok (some (t, s₁)) ∧ s.take? t = some s₁ := by
  unfold State.next? State.popBlock? State.popInstr?
  rcases ht.blocks.pop with ⟨hb, hnoBlock⟩ | ⟨b, hb, hblock⟩ <;>
    rcases ht.instrs.pop with ⟨hi, hnoInstr⟩ | ⟨id, hi, hinstr⟩ <;> rw [hb, hi]
  · exact .inl ⟨by cases s.turn <;> rfl, hnoBlock, hnoInstr⟩
  · exact .inr ⟨.instr id, _, by cases s.turn <;> rfl, if_pos hinstr⟩
  · exact .inr ⟨.block b, _, by cases s.turn <;> rfl, if_pos hblock⟩
  · cases s.turn with
    | blocks => exact .inr ⟨.block b, _, rfl, if_pos hblock⟩
    | instrs => exact .inr ⟨.instr id, _, rfl, if_pos hinstr⟩

theorem State.Tidy.take?_of_next? (ht : s.Tidy f) (h : s.next? = .ok (some (t, s₁))) :
    s.take? t = some s₁ := by
  rcases ht.next? with ⟨hnone, -⟩ | ⟨t', s', hsome, htake⟩
  · cases h.symm.trans hnone
  · cases h.symm.trans hsome
    exact htake

/-- What is done in a block that was entered before its first instruction is visited. -/
def openBlock (f : Func) (b : BlockId) (first : Bool) : Run (List InstrId) := fun s =>
  match (if first then phisFedBy f s.visits b else []).foldlM State.enqueueInstr s with
  | .error e => .error e s
  | .ok s' =>
    match f.block b with
    | .error e => .error e s'
    | .ok blk => .ok blk.instrs s'

/-- Opening a block makes at most the phis wait that it feeds, and changes nothing else. -/
theorem growsInstrs_openBlock {b : BlockId} {first : Bool} {todo : List InstrId}
    (h : openBlock f b first s = .ok todo s') :
    s.GrowsInstrs s' (if first then phisFedBy f s.visits b else []).length := by
  unfold openBlock at h
  split at h
  · cases h
  · next t ht =>
    split at h
    · cases h
    · cases h
      exact State.growsInstrs_foldlM State.growsInstrs_enqueue _ ht

/-- What a task does before the first instruction is visited; it gives the instructions to visit. -/
def prepare (f : Func) : Task → Run (List InstrId)
  | .block b, s =>
    if s.visits.isOpen b then
      match s.visits.enter b with
      | .error e => .error e s
      | .ok (count, x) => openBlock f b (!s.visits.reached b) (s.enterBlock b count x)
    else .ok [] (s.note (.limitReached b))
  | .instr id, s => .ok [id] { s with instrVisits := s.instrVisits + 1 }

theorem visitBlock_eq (f : Func) (b : BlockId) (first : Bool) (s : State) :
    visitBlock f b first s =
      match openBlock f b first s with
      | .error e s' => .error e s'
      | .ok ids s' => visitAll f ids s' := by
  unfold visitBlock openBlock
  cases (if first then phisFedBy f s.visits b else []).foldlM State.enqueueInstr s with
  | error e => rfl
  | ok s' => cases f.block b <;> rfl

/-- A task is prepared, then its instructions are visited. -/
theorem perform_eq (f : Func) (t : Task) (s : State) :
    perform f t s =
      match prepare f t s with
      | .error e s' => .error e s'
      | .ok ids s' => visitAll f ids s' := by
  cases t with
  | instr id =>
    unfold perform prepare
    dsimp only
    unfold visitAll
    cases State.visit f { s with instrVisits := s.instrVisits + 1 } id <;> rfl
  | block b =>
    unfold perform prepare
    dsimp only
    split
    · cases s.visits.enter b with
      | error e => rfl
      | ok p => exact visitBlock_eq f b _ _
    · rfl

/-- A waiting block can be entered, in one stride. -/
theorem State.Tidy.enter (hp : f.Placed) (ht : s.Tidy f) {b : BlockId} (hb : b ∈ s.blocks.pending)
    {n : Nat} {x : Visits} (hx : s.visits.enter b = .ok (n, x)) :
    ∃ todo s', openBlock f b (!s.visits.reached b) (({ s with
        blocks := s.blocks.without b, turn := .blocks } : State).enterBlock b n x) = .ok todo s' ∧
      s'.Tidy f ∧ Stride f s [] s' todo := by
  obtain ⟨hfaith, hmem⟩ := ht.blocks.without b
  obtain ⟨-, hsize, hreach⟩ := Visits.enter_cases hx
  obtain ⟨blk, hblk⟩ := Func.exists_block (ht.blocks.lt hb)
  have hinstrs : (({ s with blocks := s.blocks.without b, turn := .blocks } : State).enterBlock b n
      x).instrs.Faithful f.slotCount := ht.instrs
  obtain ⟨w', hw', hfaith', hmem'⟩ := State.foldlM_enqueue (fun _ j => j < f.slotCount)
    State.enqueueInstr_ok (if (!s.visits.reached b) = true then phisFedBy f x b else []) hinstrs
  have hmem' : ∀ j, j ∈ w'.pending ↔ j ∈ s.instrs.pending ∨
      ¬ s.visits.reached b = true ∧ j ∈ phisFedBy f x b := by
    intro j
    rw [hmem' j]
    refine or_congr_right ?_
    by_cases hr : s.visits.reached b = true
    · simp [hr]
    · rw [if_pos (by simpa using hr)]
      refine ⟨fun hj => ⟨hr, hj.1⟩, fun hj => ⟨hj.2, ?_⟩⟩
      obtain ⟨i, hi, -⟩ := (mem_phisFedBy hp).mp hj.2
      exact Func.lt_slotCount hi
  have hopen : openBlock f b (!s.visits.reached b) (({ s with
      blocks := s.blocks.without b, turn := .blocks } : State).enterBlock b n x) =
        .ok blk.instrs { (({ s with
          blocks := s.blocks.without b, turn := .blocks } : State).enterBlock b n x) with
            instrs := w' } := by
    unfold openBlock
    rw [show (State.enterBlock _ b n x).visits = x from rfl, hw']
    simp only [Func.block_eq_ok.mpr hblk]
  refine ⟨_, _, hopen, ⟨ht.live, hsize.trans ht.size, hfaith, hfaith', fun j hj => ?_⟩,
    .enter hb hblk rfl hx hmem hmem'⟩
  rw [State.isActive_iff]
  rcases (hmem' j).mp hj with hj | ⟨-, hj⟩
  · obtain ⟨i, hi, hreached⟩ := State.isActive_iff.mp (ht.active j hj)
    exact ⟨i, hi, (hreach _).mpr (.inr hreached)⟩
  · obtain ⟨i, hi, -, -, hreached, -⟩ := (mem_phisFedBy hp).mp hj
    exact ⟨i, hi, hreached⟩

/-- The task that was taken up can be prepared, in one stride. -/
theorem State.Tidy.prepare (hp : f.Placed) (ht : s.Tidy f) (htake : s.take? t = some s₁) :
    ∃ todo s₂, ConstFlow.prepare f t s₁ = .ok todo s₂ ∧ s₂.Tidy f ∧ Stride f s [] s₂ todo := by
  unfold State.take? at htake
  cases t with
  | instr id =>
    rw [Option.ite_none_right_eq_some, Option.some.injEq] at htake
    obtain ⟨hid, rfl⟩ := htake
    obtain ⟨hfaith, hmem⟩ := ht.instrs.without id
    refine ⟨[id], _, rfl, ⟨ht.live, ht.size, ht.blocks, hfaith, fun j hj => ?_⟩,
      .take hid rfl rfl rfl hmem⟩
    exact ht.active j ((hmem j).mp hj).1
  | block b =>
    rw [Option.ite_none_right_eq_some, Option.some.injEq] at htake
    obtain ⟨hb, rfl⟩ := htake
    obtain ⟨hfaith, hmem⟩ := ht.blocks.without b
    unfold ConstFlow.prepare
    dsimp only
    split
    · obtain ⟨n, x, hx⟩ := Visits.exists_enter (ht.size ▸ ht.blocks.lt hb)
      rw [hx]
      exact ht.enter hp hb hx
    · next hclosed =>
      exact ⟨[], _, rfl, ⟨ht.live, ht.size, hfaith, ht.instrs, ht.active⟩,
        .pass hb hclosed rfl rfl hmem rfl⟩

end Tasks

end ConstFlow
