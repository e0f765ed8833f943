import ConstFlow.Proofs.Edits
import ConstFlow.Proofs.Failure
import Mathlib.Algebra.BigOperators.Ring.Finset
import Mathlib.Algebra.Order.BigOperators.Group.Finset

/-!
# What a run costs

The analysis comes to an end on every function that can be built and edited, well formed or not.
`Loop` is its loop turn by turn; a turn lowers `State.potential`, so there are at most as many turns
as the potential at the start (`Stage.loop`).

What a run counts is paid for by what it finds out (`Accounted`). A change is paid for by the rise
of a fact. A visit to a waiting instruction is paid for by the rise of a fact that it reads, or by
the first visit to a block that one of its phi entries names. A fact rises at most twice and a block
is reached once, which bounds the counts of every result (`solve_bounded`).
-/

namespace ConstFlow

/-- Changing one summand changes a sum by that summand. -/
theorem sum_range_change {F G : Nat → Nat} {b n : Nat} (hb : b < n)
    (h : ∀ a, a ≠ b → G a = F a) :
    (∑ a ∈ Finset.range n, G a) + F b = (∑ a ∈ Finset.range n, F a) + G b := by
  have hmem : b ∈ Finset.range n := Finset.mem_range.mpr hb
  have hrest : ∑ a ∈ (Finset.range n).erase b, G a = ∑ a ∈ (Finset.range n).erase b, F a :=
    Finset.sum_congr rfl fun a ha => h a (Finset.ne_of_mem_erase ha)
  rw [← Finset.add_sum_erase _ F hmem, ← Finset.add_sum_erase _ G hmem, hrest]
  omega

/-! ## The rise of facts -/

namespace FactMap
variable {m m' : FactMap} {id : InstrId} {n : Nat}

/-- How far the facts of the first `n` slots have risen, each weighed by `g`. -/
def risen (m : FactMap) (n : Nat) (g : InstrId → Nat) : Nat :=
  ∑ d ∈ Finset.range n, m.level d * g d

theorem risen_le (m : FactMap) (n : Nat) (g : InstrId → Nat) :
    m.risen n g ≤ 2 * ∑ d ∈ Finset.range n, g d := by
  rw [Finset.mul_sum]
  exact Finset.sum_le_sum fun d _ => Nat.mul_le_mul_right _ (Fact.height_le_two _)

/-- A fact that changes pays its weight at least once. -/
theorem risen_update {v w : Fact} (h : m.update id v = .ok (some w, m')) (hid : id < n)
    (g : InstrId → Nat) : m.risen n g + g id ≤ m'.risen n g := by
  obtain ⟨old, hold, hle, hget⟩ := update_cases h
  have hne : old.join v ≠ old := fun heq => by simpa using hle.mpr (Fact.join_eq_left.mp heq)
  have hlevel : m.level id < m'.level id := by
    rw [level, level, hget, if_pos rfl, hold]
    exact Fact.height_lt_join hne
  have hsum := sum_range_change (F := fun d => m.level d * g d) (G := fun d => m'.level d * g d)
    hid fun d hd => by rw [level, level, hget, if_neg hd]
  have hpaid : m.level id * g id + g id ≤ m'.level id * g id := by
    rw [← Nat.succ_mul]
    exact Nat.mul_le_mul_right _ hlevel
  simp only [risen]
  omega

end FactMap

/-! ## Entering blocks -/

namespace Visits
variable {x x' : Visits} {b : BlockId} {n : Nat}

/-- Entering a block counts one visit in its tally. -/
theorem tally?_enter (h : x.enter b = .ok (n, x')) : ∃ t, x.tally? b = some t ∧
    ∀ a, x'.tally? a = if a = b then some t.succ else x.tally? a := by
  unfold enter at h
  split at h
  · next t ht =>
    cases h
    refine ⟨t, ht, fun a => ?_⟩
    have hlt : b < x.tallies.size := (Array.getElem?_eq_some_iff.mp ht).1
    by_cases ha : a = b
    · subst ha
      rw [if_pos rfl, tally?, Array.getElem?_setIfInBounds_self_of_lt hlt]
    · rw [if_neg ha, tally?, tally?, Array.getElem?_setIfInBounds_ne (Ne.symm ha)]
  · cases h

/-- No block was visited more often than it has stored predecessors, a first visit apart. -/
def Limited (f : Func) (x : Visits) : Prop :=
  ∀ (b : BlockId) (t : Tally), x.tally? b = some t →
    t.edges = (f.preds b).length ∧ t.done ≤ max 1 t.edges

theorem limited_ofFunc (f : Func) : (ofFunc f).Limited f := by
  intro b t ht
  simp only [tally?, ofFunc, ofEdges, List.getElem?_toArray, List.getElem?_map,
    Array.getElem?_toList, Option.map_map, Option.map_eq_some_iff] at ht
  obtain ⟨blk, hblk, rfl⟩ := ht
  have hblk : f.block? b = some blk := hblk
  exact ⟨by simp [Func.preds, hblk], Nat.zero_le _⟩

theorem Limited.enter {f : Func} (hx : x.Limited f) (hopen : x.isOpen b = true)
    (h : x.enter b = .ok (n, x')) : x'.Limited f := by
  obtain ⟨t, ht, htally⟩ := tally?_enter h
  intro a u hu
  rw [htally] at hu
  split at hu
  · next ha =>
    cases hu
    obtain ⟨hedges, -⟩ := hx b t ht
    rw [isOpen, ht] at hopen
    simp only [Tally.isOpen, Bool.or_eq_true, beq_iff_eq, decide_eq_true_eq] at hopen
    refine ⟨ha ▸ hedges, ?_⟩
    simp only [Tally.succ]
    omega
  · exact hx a u hu

theorem Limited.done_le {f : Func} (hx : x.Limited f) (b : BlockId) :
    x.done b ≤ max 1 (f.preds b).length := by
  unfold done
  split
  · next t ht =>
    obtain ⟨hedges, hdone⟩ := hx b t ht
    exact hedges ▸ hdone
  · exact Nat.zero_le _

theorem sum_done_enter (h : x.enter b = .ok (n, x')) {k : Nat} (hb : b < k) :
    ∑ a ∈ Finset.range k, x'.done a = (∑ a ∈ Finset.range k, x.done a) + 1 := by
  obtain ⟨t, ht, htally⟩ := tally?_enter h
  have hdone : ∀ a, x'.done a = if a = b then x.done a + 1 else x.done a := by
    intro a
    unfold done
    rw [htally]
    by_cases ha : a = b
    · rw [if_pos ha, if_pos ha, ha, ht]
      rfl
    · rw [if_neg ha, if_neg ha]
  have hsum := sum_range_change (F := x.done) (G := x'.done) hb fun a ha => by
    rw [hdone, if_neg ha]
  rw [hdone b, if_pos rfl] at hsum
  omega

end Visits

/-! ## The phis that a block feeds -/

namespace Func

/-- The number of instructions with a phi entry for block `b`. -/
def fedBy (f : Func) (b : BlockId) : Nat :=
  f.instrs.countP fun i => i.op.phiInputs.any (·.pred == b)

/-- The number of phis that were made to wait when the reached blocks were first visited. -/
def fed (f : Func) (x : Visits) : Nat :=
  ∑ b ∈ Finset.range f.blockCount, if x.reached b then f.fedBy b else 0

variable {f : Func} {x x' : Visits} {b : BlockId}

theorem fed_mono (h : x.Within x') : f.fed x ≤ f.fed x' := by
  refine Finset.sum_le_sum fun b _ => ?_
  split
  · next hb => rw [if_pos (h b hb)]
  · exact Nat.zero_le _

theorem fed_enter (hb : b < f.blockCount) (hnew : ¬ x.reached b = true)
    (hreached : ∀ a, x'.reached a = true ↔ a = b ∨ x.reached a = true) :
    f.fed x + f.fedBy b ≤ f.fed x' := by
  have hsum := sum_range_change (F := fun a => if x.reached a then f.fedBy a else 0)
    (G := fun a => if x'.reached a then f.fedBy a else 0) hb fun a ha => by simp [hreached, ha]
  rw [if_neg hnew, if_pos ((hreached b).mpr (.inl rfl))] at hsum
  exact hsum.ge

/-- An instruction has entries for at most as many blocks as it has entries. -/
theorem card_preds_le (ps : List PhiInput) (n : Nat) :
    ∑ b ∈ Finset.range n, (if ps.any (·.pred == b) then 1 else 0) ≤ ps.length := by
  rw [Finset.sum_boole, Nat.cast_id]
  calc _ ≤ (ps.map (·.pred)).toFinset.card := Finset.card_le_card fun b hb => by
          obtain ⟨p, hp, hpred⟩ := List.any_eq_true.mp (Finset.mem_filter.mp hb).2
          exact List.mem_toFinset.mpr (List.mem_map.mpr ⟨p, hp, by simpa using hpred⟩)
    _ ≤ ps.length := (List.toFinset_card_le _).trans (List.length_map _).le

/-- Over all blocks, no more phis are fed than there are phi entries. -/
theorem fed_le (f : Func) (x : Visits) : f.fed x ≤ (f.instrs.map (·.op.phiInputs.length)).sum := by
  have hsum : ∀ is : List Instr, ∑ b ∈ Finset.range f.blockCount,
      is.countP (fun i => i.op.phiInputs.any (·.pred == b)) ≤
        (is.map (·.op.phiInputs.length)).sum := by
    intro is
    induction is with
    | nil => simp
    | cons i is ih =>
      simp only [List.countP_cons, Finset.sum_add_distrib, List.map_cons, List.sum_cons]
      have hi := card_preds_le i.op.phiInputs f.blockCount
      omega
  refine le_trans (Finset.sum_le_sum fun b _ => ?_) (hsum f.instrs)
  split
  · exact le_rfl
  · exact Nat.zero_le _

/-- The phis that a block feeds are live instructions with an entry for it, each once. -/
theorem Placed.length_phisFedBy_le (hp : f.Placed) (x : Visits) (b : BlockId) :
    (phisFedBy f x b).length ≤ f.fedBy b := by
  have hlisted : (phisFedBy f x b).Sublist (f.blocks.toList.flatMap (·.instrs)) := by
    rw [← f.flatMap_range_instrs]
    refine (List.filter_sublist.flatMap _).trans (List.Sublist.flatMap_right _ fun a _ => ?_)
    refine (List.filter_sublist.map _).trans ?_
    cases ha : f.block? a with
    | none => simp [blockInstrs, ha]
    | some blk =>
      rw [hp.ids_blockInstrs ha, show f.blocks[a]? = some blk from ha]
      exact List.Sublist.refl _
  have hsubset : phisFedBy f x b ⊆
      (f.instrs.filter fun i => i.op.phiInputs.any (·.pred == b)).map (·.id) := by
    intro j hj
    obtain ⟨i, hi, -, -, -, p, hphi, hpred⟩ := (mem_phisFedBy hp).mp hj
    refine List.mem_map.mpr ⟨i, List.mem_filter.mpr ⟨mem_instrs.mpr ⟨j, hi⟩, ?_⟩, hp.slot hi⟩
    exact List.any_eq_true.mpr ⟨p, hphi, by simpa using hpred⟩
  have hlength := ((hp.nodup_listed.sublist hlisted).subperm hsubset).length_le
  rwa [List.length_map, ← List.countP_eq_length_filter] at hlength

end Func

/-! ## Accounts -/

/-- The weight of a slot in the account of changes: only live ones have a fact. -/
def Func.isLive (f : Func) (id : InstrId) : Nat :=
  if (f.instr? id).isSome then 1 else 0

/-- What a run has counted is paid for by what it has found out. -/
structure Accounted (f : Func) (s : State) : Prop where
  visits : s.visits.Limited f
  blockVisits : s.blockVisits = ∑ b ∈ Finset.range f.blockCount, s.visits.done b
  changes : s.changes ≤ s.facts.risen f.slotCount f.isLive
  instrVisits : s.instrVisits + s.instrs.pending.length ≤
    s.facts.risen f.slotCount (fun d => (f.usersOf d).length) + f.fed s.visits

section Accounts
variable {due : State → Task → Prop} {f : Func} {s₀ s s₁ s' : State} {todo : List InstrId}

theorem accounted_start {history : Bool} (h : State.start f history = .ok s) : Accounted f s := by
  unfold State.start at h
  simp only [bind, Except.bind] at h
  split at h
  · cases h
  · next m hm =>
    split at h
    · cases h
    · obtain ⟨w, rfl, -⟩ := State.growsBlocks_enqueue h
      refine ⟨Visits.limited_ofFunc f, ?_, Nat.zero_le _, Nat.zero_le _⟩
      refine (Finset.sum_eq_zero fun b _ => ?_).symm
      have hb := Visits.not_reached_ofFunc f b
      simpa [Visits.reached] using hb

/-- A visit that raises a fact makes at most the users of the value wait. -/
theorem Accounted.visit {id : InstrId} (h : Accounted f s) (hv : s.visit f id = .ok s') :
    Accounted f s' := by
  obtain ⟨i, y, t, hi, -, ht, hcases⟩ := State.visit_cases hv
  have hi : f.instr? id = some i := Func.instr_eq_ok.mp hi
  obtain ⟨w, rfl, -⟩ := State.growsBlocks_foldlM _ ht
  rcases hcases with ⟨m, -, rfl⟩ | ⟨v, m, hup, hfold⟩
  · exact ⟨h.visits, h.blockVisits, h.changes, h.instrVisits⟩
  · obtain ⟨w', rfl, hw'⟩ := State.growsInstrs_foldlM State.growsInstrs_enqueueUser _ hfold
    have hlive : f.isLive id = 1 := by simp [Func.isLive, hi]
    have hchange := FactMap.risen_update hup (Func.lt_slotCount hi) f.isLive
    have husers := FactMap.risen_update hup (Func.lt_slotCount hi) fun d => (f.usersOf d).length
    have hchanges := h.changes
    have hinstrVisits := h.instrVisits
    simp only [State.raise] at hw' hchange husers ⊢
    exact ⟨h.visits, h.blockVisits, by simp only; omega, by simp only; omega⟩

/-- Entering a block makes no more phis wait than it feeds, and only at the first time. -/
theorem Accounted.enter (h : Accounted f s) (hp : f.Placed) (hsize : s.visits.size = f.blockCount)
    {b : BlockId} {n : Nat} {x : Visits} (hopen : s.visits.isOpen b = true)
    (hx : s.visits.enter b = .ok (n, x))
    (hs' : openBlock f b (!s.visits.reached b) (s.enterBlock b n x) = .ok todo s') :
    Accounted f s' := by
  obtain ⟨hb, -, hreached⟩ := Visits.enter_cases hx
  rw [hsize] at hb
  obtain ⟨w, rfl, hw⟩ := growsInstrs_openBlock hs'
  have hfed : w.pending.length + f.fed s.visits ≤ s.instrs.pending.length + f.fed x := by
    by_cases hnew : s.visits.reached b = true
    · have hmono : f.fed s.visits ≤ f.fed x :=
        Func.fed_mono fun a ha => (hreached a).mpr (.inr ha)
      rw [hnew] at hw
      simp only [State.enterBlock, Bool.not_true, Bool.false_eq_true, if_false,
        List.length_nil] at hw
      omega
    · have henter := Func.fed_enter hb hnew hreached
      have hlength := hp.length_phisFedBy_le x b
      rw [if_pos (by simpa using hnew)] at hw
      simp only [State.enterBlock] at hw
      omega
  have hcount := h.blockVisits
  have hinstrVisits := h.instrVisits
  refine ⟨h.visits.enter hopen hx, ?_, h.changes, ?_⟩
  · simp only [State.enterBlock, Visits.sum_done_enter hx hb, hcount]
  · simp only [State.enterBlock]
    omega

/-- A task that is taken up moves one count from what waits to what was done. -/
theorem Accounted.task (h : Accounted f s) (hp : f.Placed) (ht : s.Tidy f) {t : Task}
    (htake : s.take? t = some s₁) (hs' : prepare f t s₁ = .ok todo s') : Accounted f s' := by
  unfold State.take? at htake
  cases t with
  | instr id =>
    rw [Option.ite_none_right_eq_some, Option.some.injEq] at htake
    obtain ⟨hid, rfl⟩ := htake
    cases hs'
    have hlength := List.length_erase_add_one hid
    have hinstrVisits := h.instrVisits
    refine ⟨h.visits, h.blockVisits, h.changes, ?_⟩
    simp only [Worklist.without]
    omega
  | block b =>
    rw [Option.ite_none_right_eq_some, Option.some.injEq] at htake
    obtain ⟨-, rfl⟩ := htake
    have h₁ : Accounted f { s with blocks := s.blocks.without b, turn := .blocks } :=
      ⟨h.visits, h.blockVisits, h.changes, h.instrVisits⟩
    unfold prepare at hs'
    dsimp only at hs'
    split at hs'
    · next hopen =>
      split at hs'
      · cases hs'
      · next n x hx => exact h₁.enter hp ht.size hopen hx hs'
    · cases hs'
      exact ⟨h.visits, h.blockVisits, h.changes, h.instrVisits⟩

/-- The accounts balance at every stage of a run, whatever the order of its tasks. -/
theorem Stage.accounted (hp : f.Placed) (ht : s₀.Tidy f) (h₀ : Accounted f s₀)
    (h : Stage due f s₀ s todo) : Accounted f s := by
  induction h with
  | start => exact h₀
  | task before _ taken prepared ih => exact ih.task hp (before.tidy hp ht) taken prepared
  | visit _ visited ih => exact ih.visit visited

end Accounts

/-! ## The loop -/

/-- The loop of the analysis: from a state it comes to an end after some turns, with the last state
or with an error. A turn takes the task that is due and performs it. -/
inductive Loop (f : Func) : State → Nat → Except Error State → Prop
  | rest {s : State} (idle : s.next? = .ok none) : Loop f s 0 (.ok s)
  | fail {s s₁ s₂ : State} {t : Task} {e : Error} (due : s.next? = .ok (some (t, s₁)))
      (failed : perform f t s₁ = .error e s₂) : Loop f s 1 (.error e)
  | turn {s s₁ s₂ : State} {t : Task} {n : Nat} {out : Except Error State}
      (due : s.next? = .ok (some (t, s₁))) (performed : perform f t s₁ = .ok () s₂)
      (after : Loop f s₂ n out) : Loop f s (n + 1) out

/-- The last state of a run, or why it failed. -/
def outcome : EStateM.Result Error State Unit → Except Error State
  | .ok _ s => .ok s
  | .error e _ => .error e

section Loops
variable {f : Func} {s₀ s : State}

/-- From every stage of a run the loop comes to an end, within the potential that is left. -/
theorem Stage.loop (hp : f.Placed) (ht : s₀.Tidy f) (h : Stage State.Due f s₀ s []) :
    ∃ n ≤ s.potential f, Loop f s n (outcome (ConstFlow.runTasks f s)) := by
  induction s using runTasks.induct f with
  | case1 s e hn =>
    rcases (h.tidy hp ht).next? with ⟨hnone, -⟩ | ⟨t, s₁, hsome, -⟩
    · cases hn.symm.trans hnone
    · cases hn.symm.trans hsome
  | case2 s hn =>
    rw [runTasks_eq, hn]
    exact ⟨0, Nat.zero_le _, .rest hn⟩
  | case3 s t s₁ hn e s₂ hperform =>
    rw [runTasks_eq, hn]
    simp only [hperform]
    have hpotential := State.potential_next (f := f) hn
    refine ⟨1, ?_, .fail hn hperform⟩
    cases t <;> dsimp only at hpotential <;> omega
  | case4 s t s₁ hn u s₂ hperform ih =>
    rw [runTasks_eq, hn]
    simp only [hperform]
    rcases h.perform hp ht ⟨s₁, hn⟩ ((h.tidy hp ht).take?_of_next? hn) with
      ⟨s', hok, hstage⟩ | ⟨e, s', id, todo, herr, -⟩
    · cases hperform.symm.trans hok
      obtain ⟨n, hle, hloop⟩ := ih hstage
      have hlt := potential_perform_lt hn hperform
      exact ⟨n + 1, by omega, .turn hn hperform hloop⟩
    · cases hperform.symm.trans herr

theorem solve_eq_outcome {history : Bool} (h : State.start f history = .ok s) :
    f.solve history = (outcome (runTasks f s)).map (State.solution · f.name) := by
  unfold Func.solve Func.analyse
  rw [h]
  dsimp only
  cases runTasks f s with
  | ok u s' => rfl
  | error e s' => rfl

end Loops

/-! ## Bounds of a result -/

theorem Func.sum_isLive (f : Func) :
    ∑ d ∈ Finset.range f.slotCount, f.isLive d = f.instrs.length := by
  rw [Func.instrs_eq]
  induction f.slotCount with
  | zero => rfl
  | succ n ih =>
    rw [Finset.sum_range_succ, ih, List.range_succ, List.filterMap_append, List.length_append]
    unfold Func.isLive
    cases h : f.instr? n with
    | none => simp [h]
    | some i => simp [h]

theorem State.visitsTo_solution (s : State) (name : String) (b : BlockId) :
    (s.solution name).visitsTo b = s.visits.done b := by
  unfold Solution.visitsTo State.solution Visits.done Visits.counts Visits.tally?
  simp only [List.getElem?_toArray, List.getElem?_map, Array.getElem?_toList]
  cases s.visits.tallies[b]? with
  | none => rfl
  | some t => rfl

/-- The analysis ends on every function that was built and edited, valid or not: a function without
blocks is refused, and otherwise the loop comes to an end within the potential at the start, never
by a write beyond a capacity. In a result, no block was visited more often than it has stored
predecessors, a first visit apart; all visits to blocks were counted; facts changed at most twice
for every live instruction; and waiting instructions were visited at most twice for every entry of
the user index and once for every phi entry. -/
theorem solve_bounded (name : String) (script : List Stmt) (edits : List Edit) (history : Bool)
    (f : Func) (hf : f = (Func.ofScript name script).edited edits) :
    (f.blockCount = 0 ∧ f.solve history = .error .empty ∨
      ∃ s₀ n out, State.start f history = .ok s₀ ∧ Loop f s₀ n out ∧ n ≤ s₀.potential f ∧
        f.solve history = out.map (State.solution · f.name)) ∧
    (∀ cause, f.solve history ≠ .error (.outOfBounds cause)) ∧
    ∀ r, f.solve history = .ok r →
      (∀ b, r.visitsTo b ≤ max 1 (f.preds b).length) ∧
      r.blockVisits = ∑ b ∈ Finset.range f.blockCount, r.visitsTo b ∧
      r.changes ≤ 2 * f.instrs.length ∧
      r.instrVisits ≤ 2 * (∑ d ∈ Finset.range f.slotCount, (f.usersOf d).length) +
        (f.instrs.map (·.op.phiInputs.length)).sum := by
  have hp : f.Placed := hf ▸ (Func.consistent_edited name script edits).placed
  refine ⟨?_, solve_ne_outOfBounds hp history, fun r hr => ?_⟩
  · rcases Nat.eq_zero_or_pos f.blockCount with hempty | hne
    · exact .inl ⟨hempty, solve_empty hp hempty⟩
    · obtain ⟨s₀, hs₀, -, ht⟩ := State.exists_start hp hne history
      obtain ⟨n, hle, hloop⟩ := Stage.loop hp ht .start
      exact .inr ⟨s₀, n, _, hs₀, hloop, hle, solve_eq_outcome hs₀⟩
  · obtain ⟨s₀, s, hs₀, hstage, -, hinstrs, rfl⟩ := solve_stage hp hr
    have h := hstage.accounted hp (State.initial_start hp hs₀).2 (accounted_start hs₀)
    simp only [State.visitsTo_solution]
    refine ⟨h.visits.done_le, h.blockVisits, ?_, ?_⟩
    · calc s.changes ≤ s.facts.risen f.slotCount f.isLive := h.changes
        _ ≤ 2 * ∑ d ∈ Finset.range f.slotCount, f.isLive d := s.facts.risen_le _ _
        _ = 2 * f.instrs.length := by rw [f.sum_isLive]
    · have hrisen := s.facts.risen_le f.slotCount fun d => (f.usersOf d).length
      have hfed := f.fed_le s.visits
      have hvisits := h.instrVisits
      rw [hinstrs, List.length_nil] at hvisits
      simp only [State.solution]
      omega

/-- A loop whose exit block goes on after its return, with a value removed that another block still
reads. -/
def danglingLoop : Func :=
  (Func.ofScript "count"
    (countingLoop ++ [.block 2 [.append (.uninterpreted "late" [.value 3])]])).edited [.remove 7]

theorem solve_bounded_danglingLoop : danglingLoop.validate ≠ .ok () ∧
    ∃ r, danglingLoop.solve false = .ok r ∧ r.visitsTo 1 = 2 ∧
      (∀ b, r.visitsTo b ≤ max 1 (danglingLoop.preds b).length) ∧
      r.blockVisits = ∑ b ∈ Finset.range danglingLoop.blockCount, r.visitsTo b ∧
      r.changes ≤ 2 * danglingLoop.instrs.length ∧
      r.instrVisits ≤
        2 * (∑ d ∈ Finset.range danglingLoop.slotCount, (danglingLoop.usersOf d).length) +
          (danglingLoop.instrs.map (·.op.phiInputs.length)).sum := by
  have hsolve : (danglingLoop.solve false).toOption.map (·.visitsTo 1) = some 2 := by decide +kernel
  obtain ⟨r, hr, hvisits⟩ := Option.map_eq_some_iff.mp hsolve
  have hr : danglingLoop.solve false = .ok r := eq_ok_of_mem_toOption hr
  refine ⟨by decide +kernel, r, hr, hvisits, ?_⟩
  exact (solve_bounded "count" _ [.remove 7] false danglingLoop rfl).2.2 r hr

end ConstFlow
