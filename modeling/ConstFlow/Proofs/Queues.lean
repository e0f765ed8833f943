import ConstFlow.Proofs.Effort
import Mathlib.Logic.Relation

/-!
# The queues and their sets

A work list is a queue with a set beside it, and both are written wherever something is made to wait
or is taken up. `Move` lists all that the analysis does to its state, one operation at a time, so
that also the states in the middle of a visit are among those that a chain of moves leads to.

* `moves_perform`, `moves_runTasks` : a task, and so a run, is a chain of moves;
* `State.Tidy.moves` : each move keeps the queues and their sets together, whatever came before;
* `State.Tidy.enqueueBlock` and its like : no move writes beyond a capacity;
* `State.Mirrored`, `worklists_mirrored` : what this means for the two lists.
-/

namespace ConstFlow

/-- One move of the analysis: a single operation on its state. -/
inductive Move (f : Func) : State → State → Prop
  /-- The task that is due is taken up. -/
  | take {s s' : State} {t : Task} (due : s.next? = .ok (some (t, s'))) : Move f s s'
  /-- A block is passed over. -/
  | pass {s : State} (b : BlockId) : Move f s (s.note (.limitReached b))
  /-- A block is entered. -/
  | enter {s : State} {b : BlockId} {n : Nat} {x : Visits}
      (entered : s.visits.enter b = .ok (n, x)) : Move f s (s.enterBlock b n x)
  /-- A phi that a block feeds is made to wait. -/
  | feed {s s' : State} {b : BlockId} {id : InstrId} (fed : id ∈ phisFedBy f s.visits b)
      (queued : s.enqueueInstr id = .ok s') : Move f s s'
  /-- A visit to a waiting instruction is counted. -/
  | count {s : State} : Move f s { s with instrVisits := s.instrVisits + 1 }
  /-- The target of an edge is made to wait. -/
  | target {s s' : State} {b : BlockId} (queued : s.enqueueBlock f b = .ok s') : Move f s s'
  /-- A fact rises. -/
  | raise {s : State} {id : InstrId} {v w : Fact} {m : FactMap}
      (risen : s.facts.update id v = .ok (some w, m)) : Move f s (s.raise id w m)
  /-- A user is made to wait, if it is active. -/
  | user {s s' : State} {id : InstrId} (queued : s.enqueueUser f id = .ok s') : Move f s s'

/-- Chains of moves. -/
abbrev Moves (f : Func) : State → State → Prop :=
  Relation.ReflTransGen (Move f)

/-- The state that a computation leaves, also when it fails. -/
def State.left {α : Type} : EStateM.Result Error State α → State
  | .ok _ s => s
  | .error _ s => s

/-! ## Runs as chains of moves -/

section Chains
variable {f : Func} {s s' : State}

/-- A loop is a chain of moves if each of its steps is one, wherever `I` holds. -/
theorem moves_foldlM {step : State → Nat → Except Error State} {I : State → Prop} (ids : List Nat)
    (hstep : ∀ {s s' : State}, ∀ id ∈ ids, I s → step s id = .ok s' → Move f s s' ∧ I s')
    (hI : I s) (h : ids.foldlM step s = .ok s') : Moves f s s' := by
  induction ids generalizing s with
  | nil =>
    cases h
    exact .refl
  | cons id ids ih =>
    rw [List.foldlM_cons] at h
    cases hs₁ : step s id with
    | error e => simp [hs₁, bind, Except.bind] at h
    | ok s₁ =>
      rw [hs₁] at h
      obtain ⟨hmove, hI₁⟩ := hstep id List.mem_cons_self hI hs₁
      exact .head hmove (ih (fun j hj => hstep j (List.mem_cons_of_mem _ hj)) hI₁ h)

theorem moves_visit {id : InstrId} (h : s.visit f id = .ok s') : Moves f s s' := by
  obtain ⟨i, y, s₁, -, -, htargets, hcases⟩ := State.visit_cases h
  have htargets : Moves f s s₁ := moves_foldlM (I := fun _ => True) y.targets
    (fun b _ _ hb => ⟨.target hb, trivial⟩) trivial htargets
  rcases hcases with ⟨m, -, rfl⟩ | ⟨v, m, hrisen, husers⟩
  · exact htargets
  · have husers : Moves f (s₁.raise id v m) s' := moves_foldlM (I := fun _ => True) (f.usersOf id)
      (fun u _ _ hu => ⟨.user hu, trivial⟩) trivial husers
    exact (htargets.tail (.raise hrisen)).trans husers

theorem moves_visitAll (ids : List InstrId) : Moves f s (State.left (visitAll f ids s)) := by
  induction ids generalizing s with
  | nil => exact .refl
  | cons id ids ih =>
    unfold visitAll
    cases hvisit : s.visit f id with
    | ok s₁ => exact (moves_visit hvisit).trans ih
    | error e => exact .refl

theorem moves_visitBlock (b : BlockId) (first : Bool) :
    Moves f s (State.left (visitBlock f b first s)) := by
  unfold visitBlock
  split
  · exact .refl
  · next s₁ hs₁ =>
    -- the visits, which decide on the phis to be fed, stay as they are while the phis are queued
    have hfed : Moves f s s₁ := by
      refine moves_foldlM (I := fun t => t.visits = s.visits) _ (fun id hid hvisits hqueued => ?_)
        rfl hs₁
      obtain ⟨w, rfl, -⟩ := State.growsInstrs_enqueue hqueued
      split at hid
      · exact ⟨.feed (hvisits ▸ hid) hqueued, hvisits⟩
      · cases hid
    split
    · exact hfed
    · exact hfed.trans (moves_visitAll _)

/-- A task is a chain of moves, up to its end or its failure. -/
theorem moves_perform (t : Task) : Moves f s (State.left (perform f t s)) := by
  cases t with
  | block b =>
    unfold perform
    dsimp only
    split
    · split
      · exact .refl
      · next n x entered => exact .head (.enter entered) (moves_visitBlock b _)
    · exact .single (.pass b)
  | instr id =>
    unfold perform
    dsimp only
    split
    · next hvisit => exact .head .count (moves_visit hvisit)
    · exact .single .count

theorem moves_turn {t : Task} {s₁ : State} (h : s.next? = .ok (some (t, s₁))) :
    Moves f s (State.left (perform f t s₁)) :=
  .head (.take h) (moves_perform t)

theorem moves_runTasks (f : Func) (s : State) : Moves f s (State.left (runTasks f s)) := by
  induction s using runTasks.induct f with
  | case1 s e hn =>
    rw [runTasks_eq, hn]
    exact .refl
  | case2 s hn =>
    rw [runTasks_eq, hn]
    exact .refl
  | case3 s t s₁ hn e s₂ hperform =>
    have hturn := moves_turn (f := f) hn
    rw [hperform] at hturn
    rw [runTasks_eq, hn]
    simp only [hperform]
    exact hturn
  | case4 s t s₁ hn u s₂ hperform ih =>
    have hturn := moves_turn (f := f) hn
    rw [hperform] at hturn
    rw [runTasks_eq, hn]
    simp only [hperform]
    exact hturn.trans ih

end Chains

/-! ## What every move keeps -/

section Upkeep
variable {f : Func} {s s' : State}

theorem State.Tidy.taken (ht : s.Tidy f) {t : Task} (h : s.take? t = some s') : s'.Tidy f := by
  unfold State.take? at h
  cases t with
  | block b =>
    rw [Option.ite_none_right_eq_some, Option.some.injEq] at h
    obtain ⟨-, rfl⟩ := h
    exact ⟨ht.live, ht.size, (ht.blocks.without b).1, ht.instrs, ht.active⟩
  | instr id =>
    rw [Option.ite_none_right_eq_some, Option.some.injEq] at h
    obtain ⟨-, rfl⟩ := h
    obtain ⟨hfaith, hmem⟩ := ht.instrs.without id
    exact ⟨ht.live, ht.size, ht.blocks, hfaith, fun j hj => ht.active j ((hmem j).mp hj).1⟩

/-- A block can be made to wait unless there is no such block. -/
theorem State.Tidy.enqueueBlock (ht : s.Tidy f) (b : BlockId) :
    (∃ s', s.enqueueBlock f b = .ok s' ∧ s'.Tidy f) ∨
      s.enqueueBlock f b = .error (.unknownBlock b) := by
  by_cases hb : b < f.blockCount
  · obtain ⟨w, hw, hfaith, -⟩ := State.enqueueBlock_ok ht.blocks hb
    exact .inl ⟨_, hw, ht.live, ht.size, hfaith, ht.instrs, ht.active⟩
  · exact .inr (if_neg hb)

/-- Every active instruction can be made to wait. -/
theorem State.Tidy.enqueueInstr (ht : s.Tidy f) {id : InstrId}
    (hid : isActive f s.visits id = true) : ∃ s', s.enqueueInstr id = .ok s' ∧ s'.Tidy f := by
  obtain ⟨w, hw, hfaith, hmem⟩ := State.enqueueInstr_ok ht.instrs id
  refine ⟨_, hw, ht.live, ht.size, ht.blocks, hfaith, fun j hj => ?_⟩
  rcases (hmem j).mp hj with hj | ⟨rfl, -⟩
  · exact ht.active j hj
  · exact hid

theorem State.Tidy.enqueueUser (ht : s.Tidy f) (id : InstrId) :
    ∃ s', s.enqueueUser f id = .ok s' ∧ s'.Tidy f := by
  unfold State.enqueueUser
  split
  · next hid => exact ht.enqueueInstr hid
  · exact ⟨s, rfl, ht⟩

theorem State.isActive_of_mem_phisFedBy (hp : f.Placed) {x : Visits} {b : BlockId} {id : InstrId}
    (h : id ∈ phisFedBy f x b) : isActive f x id = true := by
  obtain ⟨i, hi, -, -, hreached, -⟩ := (mem_phisFedBy hp).mp h
  exact State.isActive_iff.mpr ⟨i, hi, hreached⟩

theorem State.Tidy.enterBlock (ht : s.Tidy f) {b : BlockId} {n : Nat} {x : Visits}
    (h : s.visits.enter b = .ok (n, x)) : (s.enterBlock b n x).Tidy f := by
  obtain ⟨-, hsize, hreach⟩ := Visits.enter_cases h
  refine ⟨ht.live, hsize.trans ht.size, ht.blocks, ht.instrs, fun j hj => ?_⟩
  obtain ⟨i, hi, hreached⟩ := State.isActive_iff.mp (ht.active j hj)
  exact State.isActive_iff.mpr ⟨i, hi, (hreach _).mpr (.inr hreached)⟩

theorem State.Tidy.raise (ht : s.Tidy f) {id : InstrId} {v w : Fact} {m : FactMap}
    (h : s.facts.update id v = .ok (some w, m)) : (s.raise id w m).Tidy f := by
  obtain ⟨old, hold, -, hget⟩ := FactMap.update_cases h
  refine ⟨fun j => ?_, ht.size, ht.blocks, ht.instrs, ht.active⟩
  show (m.get? j).isSome = _
  rw [← ht.live, hget]
  split
  · next hj => rw [hj, hold, Option.isSome_some, Option.isSome_some]
  · rfl

/-- Every move keeps a state tidy. -/
theorem State.Tidy.move (hp : f.Placed) (ht : s.Tidy f) (h : Move f s s') : s'.Tidy f := by
  cases h with
  | take due => exact ht.taken (ht.take?_of_next? due)
  | pass b => exact ⟨ht.live, ht.size, ht.blocks, ht.instrs, ht.active⟩
  | enter entered => exact ht.enterBlock entered
  | feed fed queued =>
    obtain ⟨t, hok, htidy⟩ := ht.enqueueInstr (State.isActive_of_mem_phisFedBy hp fed)
    cases hok.symm.trans queued
    exact htidy
  | count => exact ⟨ht.live, ht.size, ht.blocks, ht.instrs, ht.active⟩
  | target queued =>
    rcases ht.enqueueBlock _ with ⟨t, hok, htidy⟩ | herror
    · cases hok.symm.trans queued
      exact htidy
    · cases herror.symm.trans queued
  | raise risen => exact ht.raise risen
  | user queued =>
    obtain ⟨t, hok, htidy⟩ := ht.enqueueUser _
    cases hok.symm.trans queued
    exact htidy

theorem State.Tidy.moves (hp : f.Placed) (ht : s.Tidy f) (h : Moves f s s') : s'.Tidy f := by
  induction h with
  | refl => exact ht
  | tail _ hmove ih => exact ih.move hp hmove

end Upkeep

/-! ## The two lists -/

/-- What waits does so once, and is just what the sets hold: blocks of the function, and live
instructions in blocks that were reached. -/
structure State.Mirrored (f : Func) (s : State) : Prop where
  blockOnce : ∀ b ∈ s.blocks.pending, s.blocks.pending.count b = 1
  instrOnce : ∀ id ∈ s.instrs.pending, s.instrs.pending.count id = 1
  blockSet : ∀ b, s.blocks.queued.contains b = true ↔ b ∈ s.blocks.pending
  instrSet : ∀ id, s.instrs.queued.contains id = true ↔ id ∈ s.instrs.pending
  block : ∀ b ∈ s.blocks.pending, b < f.blockCount
  instr : ∀ id ∈ s.instrs.pending, ∃ i, f.instr? id = some i ∧ s.visits.reached i.block = true

theorem State.Tidy.mirrored {f : Func} {s : State} (ht : s.Tidy f) : s.Mirrored f where
  blockOnce _ hb := List.count_eq_one_of_mem ht.blocks.nodup hb
  instrOnce _ hid := List.count_eq_one_of_mem ht.instrs.nodup hid
  blockSet := ht.blocks.mem
  instrSet := ht.instrs.mem
  block _ hb := ht.blocks.lt hb
  instr id hid := State.isActive_iff.mp (ht.active id hid)

/-- On every function that was built and edited, valid or not, the map of facts can be made. From
the start of the analysis each turn of the loop, and so the whole run, is a chain of moves; at
every point of such a chain the sets mirror the queues, and no move that could come next there
writes beyond a capacity. So no analysis fails by such a write. -/
theorem worklists_mirrored (name : String) (script : List Stmt) (edits : List Edit)
    (history : Bool) (f : Func) (hf : f = (Func.ofScript name script).edited edits) :
    (∃ m, FactMap.ofFunc f = .ok m) ∧
    (∀ s₀, State.start f history = .ok s₀ →
      Moves f s₀ (State.left (runTasks f s₀)) ∧
      ∀ s, Moves f s₀ s → s.Mirrored f ∧
        (s.next? = .ok none ∨ ∃ t s₁, s.next? = .ok (some (t, s₁)) ∧ Moves f s₀ s₁ ∧
          Moves f s₁ (State.left (perform f t s₁))) ∧
        (∀ b cause, s.enqueueBlock f b ≠ .error (.outOfBounds cause)) ∧
        ∀ id, ∃ s', s.enqueueInstr id = .ok s') ∧
    ∀ cause, f.solve history ≠ .error (.outOfBounds cause) := by
  have hp : f.Placed := hf ▸ (Func.consistent_edited name script edits).placed
  obtain ⟨m, hm, -⟩ := FactMap.get?_ofFunc hp
  refine ⟨⟨m, hm⟩, fun s₀ hs₀ => ⟨moves_runTasks f s₀, fun s hs => ?_⟩,
    solve_ne_outOfBounds hp history⟩
  have ht := (State.initial_start hp hs₀).2.moves hp hs
  refine ⟨ht.mirrored, ?_, fun b cause hb => ?_, fun id => ?_⟩
  · rcases ht.next? with ⟨hnone, -⟩ | ⟨t, s₁, hsome, -⟩
    · exact .inl hnone
    · exact .inr ⟨t, s₁, hsome, hs.tail (.take hsome), moves_perform t⟩
  · rcases ht.enqueueBlock b with ⟨s', hok, -⟩ | herror
    · cases hok.symm.trans hb
    · cases herror.symm.trans hb
  · obtain ⟨w, hw, -⟩ := State.enqueueInstr_ok ht.instrs id
    exact ⟨_, hw⟩

/-- After its first turn a block and an instruction wait, though the function is not valid. -/
theorem worklists_mirrored_danglingLoop : danglingLoop.validate ≠ .ok () ∧
    ∃ s₀ t s₁, State.start danglingLoop false = .ok s₀ ∧ s₀.next? = .ok (some (t, s₁)) ∧
      (State.left (perform danglingLoop t s₁)).blocks.pending = [1] ∧
      (State.left (perform danglingLoop t s₁)).instrs.pending = [1] ∧
      (State.left (perform danglingLoop t s₁)).Mirrored danglingLoop := by
  have hturn : ∃ s₀ ∈ (State.start danglingLoop false).toOption, ∃ due ∈ s₀.next?.toOption,
      ∃ p ∈ due, (State.left (perform danglingLoop p.1 p.2)).blocks.pending = [1] ∧
        (State.left (perform danglingLoop p.1 p.2)).instrs.pending = [1] := by
    decide +kernel
  obtain ⟨s₀, hs₀, due, hdue, ⟨t, s₁⟩, hp, hblocks, hinstrs⟩ := hturn
  have hs₀ := eq_ok_of_mem_toOption hs₀
  have hdue : s₀.next? = .ok (some (t, s₁)) := by
    rw [eq_ok_of_mem_toOption hdue, Option.mem_def.mp hp]
  obtain ⟨-, hpoints⟩ :=
    (worklists_mirrored "count" _ [.remove 7] false danglingLoop rfl).2.1 s₀ hs₀
  exact ⟨by decide +kernel, s₀, t, s₁, hs₀, hdue, hblocks, hinstrs,
    (hpoints _ (moves_turn hdue)).1⟩

end ConstFlow
