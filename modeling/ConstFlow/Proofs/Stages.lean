import ConstFlow.Proofs.Driver

/-!
# The stages of a run

A stage is a point of a run: between two tasks, or between two visits of one task. `Stage due` holds
of all stages of the runs in which every task was one that `due` allows when it was taken up, from
among those that wait. With `State.Due` these are the stages of the one run that takes the tasks in
the order of the lists; with no condition, those of the runs in any order.

* `Stage.invariant` : what every stride keeps holds at every stage;
* `Stage.runTasks` : a run ends at a stage where nothing waits, or fails at a stage in the visit
  that is next there;
* `solve_stage`, `solve_failed` : the same for `Func.solve`, from a state in which nothing is known;
* `solve_invariant` : what holds at the start and is kept by every stride holds of the result.
-/

namespace ConstFlow

/-- A stage of a run from `s₀`, with the instructions of the task in progress that are still to be
visited. -/
inductive Stage (due : State → Task → Prop) (f : Func) (s₀ : State) : State → List InstrId → Prop
  | start : Stage due f s₀ s₀ []
  /-- A task is taken up and prepared. -/
  | task {s s₁ s₂ : State} {t : Task} {todo : List InstrId} (before : Stage due f s₀ s [])
      (isDue : due s t) (taken : s.take? t = some s₁) (prepared : prepare f t s₁ = .ok todo s₂) :
      Stage due f s₀ s₂ todo
  /-- The next instruction is visited. -/
  | visit {s s' : State} {id : InstrId} {todo : List InstrId}
      (before : Stage due f s₀ s (id :: todo)) (visited : s.visit f id = .ok s') :
      Stage due f s₀ s' todo

/-- The task is the next one in the order of the lists. -/
def State.Due (s : State) (t : Task) : Prop :=
  ∃ s₁, s.next? = .ok (some (t, s₁))

/-- A predicate on the state and the instructions still to be visited that every stride from a tidy
state keeps. -/
def Kept (f : Func) (I : State → List InstrId → Prop) : Prop :=
  ∀ {s s' : State} {todo todo' : List InstrId}, s.Tidy f → I s todo → Stride f s todo s' todo' →
    I s' todo'

section Stages
variable {due : State → Task → Prop} {f : Func} {s₀ s s' : State} {todo todo' : List InstrId}

/-- Every stage is tidy, and comes by a stride from a stage before it. What every stride from a
stage keeps, holds at every stage. -/
theorem Stage.induct (hp : f.Placed) {I : State → List InstrId → Prop}
    (hstep : ∀ {s s' : State} {todo todo' : List InstrId}, Stage due f s₀ s todo → s.Tidy f →
      I s todo → Stride f s todo s' todo' → I s' todo')
    (ht : s₀.Tidy f) (hI : I s₀ []) (h : Stage due f s₀ s todo) : s.Tidy f ∧ I s todo := by
  induction h with
  | start => exact ⟨ht, hI⟩
  | task before _ taken prepared ih =>
    obtain ⟨todo₂, s₂, heq, ht₂, hstride⟩ := ih.1.prepare hp taken
    cases heq.symm.trans prepared
    exact ⟨ht₂, hstep before ih.1 ih.2 hstride⟩
  | visit before visited ih =>
    obtain ⟨ht', i, y, rfl, hvisited⟩ := ih.1.visit hp visited
    exact ⟨ht', hstep before ih.1 ih.2 (.visit hvisited)⟩

theorem Stage.tidy (hp : f.Placed) (ht : s₀.Tidy f) (h : Stage due f s₀ s todo) : s.Tidy f :=
  (h.induct (I := fun _ _ => True) hp (fun _ _ _ _ => trivial) ht trivial).1

theorem Stage.invariant (hp : f.Placed) {I : State → List InstrId → Prop} (hkept : Kept f I)
    (ht : s₀.Tidy f) (hI : I s₀ []) (h : Stage due f s₀ s todo) : I s todo :=
  (h.induct hp (fun _ => hkept) ht hI).2

/-! ## Runs -/

/-- Visits lead from stage to stage, up to the end or to a visit that fails. -/
theorem Stage.visitAll {ids : List InstrId} (h : Stage due f s₀ s ids) :
    (∃ s', ConstFlow.visitAll f ids s = .ok () s' ∧ Stage due f s₀ s' []) ∨
    ∃ e s' id todo, ConstFlow.visitAll f ids s = .error e s' ∧ Stage due f s₀ s' (id :: todo) ∧
      s'.visit f id = .error e := by
  induction ids generalizing s with
  | nil => exact .inl ⟨s, rfl, h⟩
  | cons id ids ih =>
    unfold ConstFlow.visitAll
    cases hvisit : s.visit f id with
    | ok s₁ => exact ih (h.visit hvisit)
    | error e => exact .inr ⟨e, s, id, ids, rfl, h, hvisit⟩

/-- A task leads from stage to stage in the same way. -/
theorem Stage.perform (hp : f.Placed) (ht : s₀.Tidy f) (h : Stage due f s₀ s []) {t : Task}
    {s₁ : State} (hdue : due s t) (htake : s.take? t = some s₁) :
    (∃ s', ConstFlow.perform f t s₁ = .ok () s' ∧ Stage due f s₀ s' []) ∨
    ∃ e s' id todo, ConstFlow.perform f t s₁ = .error e s' ∧ Stage due f s₀ s' (id :: todo) ∧
      s'.visit f id = .error e := by
  obtain ⟨todo, s₂, hprepare, -⟩ := (h.tidy hp ht).prepare hp htake
  have hstage := h.task hdue htake hprepare
  rw [perform_eq, hprepare]
  exact hstage.visitAll

/-- A run, without the proofs that it ends. -/
theorem runTasks_eq (f : Func) (s : State) :
    runTasks f s =
      match s.next? with
      | .error e => .error e s
      | .ok none => .ok () s
      | .ok (some (t, s₁)) =>
        match perform f t s₁ with
        | .error e s₂ => .error e s₂
        | .ok _ s₂ => runTasks f s₂ := by
  rw [runTasks]
  split <;> simp only [*]
  split <;> simp only [*]

/-- A run in the order of the lists ends at a stage where nothing waits, or fails at a stage in the
visit that is next. -/
theorem Stage.runTasks (hp : f.Placed) (ht : s₀.Tidy f) (h : Stage State.Due f s₀ s []) :
    (∃ s', ConstFlow.runTasks f s = .ok () s' ∧ Stage State.Due f s₀ s' [] ∧
      s'.blocks.pending = [] ∧ s'.instrs.pending = []) ∨
    ∃ e s' id todo, ConstFlow.runTasks f s = .error e s' ∧ Stage State.Due f s₀ s' (id :: todo) ∧
      s'.visit f id = .error e := by
  -- along the recursion of the run: the rest of it starts from the stage that a task left
  induction s using runTasks.induct f with
  | case1 s e hn =>
    rcases (h.tidy hp ht).next? with ⟨hnone, -⟩ | ⟨t, s₁, hsome, -⟩
    · cases hn.symm.trans hnone
    · cases hn.symm.trans hsome
  | case2 s hn =>
    rcases (h.tidy hp ht).next? with ⟨-, hnil⟩ | ⟨t, s₁, hsome, -⟩
    · exact .inl ⟨s, by rw [runTasks_eq, hn], h, hnil⟩
    · cases hn.symm.trans hsome
  | case3 s t s₁ hn e s₂ hperform =>
    rcases h.perform hp ht ⟨s₁, hn⟩ ((h.tidy hp ht).take?_of_next? hn) with
      ⟨s', hok, -⟩ | ⟨e', s', id, todo, herr, hfail⟩
    · cases hperform.symm.trans hok
    · exact .inr ⟨e', s', id, todo, by rw [runTasks_eq, hn]; simp only [herr], hfail⟩
  | case4 s t s₁ hn u s₂ hperform ih =>
    rw [runTasks_eq, hn]
    simp only [hperform]
    rcases h.perform hp ht ⟨s₁, hn⟩ ((h.tidy hp ht).take?_of_next? hn) with
      ⟨s', hok, hstage⟩ | ⟨e, s', id, todo, herr, -⟩
    · cases hperform.symm.trans hok
      exact ih hstage
    · cases hperform.symm.trans herr

end Stages

/-! ## From the start to the result -/

/-- Inserting the numbers of a list makes just them members. -/
theorem BitSet.foldlM_insert (ids : List Nat) : ∀ {s : BitSet}, s.Sized →
    (∀ i ∈ ids, i < s.capacity) →
      ∃ s', ids.foldlM (fun s i => (s.insert i).map (·.2)) s = .ok s' ∧
        ∀ j, s'.contains j = true ↔ s.contains j = true ∨ j ∈ ids := by
  induction ids with
  | nil => exact fun {s} _ _ => ⟨s, rfl, by simp⟩
  | cons i ids ih =>
    intro s hs hids
    obtain ⟨hi, hids⟩ := List.forall_mem_cons.mp hids
    obtain ⟨s', hs', hmem⟩ := ih (hs.mark i) (fun j hj => BitSet.capacity_mark s i ▸ hids j hj)
    refine ⟨s', by rw [List.foldlM_cons, BitSet.insert, if_pos hi]; exact hs', fun j => ?_⟩
    rw [hmem, BitSet.contains_mark hs hi, Bool.or_eq_true, decide_eq_true_eq, List.mem_cons,
      or_comm (a := j = i), or_assoc]

/-- At first every live instruction has an unknown fact, and no other has any. -/
theorem FactMap.get?_ofFunc {f : Func} (hp : f.Placed) : ∃ m, FactMap.ofFunc f = .ok m ∧
    ∀ id, m.get? id = (f.instr? id).map fun _ => .unknown := by
  have hids : ∀ id ∈ f.instrs.map (·.id), id < (BitSet.empty f.slotCount).capacity := by
    intro id hid
    obtain ⟨i, hi, rfl⟩ := List.mem_map.mp hid
    obtain ⟨k, hk⟩ := Func.mem_instrs.mp hi
    exact Func.lt_slotCount (hp.slot hk ▸ hk)
  obtain ⟨live, hlive, hmem⟩ := BitSet.foldlM_insert _ (BitSet.sized_empty f.slotCount) hids
  rw [List.foldlM_map] at hlive
  refine ⟨⟨Array.replicate f.slotCount .unknown, live⟩, ?_, fun id => ?_⟩
  · unfold FactMap.ofFunc
    rw [hlive]
  · have hcontains : live.contains id = true ↔ ∃ i, f.instr? id = some i := by
      rw [hmem, BitSet.contains_empty, List.mem_map]
      constructor
      · rintro (hfalse | ⟨i, hi, rfl⟩)
        · cases hfalse
        · obtain ⟨k, hk⟩ := Func.mem_instrs.mp hi
          exact ⟨i, hp.slot hk ▸ hk⟩
      · rintro ⟨i, hi⟩
        exact .inr ⟨i, Func.mem_instrs.mpr ⟨id, hi⟩, hp.slot hi⟩
    show (if live.contains id = true then _ else none) = _
    cases hi : f.instr? id with
    | none =>
      rw [if_neg]
      · rfl
      · rw [hcontains, hi]
        simp
    | some i =>
      rw [if_pos (hcontains.mpr ⟨i, hi⟩), Array.getElem?_replicate, if_pos (Func.lt_slotCount hi)]
      rfl

/-- Nothing is known, nothing was visited, and the entry block alone waits. -/
structure State.Initial (f : Func) (s : State) : Prop where
  fact : ∀ id, s.facts.get? id = (f.instr? id).map fun _ => .unknown
  unreached : ∀ b, ¬ s.visits.reached b = true
  blocks : ∀ b, b ∈ s.blocks.pending ↔ b = Func.entry
  instrs : s.instrs.pending = []

/-- An analysis can start on every function that has a block. -/
theorem State.exists_start {f : Func} (hp : f.Placed) (hne : 0 < f.blockCount) (history : Bool) :
    ∃ s, State.start f history = .ok s ∧ s.Initial f ∧ s.Tidy f := by
  obtain ⟨m, hm, hfact⟩ := FactMap.get?_ofFunc hp
  have hempty : f.isEmpty = false := by simpa [Func.isEmpty, Func.blockCount] using hne.ne'
  obtain ⟨w, hw, hfaith, hmem⟩ := (Worklist.faithful_empty f.blockCount).push hne
  unfold State.start State.enqueueBlock
  simp only [hm, hempty, bind, Except.bind, Func.entry, if_pos hne, hw]
  refine ⟨_, rfl, ⟨hfact, Visits.not_reached_ofFunc f, fun b => ?_, rfl⟩,
    ⟨fun id => ?_, Visits.size_ofFunc f, hfaith, Worklist.faithful_empty _, ?_⟩⟩
  · rw [hmem]
    simp [Worklist.empty, Func.entry]
  · rw [hfact, Option.isSome_map]
  · intro id hid
    cases hid

/-- An analysis cannot start on a function without blocks. -/
theorem State.start_empty {f : Func} (hp : f.Placed) (hempty : f.blockCount = 0) (history : Bool) :
    State.start f history = .error .empty := by
  obtain ⟨m, hm, -⟩ := FactMap.get?_ofFunc hp
  have hempty : f.isEmpty = true := by simpa [Func.isEmpty, Func.blockCount] using hempty
  simp [State.start, hm, hempty, bind, Except.bind, throw, throwThe, MonadExceptOf.throw]

theorem State.initial_start {f : Func} (hp : f.Placed) {history : Bool} {s : State}
    (h : State.start f history = .ok s) : s.Initial f ∧ s.Tidy f := by
  by_cases hne : 0 < f.blockCount
  · obtain ⟨s', hs', hstart⟩ := State.exists_start hp hne history
    obtain rfl := Except.ok.inj (hs'.symm.trans h)
    exact hstart
  · rw [State.start_empty hp (Nat.eq_zero_of_not_pos hne)] at h
    cases h

section Solve
variable {f : Func} {history : Bool}

theorem solve_empty (hp : f.Placed) (hempty : f.blockCount = 0) :
    f.solve history = .error .empty := by
  unfold Func.solve Func.analyse
  rw [State.start_empty hp hempty]

/-- A solution is read off a stage of the run at which nothing waits. -/
theorem solve_stage (hp : f.Placed) {r : Solution} (h : f.solve history = .ok r) :
    ∃ s₀ s, State.start f history = .ok s₀ ∧ Stage State.Due f s₀ s [] ∧
      s.blocks.pending = [] ∧ s.instrs.pending = [] ∧ r = s.solution f.name := by
  unfold Func.solve Func.analyse at h
  split at h
  · cases h
  · next s₀ hs₀ =>
    rcases Stage.runTasks hp (State.initial_start hp hs₀).2 .start with
      ⟨s, hrun, hstage, hblocks, hinstrs⟩ | ⟨e, s, id, todo, hrun, -⟩
    · rw [hrun] at h
      cases h
      exact ⟨s₀, s, hs₀, hstage, hblocks, hinstrs, rfl⟩
    · rw [hrun] at h
      cases h

/-- An analysis that fails, of a function with a block, fails at a stage of the run. -/
theorem solve_failed (hp : f.Placed) (hne : 0 < f.blockCount) {e : Error}
    (h : f.solve history = .error e) :
    ∃ s₀ s id todo, State.start f history = .ok s₀ ∧ Stage State.Due f s₀ s (id :: todo) ∧
      s.visit f id = .error e := by
  obtain ⟨s₀, hs₀, -, ht⟩ := State.exists_start hp hne history
  unfold Func.solve Func.analyse at h
  rw [hs₀] at h
  rcases Stage.runTasks hp ht .start with
    ⟨s, hrun, -⟩ | ⟨e', s, id, todo, hrun, hstage, hvisit⟩
  · simp only [hrun] at h
    cases h
  · simp only [hrun] at h
    cases h
    exact ⟨s₀, s, id, todo, hs₀, hstage, hvisit⟩

/-- What holds at the start and is kept by every stride holds of the state that a solution was read
off, and nothing waits there. -/
theorem solve_invariant (hp : f.Placed) {I : State → List InstrId → Prop} (hkept : Kept f I)
    (hinit : ∀ s : State, s.Initial f → I s []) {r : Solution} (h : f.solve history = .ok r) :
    ∃ s : State, r = s.solution f.name ∧ s.Tidy f ∧ I s [] ∧ s.blocks.pending = [] ∧
      s.instrs.pending = [] := by
  obtain ⟨s₀, s, hs₀, hstage, hblocks, hinstrs, rfl⟩ := solve_stage hp h
  obtain ⟨hinitial, ht⟩ := State.initial_start hp hs₀
  exact ⟨s, rfl, hstage.tidy hp ht, hstage.invariant hp hkept ht (hinit s₀ hinitial), hblocks,
    hinstrs⟩

end Solve

@[simp] theorem State.fact?_solution (s : State) (name : String) (id : InstrId) :
    (s.solution name).fact? id = s.facts.get? id := rfl

@[simp] theorem State.reached_solution (s : State) (name : String) (b : BlockId) :
    (s.solution name).reached b = s.visits.reached b := by
  unfold Solution.reached Solution.visitsTo State.solution Visits.reached Visits.done Visits.counts
    Visits.tally?
  simp only [List.getElem?_toArray, List.getElem?_map, Array.getElem?_toList]
  cases s.visits.tallies[b]? with
  | none => rfl
  | some t => rfl

theorem State.const?_solution {s : State} {name : String} {id : InstrId} {k : Int64} :
    (s.solution name).const? id = some k ↔ s.facts.get? id = some (.const k) := by
  unfold Solution.const?
  rw [State.fact?_solution, Option.bind_eq_some_iff]
  constructor
  · rintro ⟨a, ha, hk⟩
    cases a with
    | const c =>
      cases hk
      exact ha
    | unknown => cases hk
    | overdefined => cases hk
  · exact fun h => ⟨_, h, rfl⟩

theorem State.operandConst?_solution {s : State} {name : String} {o : Operand} {c : Int64} :
    (s.solution name).operandConst? o = some c ↔ s.facts.resolve o = .ok (.const c) := by
  cases o with
  | const c' => simp [Solution.operandConst?, FactMap.resolve]
  | undef => simp [Solution.operandConst?, FactMap.resolve]
  | value u => exact State.const?_solution.trans FactMap.get_eq_ok.symm

end ConstFlow
