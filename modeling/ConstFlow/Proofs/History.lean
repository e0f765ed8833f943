import ConstFlow.Proofs.Effort

/-!
# Histories

An analysis may keep a record of the facts that every slot went through.

* `Fact.Climb` : a list that rises from nothing known, with every fact above the one before. It has
  at most three entries, and one constant at most;
* `Recorded` : every record is a climb to the present fact, and the steps of all records together
  are the changes that were counted. A visit extends the one record whose fact rose;
* `State.forget` : the state without its record. Every step of the analysis does the same to the
  state and to what is left of it without the record (`runTasks_forget`), so the record has no part
  in the result.
-/

namespace ConstFlow

/-! ## Climbs -/

namespace Fact

/-- A list of facts that rises from nothing known up to `v`. -/
structure Climb (hs : List Fact) (v : Fact) : Prop where
  head : hs.head? = some .unknown
  rises : hs.IsChain (· < ·)
  last : hs.getLast? = some v

theorem climb_unknown : Climb [.unknown] .unknown :=
  ⟨rfl, .singleton _, rfl⟩

namespace Climb
variable {hs : List Fact} {v w : Fact}

theorem raise (h : Climb hs v) (hlt : v < w) : Climb (hs ++ [w]) w where
  head := by rw [List.head?_append, h.head, Option.some_or]
  rises := by
    refine List.isChain_append.mpr ⟨h.rises, .singleton w, fun a ha b hb => ?_⟩
    rw [h.last] at ha
    cases ha
    cases hb
    exact hlt
  last := List.getLast?_concat

/-- No two facts of a climb stand equally high. -/
theorem nodup_heights (h : Climb hs v) : (hs.map height).Nodup :=
  h.rises.pairwise.map height fun _ _ hlt => (height_lt_of_lt hlt).ne

theorem length_le (h : Climb hs v) : hs.length ≤ 3 := by
  have hheights : hs.map height ⊆ List.range 3 := by
    intro n hn
    obtain ⟨a, -, rfl⟩ := List.mem_map.mp hn
    exact List.mem_range.mpr (Nat.lt_succ_of_le a.height_le_two)
  have hlength := (h.nodup_heights.subperm hheights).length_le
  rwa [List.length_map, List.length_range] at hlength

theorem const_unique (h : Climb hs v) {a b : Int64} (ha : .const a ∈ hs) (hb : .const b ∈ hs) :
    a = b :=
  Fact.const.inj (List.inj_on_of_nodup_map h.nodup_heights ha hb rfl)

theorem length_pos (h : Climb hs v) : 0 < hs.length := by
  apply List.length_pos_of_mem
  exact List.mem_of_mem_head? h.head

/-- Who ends at the bottom never left it. -/
theorem eq_unknown (h : Climb hs .unknown) : hs = [.unknown] := by
  obtain ⟨rest, rfl⟩ := List.head?_eq_some_iff.mp h.head
  cases rest with
  | nil => rfl
  | cons a rest =>
    have hlast : Fact.unknown ∈ a :: rest :=
      List.mem_of_getLast? (by rw [← h.last, List.getLast?_cons_cons])
    exact absurd (List.rel_of_pairwise_cons h.rises.pairwise hlast) (lt_irrefl _)

end Climb

end Fact

/-! ## What is on record -/

/-- The facts that a slot went through so far, if they are recorded. -/
def State.history? (s : State) (id : InstrId) : Option (List Fact) :=
  s.history.bind (·[id]?)

/-- Every slot has a record that leads up to its fact, and the records have as many steps as changes
were counted. A slot that is not live has no fact and stays at the bottom. -/
structure Recorded (f : Func) (s : State) : Prop where
  climb : ∀ {id : InstrId}, id < f.slotCount →
    ∃ hs, s.history? id = some hs ∧ Fact.Climb hs ((s.facts.get? id).getD .unknown)
  changes : s.changes = ∑ id ∈ Finset.range f.slotCount, (((s.history? id).getD []).length - 1)

section Records
variable {due : State → Task → Prop} {f : Func} {s₀ s s₁ s' : State} {todo : List InstrId}
  {id : InstrId} {v w : Fact} {m : FactMap}

theorem State.history?_raise (s : State) (id : InstrId) (v : Fact) (m : FactMap) (j : InstrId) :
    (s.raise id v m).history? j =
      if j = id then (s.history? j).map (· ++ [v]) else s.history? j := by
  unfold history? raise
  cases s.history with
  | none => simp
  | some hist =>
    simp only [Option.map_some, Option.bind_some, Array.getElem?_modify]
    split <;> split <;> simp_all

/-- A fact that rises adds one step to its record. -/
theorem Recorded.raise (h : Recorded f s) (hid : id < f.slotCount)
    (hup : s.facts.update id v = .ok (some w, m)) : Recorded f (s.raise id w m) := by
  obtain ⟨old, hold, hlt, hget⟩ := FactMap.update_raises hup
  obtain ⟨hs, hhs, hclimb⟩ := h.climb hid
  rw [hold, Option.getD_some] at hclimb
  constructor
  · intro j hj
    rw [State.history?_raise]
    show ∃ hs, _ ∧ Fact.Climb hs ((m.get? j).getD .unknown)
    rw [hget]
    split
    · next heq =>
      subst heq
      exact ⟨hs ++ [w], by rw [hhs, Option.map_some], hclimb.raise hlt⟩
    · exact h.climb hj
  · have hsum := sum_range_change (F := fun j => ((s.history? j).getD []).length - 1)
      (G := fun j => (((s.raise id w m).history? j).getD []).length - 1) hid
      fun j hj => by rw [State.history?_raise, if_neg hj]
    simp only [State.history?_raise s id w m id, if_pos, hhs, Option.map_some, Option.getD_some,
      List.length_append, List.length_singleton] at hsum
    have hpos := hclimb.length_pos
    have hchanges := h.changes
    show s.changes + 1 = _
    omega

theorem Recorded.visit (h : Recorded f s) (hv : s.visit f id = .ok s') : Recorded f s' := by
  obtain ⟨i, y, t, hi, -, ht, hcases⟩ := State.visit_cases hv
  obtain ⟨blocks, rfl, -⟩ := State.growsBlocks_foldlM _ ht
  have h : Recorded f { s with blocks := blocks } := ⟨h.climb, h.changes⟩
  rcases hcases with ⟨m, -, rfl⟩ | ⟨v, m, hup, hfold⟩
  · exact h
  · obtain ⟨_, rfl, -⟩ := State.growsInstrs_foldlM State.growsInstrs_enqueueUser _ hfold
    have h := h.raise (Func.lt_slotCount (Func.instr_eq_ok.mp hi)) hup
    exact ⟨h.climb, h.changes⟩

/-- What a task does before its first visit leaves facts, records and the count alone. -/
theorem Recorded.task (h : Recorded f s) {t : Task} (htake : s.take? t = some s₁)
    (hs' : prepare f t s₁ = .ok todo s') : Recorded f s' := by
  unfold State.take? at htake
  cases t with
  | instr id =>
    rw [Option.ite_none_right_eq_some, Option.some.injEq] at htake
    obtain ⟨-, rfl⟩ := htake
    cases hs'
    exact ⟨h.climb, h.changes⟩
  | block b =>
    rw [Option.ite_none_right_eq_some, Option.some.injEq] at htake
    obtain ⟨-, rfl⟩ := htake
    unfold prepare at hs'
    dsimp only at hs'
    split at hs'
    · split at hs'
      · cases hs'
      · obtain ⟨_, rfl, -⟩ := growsInstrs_openBlock hs'
        exact ⟨h.climb, h.changes⟩
    · cases hs'
      exact ⟨h.climb, h.changes⟩

theorem recorded_start (hp : f.Placed) (h : State.start f true = .ok s) : Recorded f s := by
  have hfact := (State.initial_start hp h).1.fact
  unfold State.start at h
  simp only [bind, Except.bind] at h
  split at h
  · cases h
  · split at h
    · cases h
    · obtain ⟨_, rfl, -⟩ := State.growsBlocks_enqueue h
      have hrecord : ∀ id < f.slotCount,
          (Array.replicate f.slotCount [Fact.unknown])[id]? = some [.unknown] := by
        intro id hid
        rw [Array.getElem?_replicate, if_pos hid]
      constructor
      · intro id hid
        refine ⟨[.unknown], hrecord id hid, ?_⟩
        rw [hfact]
        cases f.instr? id <;> exact Fact.climb_unknown
      · refine (Finset.sum_eq_zero fun id hid => ?_).symm
        rw [State.history?]
        simp only [if_true, Option.bind_some, hrecord id (Finset.mem_range.mp hid)]
        rfl

/-- The records are complete at every stage of a run, whatever the order of its tasks. -/
theorem Stage.recorded (h₀ : Recorded f s₀) (h : Stage due f s₀ s todo) : Recorded f s := by
  induction h with
  | start => exact h₀
  | task _ _ taken prepared ih => exact ih.task taken prepared
  | visit _ visited ih => exact ih.visit visited

end Records

/-! ## Without the record -/

/-- The state without its record. -/
def State.forget (s : State) : State :=
  { s with history := none }

/-- The outcome without the record. -/
def forgetIn {α : Type} : EStateM.Result Error State α → EStateM.Result Error State α
  | .ok a s => .ok a s.forget
  | .error e s => .error e s.forget

namespace State
variable (f : Func) (s : State)

@[simp] theorem facts_forget : s.forget.facts = s.facts := rfl
@[simp] theorem visits_forget : s.forget.visits = s.visits := rfl
@[simp] theorem blocks_forget : s.forget.blocks = s.blocks := rfl
@[simp] theorem instrs_forget : s.forget.instrs = s.instrs := rfl
@[simp] theorem turn_forget : s.forget.turn = s.turn := rfl

/-- A fold over steps that do not look at the record does not look at it. -/
theorem foldlM_forget {step : State → Nat → Except Error State}
    (hstep : ∀ s a, step s.forget a = (step s a).map forget) (as : List Nat) (s : State) :
    as.foldlM step s.forget = (as.foldlM step s).map forget := by
  induction as generalizing s with
  | nil => rfl
  | cons a as ih =>
    rw [List.foldlM_cons, List.foldlM_cons, hstep]
    cases step s a with
    | error e => rfl
    | ok s' => exact ih s'

theorem enqueueBlock_forget (b : BlockId) :
    s.forget.enqueueBlock f b = (s.enqueueBlock f b).map forget := by
  unfold enqueueBlock
  rw [blocks_forget]
  split
  · cases s.blocks.push b <;> rfl
  · rfl

theorem enqueueInstr_forget (id : InstrId) :
    s.forget.enqueueInstr id = (s.enqueueInstr id).map forget := by
  unfold enqueueInstr
  rw [instrs_forget]
  split
  · cases s.instrs.push id <;> rfl
  · rfl

theorem enqueueUser_forget (id : InstrId) :
    s.forget.enqueueUser f id = (s.enqueueUser f id).map forget := by
  unfold enqueueUser
  rw [visits_forget]
  split
  · exact enqueueInstr_forget s id
  · rfl

theorem visit_forget (id : InstrId) : s.forget.visit f id = (s.visit f id).map forget := by
  unfold visit
  simp only [bind, Except.bind, facts_forget, visits_forget, foldlM_forget (enqueueBlock_forget f)]
  cases f.instr id with
  | error e => rfl
  | ok i =>
    dsimp only
    cases evaluate s.facts s.visits i with
    | error e => rfl
    | ok y =>
      dsimp only
      cases y.targets.foldlM (enqueueBlock f) s with
      | error e => rfl
      | ok s₁ =>
        dsimp only [Except.map, facts_forget]
        cases s₁.facts.update id y.fact with
        | error e => rfl
        | ok p =>
          obtain ⟨o, m⟩ := p
          cases o with
          | none => rfl
          | some v => exact foldlM_forget (enqueueUser_forget f) _ (s₁.raise id v m)

theorem next?_forget : s.forget.next? = s.next?.map (Option.map (Prod.map id forget)) := by
  have hblock : s.forget.popBlock? = s.popBlock?.map (Option.map (Prod.map id forget)) := by
    unfold popBlock?
    rw [blocks_forget]
    rcases s.blocks.pop? with e | _ | p <;> rfl
  have hinstr : s.forget.popInstr? = s.popInstr?.map (Option.map (Prod.map id forget)) := by
    unfold popInstr?
    rw [instrs_forget]
    rcases s.instrs.pop? with e | _ | p <;> rfl
  unfold next?
  rw [turn_forget, hblock, hinstr]
  cases s.turn with
  | blocks => rcases s.popBlock? with e | _ | p <;> rfl
  | instrs => rcases s.popInstr? with e | _ | p <;> rfl

theorem start_forget : start f false = (start f true).map forget := by
  unfold start
  simp only [bind, Except.bind]
  cases FactMap.ofFunc f with
  | error e => rfl
  | ok m =>
    dsimp only
    cases f.isEmpty with
    | true => rfl
    | false =>
      simp only [Bool.false_eq_true, if_false, if_true, ← enqueueBlock_forget]
      rfl

end State

theorem visitAll_forget (f : Func) (ids : List InstrId) (s : State) :
    visitAll f ids s.forget = forgetIn (visitAll f ids s) := by
  induction ids generalizing s with
  | nil => rfl
  | cons id ids ih =>
    unfold visitAll
    rw [State.visit_forget]
    cases s.visit f id with
    | error e => rfl
    | ok s' => exact ih s'

theorem openBlock_forget (f : Func) (b : BlockId) (first : Bool) (s : State) :
    openBlock f b first s.forget = forgetIn (openBlock f b first s) := by
  unfold openBlock
  simp only [State.visits_forget, State.foldlM_forget State.enqueueInstr_forget]
  cases (if first then phisFedBy f s.visits b else []).foldlM State.enqueueInstr s with
  | error e => rfl
  | ok s' =>
    dsimp only [Except.map]
    cases f.block b <;> rfl

theorem prepare_forget (f : Func) (t : Task) (s : State) :
    prepare f t s.forget = forgetIn (prepare f t s) := by
  cases t with
  | instr id => rfl
  | block b =>
    unfold prepare
    dsimp only
    by_cases hopen : s.visits.isOpen b = true
    · rw [if_pos hopen, if_pos (show s.forget.visits.isOpen b = true from hopen),
        State.visits_forget]
      cases s.visits.enter b with
      | error e => rfl
      | ok p => exact openBlock_forget f b _ (s.enterBlock b p.1 p.2)
    · rw [if_neg hopen, if_neg (show ¬ s.forget.visits.isOpen b = true from hopen)]
      rfl

theorem perform_forget (f : Func) (t : Task) (s : State) :
    perform f t s.forget = forgetIn (perform f t s) := by
  rw [perform_eq, perform_eq, prepare_forget]
  cases prepare f t s with
  | error e s' => rfl
  | ok ids s' => exact visitAll_forget f ids s'

/-- A run without a record does what a run with one does, and ends or fails as that does. -/
theorem runTasks_forget (f : Func) (s : State) :
    runTasks f s.forget = forgetIn (runTasks f s) := by
  induction s using runTasks.induct f with
  | case1 s e hn => rw [runTasks_eq f s, runTasks_eq f s.forget, State.next?_forget, hn]; rfl
  | case2 s hn => rw [runTasks_eq f s, runTasks_eq f s.forget, State.next?_forget, hn]; rfl
  | case3 s t s₁ hn e s₂ hperform =>
    rw [runTasks_eq f s, runTasks_eq f s.forget, State.next?_forget, hn]
    simp only [Except.map, Option.map_some, Prod.map_apply, id, perform_forget, hperform, forgetIn]
  | case4 s t s₁ hn u s₂ hperform ih =>
    rw [runTasks_eq f s, runTasks_eq f s.forget, State.next?_forget, hn]
    simp only [Except.map, Option.map_some, Prod.map_apply, id, perform_forget, hperform]
    exact ih

/-- An analysis without a record comes to the same result, and takes the same notes. -/
theorem Func.analyse_forget (f : Func) :
    (f.analyse false).result = (f.analyse true).result.map (fun r => { r with history := none }) ∧
      (f.analyse false).notes = (f.analyse true).notes := by
  unfold analyse
  rw [State.start_forget]
  cases State.start f true with
  | error e => exact ⟨rfl, rfl⟩
  | ok s =>
    dsimp only [Except.map]
    rw [runTasks_forget]
    cases runTasks f s with
    | error e s' => exact ⟨rfl, rfl⟩
    | ok u s' => exact ⟨rfl, rfl⟩

/-- In a recorded solution of a function that was built and edited, valid or not, the record of a
live instruction starts with nothing known, rises with every step, and ends with the fact of the
instruction. So it has at most three entries, and never two constants. An empty slot stays where it
started, and the steps of all records are the changes that were counted. Without the record the
solution is the same, or the analysis fails in the same way. -/
theorem solve_history (name : String) (script : List Stmt) (edits : List Edit) (f : Func)
    (hf : f = (Func.ofScript name script).edited edits) :
    (∀ r, f.solve true = .ok r →
      (∀ id i, f.instr? id = some i → ∃ hs v, r.history? id = some hs ∧ r.fact? id = some v ∧
        hs.head? = some .unknown ∧ hs.IsChain (· < ·) ∧ hs.getLast? = some v ∧ hs.length ≤ 3 ∧
        ∀ a b, .const a ∈ hs → .const b ∈ hs → a = b) ∧
      (∀ id < f.slotCount, f.instr? id = none → r.history? id = some [.unknown]) ∧
      r.changes = ∑ id ∈ Finset.range f.slotCount, (((r.history? id).getD []).length - 1)) ∧
    f.solve false = (f.solve true).map fun r => { r with history := none } := by
  have hp : f.Placed := hf ▸ (Func.consistent_edited name script edits).placed
  refine ⟨fun r hr => ?_, f.analyse_forget.1⟩
  obtain ⟨s₀, s, hs₀, hstage, -, -, rfl⟩ := solve_stage hp hr
  have ht := hstage.tidy hp (State.initial_start hp hs₀).2
  have h := hstage.recorded (recorded_start hp hs₀)
  refine ⟨fun id i hi => ?_, fun id hid hdead => ?_, h.changes⟩
  · obtain ⟨v, hv⟩ := ht.fact hi
    obtain ⟨hs, hhs, hclimb⟩ := h.climb (Func.lt_slotCount hi)
    rw [hv, Option.getD_some] at hclimb
    exact ⟨hs, v, hhs, hv, hclimb.head, hclimb.rises, hclimb.last, hclimb.length_le,
      fun _ _ => hclimb.const_unique⟩
  · obtain ⟨hs, hhs, hclimb⟩ := h.climb hid
    have hfact := ht.live id
    rw [hdead, Option.isSome_none, Option.isSome_eq_false_iff, Option.isNone_iff_eq_none] at hfact
    rw [hfact, Option.getD_none] at hclimb
    exact hhs.trans (congrArg some hclimb.eq_unknown)

theorem solve_history_danglingLoop : danglingLoop.validate ≠ .ok () ∧ ∃ r,
    danglingLoop.solve true = .ok r ∧ r.history? 3 = some [.unknown, .const 1, .overdefined] ∧
    r.fact? 3 = some .overdefined ∧ danglingLoop.instr? 7 = none ∧ r.history? 7 = some [.unknown] ∧
    r.changes = ∑ id ∈ Finset.range danglingLoop.slotCount,
      (((r.history? id).getD []).length - 1) ∧
    danglingLoop.solve false = .ok { r with history := none } := by
  have hsolve : ∃ r ∈ (danglingLoop.solve true).toOption,
      r.history? 3 = some [.unknown, .const 1, .overdefined] := by decide +kernel
  obtain ⟨r, hr, hrecord⟩ := hsolve
  have hr : danglingLoop.solve true = .ok r := eq_ok_of_mem_toOption hr
  obtain ⟨hrecorded, hforget⟩ := solve_history "count" _ [.remove 7] danglingLoop rfl
  obtain ⟨hlive, hdead, hchanges⟩ := hrecorded r hr
  have hseven : danglingLoop.instr? 7 = none := by decide +kernel
  have hthree : ∃ i, danglingLoop.instr? 3 = some i := by
    apply Option.isSome_iff_exists.mp
    decide +kernel
  obtain ⟨i, hi⟩ := hthree
  obtain ⟨hs, v, hhs, hv, -, -, hlast, -, -⟩ := hlive 3 i hi
  rw [hrecord, Option.some.injEq] at hhs
  subst hhs
  obtain rfl : v = .overdefined := (Option.some.inj hlast).symm
  rw [hr] at hforget
  exact ⟨by decide +kernel, r, hr, hrecord, hv, hseven, hdead 7 (by decide +kernel) hseven,
    hchanges, hforget⟩

end ConstFlow
