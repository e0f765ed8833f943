import ConstFlow.Flow.State

/-!
# Why the analysis ends

Every fact can rise at most twice and every block has a limited number of visits left. Each rise
and each visit may put further work on the two lists, but only so much of it: a rise at most the
users of one value, a block visit at most the instructions of the function. `State.potential`
therefore weighs what facts and visits have left by more than that, and adds three for every
waiting instruction and one for every waiting block.

Main statement: `potential_perform_lt`, a task that was taken off its list and performed lowers
the potential.
-/

namespace ConstFlow

/-! ## What is left to do -/

section Sums

-- the zero of the sums, whatever other instances are in scope
local instance (priority := 2000) zeroNat : Zero Nat := Zero.ofOfNat0

theorem sum_map_set {α : Type} (g : α → Nat) {l : List α} {i : Nat} {x : α}
    (h : l[i]? = some x) (y : α) : ((l.set i y).map g).sum + g x = (l.map g).sum + g y := by
  obtain ⟨hi, rfl⟩ := List.getElem?_eq_some_iff.mp h
  obtain ⟨before, after, hl, -, hset⟩ := @List.exists_of_set _ i y l hi
  have hsum : (l.map g).sum = (before.map g).sum + (g l[i] + (after.map g).sum) := by
    conv => lhs; rw [hl]
    simp
  rw [hset, hsum]
  simp only [List.map_append, List.map_cons, List.sum_append_nat, List.sum_cons]
  omega

/-- The steps that the facts can still rise. -/
def FactMap.climb (m : FactMap) : Nat :=
  (m.facts.toList.map fun v => 2 - v.height).sum

/-- The visits that the blocks can still take. -/
def Visits.left (x : Visits) : Nat :=
  (x.tallies.toList.map Tally.left).sum

end Sums

def Func.userCount (f : Func) : Nat :=
  f.users.toList.flatten.length

/-- More than the work that one rise or one visit can put on the lists. -/
def Func.weight (f : Func) : Nat :=
  3 * f.userCount + 5 * f.listedCount + 1

/-- What bounds the tasks to come. -/
def State.potential (f : Func) (s : State) : Nat :=
  f.weight * (s.facts.climb + s.visits.left) + 3 * s.instrs.pending.length +
    s.blocks.pending.length

/-- An update that changes a fact uses up part of the climb. -/
theorem FactMap.climb_update_lt {m m' : FactMap} {id : InstrId} {v w : Fact}
    (h : m.update id v = .ok (some w, m')) : m'.climb < m.climb := by
  unfold update at h
  split at h
  · cases h
  · next old hold =>
    split at h
    · cases h
    · next hne =>
      simp only [Except.ok.injEq, Prod.mk.injEq, Option.some.injEq] at h
      obtain ⟨-, rfl⟩ := h
      have hget : m.facts[id]? = some old := by
        unfold get? at hold
        split at hold
        · exact hold
        · cases hold
      have hsum := sum_map_set (fun v : Fact => 2 - v.height) (l := m.facts.toList)
        (by simpa using hget) (old.join v)
      have hrise := Fact.height_lt_join hne
      have htop := Fact.height_le_two (old.join v)
      simp only [climb, Array.toList_setIfInBounds]
      omega

/-- Entering an open block uses up one of its visits. -/
theorem Visits.left_enter_lt {x x' : Visits} {b : BlockId} {n : Nat} (ho : x.isOpen b)
    (h : x.enter b = .ok (n, x')) : x'.left < x.left := by
  unfold isOpen at ho
  unfold enter at h
  split at h
  · next t ht =>
    simp only [ht] at ho
    simp only [Except.ok.injEq, Prod.mk.injEq] at h
    obtain ⟨-, rfl⟩ := h
    have hsum := sum_map_set Tally.left (l := x.tallies.toList) (by simpa [tally?] using ht) t.succ
    have := Tally.left_succ_lt ho
    simp only [left, Array.toList_setIfInBounds]
    omega
  · cases h

/-! ## What a visit adds -/

/-- An operation of two operands has no edges. -/
theorem evalBinary_targets {m : FactMap} {g : Int64 → Int64 → Int64} {left right : Operand}
    {y : Yield} (h : evalBinary m g left right = .ok y) : y.targets = [] := by
  unfold evalBinary at h
  split at h
  · cases h
  · split at h
    · cases h
    · cases h
      rfl

theorem branchTargets_le {b onTrue onFalse : BlockId} {v : Fact} {ts : List BlockId}
    (h : branchTargets b v onTrue onFalse = .ok ts) : ts.length ≤ 2 := by
  unfold branchTargets at h
  split at h
  · split at h
    · cases h; simp
    · split at h
      · cases h; simp
      · cases h
  · cases h; simp

/-- An instruction has at most two edges that may be taken. -/
theorem evaluate_targets_le {m : FactMap} {x : Visits} {i : Instr} {y : Yield}
    (h : evaluate m x i = .ok y) : y.targets.length ≤ 2 := by
  unfold evaluate at h
  split at h
  · cases h
    simp
  · split at h
    · cases h
    · next _ onTrue onFalse _ _ v _ =>
      cases hb : branchTargets i.block v onTrue onFalse with
      | error e => simp [hb, Except.map] at h
      | ok ts =>
        simp only [hb, Except.map, Except.ok.injEq] at h
        subst h
        exact branchTargets_le hb
  · simp [evalBinary_targets h]
  · simp [evalBinary_targets h]
  · simp [evalBinary_targets h]
  · next inputs _ =>
    cases hp : evalPhi m x .unknown inputs with
    | error e => simp [hp, Except.map] at h
    | ok v =>
      simp only [hp, Except.map, Except.ok.injEq] at h
      subst h
      simp
  · cases h
    simp
  · cases h
    simp

namespace State

/-- Only the list of blocks changes, and it grows by at most `n`. -/
def GrowsBlocks (s s' : State) (n : Nat) : Prop :=
  ∃ w : Worklist, s' = { s with blocks := w } ∧ w.pending.length ≤ s.blocks.pending.length + n

/-- Only the list of instructions changes, and it grows by at most `n`. -/
def GrowsInstrs (s s' : State) (n : Nat) : Prop :=
  ∃ w : Worklist, s' = { s with instrs := w } ∧ w.pending.length ≤ s.instrs.pending.length + n

theorem growsBlocks_enqueue {f : Func} {s s' : State} {b : BlockId}
    (h : enqueueBlock f s b = .ok s') : GrowsBlocks s s' 1 := by
  unfold enqueueBlock at h
  split at h
  · split at h
    · cases h
    · next w hw =>
      cases h
      exact ⟨w, rfl, Worklist.length_push hw⟩
  · cases h

theorem growsBlocks_foldlM {f : Func} (bs : List BlockId) {s s' : State}
    (h : bs.foldlM (enqueueBlock f) s = .ok s') : GrowsBlocks s s' bs.length := by
  induction bs generalizing s with
  | nil =>
    cases h
    exact ⟨s'.blocks, rfl, by simp⟩
  | cons b bs ih =>
    rw [List.foldlM_cons] at h
    cases hb : enqueueBlock f s b with
    | error e => simp [hb, bind, Except.bind] at h
    | ok t =>
      rw [hb] at h
      obtain ⟨w, rfl, hw⟩ := growsBlocks_enqueue hb
      obtain ⟨w', rfl, hw'⟩ := ih h
      refine ⟨w', rfl, ?_⟩
      simp only [List.length_cons]
      simp only at hw'
      omega

theorem growsInstrs_enqueue {s s' : State} {id : InstrId} (h : s.enqueueInstr id = .ok s') :
    GrowsInstrs s s' 1 := by
  unfold enqueueInstr at h
  split at h
  · split at h
    · cases h
    · next w hw =>
      cases h
      exact ⟨w, rfl, Worklist.length_push hw⟩
  · cases h
    exact ⟨s.instrs, rfl, by simp⟩

theorem growsInstrs_enqueueUser {f : Func} {s s' : State} {id : InstrId}
    (h : enqueueUser f s id = .ok s') : GrowsInstrs s s' 1 := by
  unfold enqueueUser at h
  split at h
  · exact growsInstrs_enqueue h
  · cases h
    exact ⟨s.instrs, rfl, by simp⟩

/-- What one step adds, a fold adds once for each entry. -/
theorem growsInstrs_foldlM {step : State → InstrId → Except Error State}
    (hstep : ∀ {s s' : State} {id : InstrId}, step s id = .ok s' → GrowsInstrs s s' 1)
    (ids : List InstrId) {s s' : State} (h : ids.foldlM step s = .ok s') :
    GrowsInstrs s s' ids.length := by
  induction ids generalizing s with
  | nil =>
    cases h
    exact ⟨s'.instrs, rfl, by simp⟩
  | cons id ids ih =>
    rw [List.foldlM_cons] at h
    cases hid : step s id with
    | error e => simp [hid, bind, Except.bind] at h
    | ok t =>
      rw [hid] at h
      obtain ⟨w, rfl, hw⟩ := hstep hid
      obtain ⟨w', rfl, hw'⟩ := ih h
      refine ⟨w', rfl, ?_⟩
      simp only [List.length_cons]
      simp only at hw'
      omega

end State

theorem Func.length_usersOf_le (f : Func) (id : InstrId) :
    (f.usersOf id).length ≤ f.userCount := by
  unfold usersOf userCount
  cases h : f.users[id]? with
  | none => simp
  | some l =>
    have hl : l ∈ f.users.toList := by simpa using Array.mem_of_getElem? h
    exact (List.sublist_flatten_of_mem hl).length_le

/-- What a visit to an instruction does: the targets wait, and if the fact rose the users do. -/
theorem State.visit_cases {f : Func} {s s' : State} {id : InstrId} (h : s.visit f id = .ok s') :
    ∃ (i : Instr) (y : Yield) (s₁ : State), f.instr id = .ok i ∧
      evaluate s.facts s.visits i = .ok y ∧
      y.targets.foldlM (enqueueBlock f) s = .ok s₁ ∧
      ((∃ m, s₁.facts.update id y.fact = .ok (none, m) ∧ s' = s₁) ∨
        ∃ v m, s₁.facts.update id y.fact = .ok (some v, m) ∧
          (f.usersOf id).foldlM (enqueueUser f) (s₁.raise id v m) = .ok s') := by
  unfold visit at h
  simp only [bind, Except.bind] at h
  split at h
  · cases h
  · next i hi =>
    split at h
    · cases h
    · next y hy =>
      split at h
      · cases h
      · next s₁ hs₁ =>
        split at h
        · cases h
        · next p hp =>
          obtain ⟨o, m⟩ := p
          cases o with
          | none =>
            simp only [pure, Except.pure, Except.ok.injEq] at h
            exact ⟨i, y, s₁, hi, hy, hs₁, .inl ⟨m, hp, h.symm⟩⟩
          | some v => exact ⟨i, y, s₁, hi, hy, hs₁, .inr ⟨v, m, hp, h⟩⟩

/-- A visit to an instruction raises the potential by at most two: by the targets it makes
wait. -/
theorem State.potential_visit_le {f : Func} {s s' : State} {id : InstrId}
    (h : s.visit f id = .ok s') : s'.potential f ≤ s.potential f + 2 := by
  obtain ⟨i, y, s₁, -, hy, hs₁, hcases⟩ := visit_cases h
  have hlen := evaluate_targets_le hy
  obtain ⟨w, rfl, hw⟩ := growsBlocks_foldlM _ hs₁
  rcases hcases with ⟨m, -, rfl⟩ | ⟨v, m, hup, hfold⟩
  · simp only [potential]
    omega
  · obtain ⟨w', rfl, hw'⟩ := growsInstrs_foldlM growsInstrs_enqueueUser _ hfold
    have hclimb := FactMap.climb_update_lt hup
    have husers := f.length_usersOf_le id
    simp only [raise] at hw'
    simp only [raise, potential]
    have hmul : f.weight * (m.climb + s.visits.left) + f.weight ≤
        f.weight * (s.facts.climb + s.visits.left) := by
      rw [← Nat.mul_succ]
      exact Nat.mul_le_mul_left _ (by simp only at hclimb; omega)
    have hweight : 3 * f.userCount ≤ f.weight := by
      unfold Func.weight
      omega
    omega

theorem potential_visitAll_le {f : Func} (ids : List InstrId) {s s' : State} {u : Unit}
    (h : visitAll f ids s = .ok u s') : s'.potential f ≤ s.potential f + 2 * ids.length := by
  induction ids generalizing s with
  | nil =>
    cases h
    simp
  | cons id ids ih =>
    unfold visitAll at h
    split at h
    · next t ht =>
      have h₁ := State.potential_visit_le ht
      have h₂ := ih h
      simp only [List.length_cons]
      omega
    · cases h

/-! ## What a task takes away -/

theorem Func.length_blockInstrs_le (f : Func) (b : BlockId) :
    (f.blockInstrs b).length ≤ ((f.blocks[b]?.map (·.instrs)).getD []).length := by
  unfold blockInstrs block?
  split
  · next blk h => simpa [h] using List.length_filterMap_le _ _
  · simp

/-- The lists of the blocks, read by number. -/
theorem Func.flatMap_range_instrs (f : Func) :
    (List.range f.blockCount).flatMap (fun b => (f.blocks[b]?.map (·.instrs)).getD []) =
      f.blocks.toList.flatMap (·.instrs) := by
  unfold blockCount
  rw [List.flatMap_def, List.flatMap_def]
  congr 1
  apply List.ext_getElem
  · simp
  · intro i h₁ h₂
    simp only [List.length_map, List.length_range] at h₁
    simp [h₁]

/-- The phis that a block feeds are listed in the function. -/
theorem length_phisFedBy_le (f : Func) (x : Visits) (b : BlockId) :
    (phisFedBy f x b).length ≤ f.listedCount := by
  unfold phisFedBy
  rw [Func.listedCount, ← f.flatMap_range_instrs]
  generalize List.range f.blockCount = l
  induction l with
  | nil => simp
  | cons a l ih =>
    have ha := f.length_blockInstrs_le a
    have hf := List.length_filter_le
      (fun i : Instr => i.op.phiInputs.any (·.pred == b)) (f.blockInstrs a)
    simp only [List.flatMap_cons, List.filter_cons, List.length_append]
    split
    · simp only [List.flatMap_cons, List.length_append, List.length_map]
      omega
    · omega

/-- A visit to a block adds less than the weight. -/
theorem potential_visitBlock_lt {f : Func} {b : BlockId} {first : Bool} {s s' : State} {u : Unit}
    (h : visitBlock f b first s = .ok u s') : s'.potential f < s.potential f + f.weight := by
  unfold visitBlock at h
  split at h
  · cases h
  · next t ht =>
    split at h
    · cases h
    · next blk hblk =>
      obtain ⟨w, rfl, hw⟩ := State.growsInstrs_foldlM State.growsInstrs_enqueue _ ht
      have hlist : (if first then phisFedBy f s.visits b else []).length ≤ f.listedCount := by
        split
        · exact length_phisFedBy_le f s.visits b
        · simp
      have hvisit := potential_visitAll_le _ h
      have hblk' : blk.instrs.length ≤ f.listedCount := by
        unfold Func.block Func.block? at hblk
        split at hblk
        · next blk' hget =>
          cases hblk
          have hmem : blk ∈ f.blocks.toList := by simpa using Array.mem_of_getElem? hget
          rw [Func.listedCount, List.flatMap_def]
          exact (List.sublist_flatten_of_mem (List.mem_map_of_mem hmem)).length_le
        · cases hblk
      simp only [State.potential] at hvisit ⊢
      simp only [Func.weight] at hvisit ⊢
      omega

/-- Taking a task off its list lowers the potential by one for a block and by three for an
instruction. -/
theorem State.potential_next {f : Func} {s s' : State} {t : Task}
    (h : s.next? = .ok (some (t, s'))) :
    match t with
    | .block _ => s.potential f = s'.potential f + 1
    | .instr _ => s.potential f = s'.potential f + 3 := by
  have hblock : ∀ {t s'}, s.popBlock? = .ok (some (t, s')) →
      ∃ b, t = .block b ∧ s.potential f = s'.potential f + 1 := by
    intro t s' h
    unfold popBlock? at h
    split at h
    · cases h
    · cases h
    · next b w hw =>
      simp only [Except.ok.injEq, Option.some.injEq, Prod.mk.injEq] at h
      obtain ⟨rfl, rfl⟩ := h
      have := Worklist.length_pop hw
      refine ⟨b, rfl, ?_⟩
      simp only [potential]
      omega
  have hinstr : ∀ {t s'}, s.popInstr? = .ok (some (t, s')) →
      ∃ id, t = .instr id ∧ s.potential f = s'.potential f + 3 := by
    intro t s' h
    unfold popInstr? at h
    split at h
    · cases h
    · cases h
    · next id w hw =>
      simp only [Except.ok.injEq, Option.some.injEq, Prod.mk.injEq] at h
      obtain ⟨rfl, rfl⟩ := h
      have := Worklist.length_pop hw
      refine ⟨id, rfl, ?_⟩
      simp only [potential]
      omega
  have hboth : s.popBlock? = .ok (some (t, s')) ∨ s.popInstr? = .ok (some (t, s')) := by
    unfold next? at h
    split at h
    · split at h
      · exact .inr h
      · exact .inl h
    · split at h
      · exact .inl h
      · exact .inr h
  rcases hboth with hpop | hpop
  · obtain ⟨b, rfl, hb⟩ := hblock hpop
    exact hb
  · obtain ⟨id, rfl, hid⟩ := hinstr hpop
    exact hid

/-- A task that was due and was performed lowers the potential. -/
theorem potential_perform_lt {f : Func} {s s₁ s₂ : State} {t : Task} {u : Unit}
    (hn : s.next? = .ok (some (t, s₁))) (hp : perform f t s₁ = .ok u s₂) :
    s₂.potential f < s.potential f := by
  have hpot := State.potential_next (f := f) hn
  cases t with
  | block b =>
    unfold perform at hp
    simp only at hp hpot
    split at hp
    · next hopen =>
      split at hp
      · cases hp
      · next count x hx =>
        have hleft := Visits.left_enter_lt hopen hx
        have hvisit := potential_visitBlock_lt hp
        simp only [State.enterBlock, State.potential] at hvisit
        have hmul : f.weight * (s₁.facts.climb + x.left) + f.weight ≤
            f.weight * (s₁.facts.climb + s₁.visits.left) := by
          rw [← Nat.mul_succ]
          exact Nat.mul_le_mul_left _ (by omega)
        simp only [State.potential] at hpot ⊢
        omega
    · cases hp
      have : (s₁.note (.limitReached b)).potential f = s₁.potential f := rfl
      omega
  | instr id =>
    unfold perform at hp
    simp only at hp hpot
    split at hp
    · next t ht =>
      cases hp
      have := State.potential_visit_le ht
      have heq : ({ s₁ with instrVisits := s₁.instrVisits + 1 } : State).potential f =
          s₁.potential f := rfl
      omega
    · cases hp

end ConstFlow
