import ConstFlow.Proofs.Comparison

/-!
# What a phi hears of

A block that is reached for the first time makes the phis wait that name it, but only those to which
it still has an edge. A phi that names any other block may have been visited before, without that
entry. It need not have missed anything: the block may lie on every way to the phi, and so have been
reached first, or the value may be computed in that block, and so make its users wait when it is
visited.

* `Func.Gates`, `Func.Hears` : the blocks on every way through some blocks, and the entries of which
  a phi hears in one of the three ways;
* `Heeding` : the invariant. The fact of an entry that counts and is heard of is below the phi's, or
  the phi waits or is still to be visited;
* `Func.Regular.solve_hearing` : a run below a solution is itself one at its end, if the phis that
  the solution has overdefined hear of all entries that count there.
-/

namespace ConstFlow

/-- Every way to `b` through blocks in `on` leads over `a`. -/
def Func.Gates (f : Func) (on : BlockId → Bool) (a b : BlockId) : Prop :=
  ∀ way, f.Walk (b :: way) → (∀ c ∈ b :: way, on c = true) → a ∈ b :: way

/-- A phi hears of an entry: an edge leads from the block that it names, or every way to the phi
leads over that block, or the value is computed there. -/
def Func.Hears (f : Func) (on : BlockId → Bool) (i : Instr) (p : PhiInput) : Prop :=
  i.block ∈ f.succs p.pred ∨ f.Gates on p.pred i.block ∨
    ∃ d j, p.value = .value d ∧ f.instr? d = some j ∧ j.block = p.pred

theorem Func.Walk.entry_mem {f : Func} {way : List BlockId} (h : f.Walk way) :
    Func.entry ∈ way := by
  induction h with
  | entry => exact List.mem_singleton_self _
  | edge _ _ ih => exact List.mem_cons_of_mem _ ih

theorem Func.gates_entry (f : Func) (on : BlockId → Bool) (b : BlockId) : f.Gates on entry b :=
  fun _ hwalk _ => hwalk.entry_mem

section Runs
variable {f : Func} {m : FactMap} {x : Visits} {on : BlockId → Bool} {s s' : State} {i j : Instr}
  {p : PhiInput} {y : Yield} {b : BlockId} {todo : List InstrId}

/-- The fact of the entry is below that of the phi. -/
def State.Heeds (s : State) (i : Instr) (p : PhiInput) : Prop :=
  ∃ v, s.facts.get? i.id = some v ∧ ∀ w, s.facts.resolve p.value = .ok w → w ≤ v

/-- The phis of reached blocks heed the entries that count and of which they hear, save those that
wait or are still to be visited. -/
def Heeding (f : Func) (on : BlockId → Bool) (s : State) (todo : List InstrId) : Prop :=
  ∀ {i : Instr}, f.instr? i.id = some i → s.visits.reached i.block = true →
    ∀ p ∈ i.op.phiInputs, p.counts s.visits = true → f.Hears on i p →
      i.id ∈ s.instrs.pending ∨ i.id ∈ todo ∨ s.Heeds i p

theorem State.Heeds.of_facts (h : s.Heeds i p) (hfacts : s'.facts = s.facts) : s'.Heeds i p := by
  rw [State.Heeds, hfacts]
  exact h

/-! ## Every stride keeps the heed -/

/-- A phi that was visited heeds all entries that count. -/
theorem State.Visited.heeds (hv : State.Visited f s i y s')
    (hfact : s'.facts.get? i.id = some y.fact) (hp : p ∈ i.op.phiInputs)
    (hcounts : p.counts s.visits = true) : s'.Heeds i p := by
  refine ⟨y.fact, hfact, fun w hw => ?_⟩
  by_cases hself : p.value = .value i.id
  · rw [hself] at hw
    cases hfact.symm.trans (FactMap.get_eq_ok.mp hw)
    exact le_rfl
  · have hsame : s.facts.resolve p.value = .ok w := by
      rw [← hw]
      refine FactMap.resolve_congr fun d hd => ?_
      rw [hv.fact, if_neg]
      rintro rfl
      exact hself hd
    have hyield := evaluate_ok hv.yields
    revert hp hyield
    cases i.op with
    | phi inputs => exact fun hp hyield => le_evalPhi_of_mem hyield.1 hp hcounts hsame
    | _ => exact fun hp => absurd hp List.not_mem_nil

/-- A phi that is not visited heeds the entry as before, or waits since the value rose. -/
theorem State.Visited.heeds_other (hv : State.Visited f s i y s') (hindexed : f.Indexed)
    (hj : f.instr? j.id = some j) (hreached : s.visits.reached j.block = true) (hid : j.id ≠ i.id)
    (hp : p ∈ j.op.phiInputs) (h : s.Heeds j p) : j.id ∈ s'.instrs.pending ∨ s'.Heeds j p := by
  by_cases hrose : s'.facts.get? i.id ≠ s.facts.get? i.id ∧ p.value = .value i.id
  · left
    refine (hv.instrs _).mpr (.inr ⟨hrose.1, ?_, State.isActive_iff.mpr ⟨j, hj, hreached⟩⟩)
    refine (hindexed.mem (Func.lt_slotCount hv.live) j.id).mpr ⟨j, hj, Op.mem_uses.mpr ?_⟩
    exact hrose.2 ▸ Op.value_mem_operands hp
  · right
    obtain ⟨v, hfact, hle⟩ := h
    refine ⟨v, by rw [hv.fact, if_neg hid, hfact], fun w hw => hle w ?_⟩
    rw [← hw]
    refine FactMap.resolve_congr fun d hd => ?_
    by_cases hsame : s'.facts.get? i.id = s.facts.get? i.id
    · exact (hv.fact_of_same hsame d).symm
    · rw [hv.fact, if_neg]
      rintro rfl
      exact hrose ⟨hsame, hd⟩

theorem Heeding.visit (h : Heeding f on s (i.id :: todo)) (ht : s.Tidy f) (hindexed : f.Indexed)
    (hsettling : Settling f s (i.id :: todo)) (hv : State.Visited f s i y s') :
    Heeding f on s' todo := by
  intro j hj hreached p hp hcounts hhears
  rw [hv.visits] at hreached hcounts
  by_cases hid : j.id = i.id
  · obtain rfl : i = j := Option.some.inj (hv.live.symm.trans (hid ▸ hj))
    exact .inr (.inr (hv.heeds (hsettling.fact_visited ht hv) hp hcounts))
  · rcases h hj hreached p hp hcounts hhears with hpending | hlist | hheeds
    · exact .inl ((hv.instrs _).mpr (.inl hpending))
    · exact .inr (.inl ((List.mem_cons.mp hlist).resolve_left hid))
    · exact (hv.heeds_other hindexed hj hreached hid hp hheeds).imp_right .inr

/-- A block that is entered is heard of: by its edges, or since a phi behind it was not reached
before, or since nothing was known of its values. -/
theorem Heeding.enter (h : Heeding f on s []) (ht : s.Tidy f) (hp : f.Placed) {blk : Block}
    (hpaced : Paced f s []) (hsettling : Settling f s [])
    (hon : ∀ a, s.visits.reached a = true → on a = true) (hblk : f.block? b = some blk)
    (hfacts : s'.facts = s.facts)
    (hvisits : ∀ a, s'.visits.reached a = true ↔ a = b ∨ s.visits.reached a = true)
    (hinstrs : ∀ j, j ∈ s'.instrs.pending ↔ j ∈ s.instrs.pending ∨
      ¬ s.visits.reached b = true ∧ j ∈ phisFedBy f s'.visits b) :
    Heeding f on s' blk.instrs := by
  intro j hj hreached p hpmem hcounts hhears
  obtain ⟨hdef, hpred⟩ := PhiInput.counts_iff.mp hcounts
  by_cases hold : s.visits.reached j.block = true
  · by_cases hseen : s.visits.reached p.pred = true
    · rcases h hj hold p hpmem (PhiInput.counts_iff.mpr ⟨hdef, hseen⟩) hhears with
        hpending | hlist | hheeds
      · exact .inl ((hinstrs _).mpr (.inl hpending))
      · cases hlist
      · exact .inr (.inr (hheeds.of_facts hfacts))
    · obtain rfl : p.pred = b := ((hvisits _).mp hpred).resolve_right hseen
      rcases hhears with hedge | hgate | ⟨d, k, hd, hk, hown⟩
      · have hne : j.block ≠ p.pred := fun heq => hseen (heq ▸ hold)
        refine .inl ((hinstrs _).mpr (.inr ⟨hseen, (mem_phisFedBy hp).mpr ?_⟩))
        exact ⟨j, hj, hedge, hne, hreached, p, hpmem, rfl⟩
      · obtain ⟨way, hwalk, hway⟩ := hpaced.walk hold
        exact absurd (hway _ (hgate way hwalk fun c hc => hon c (hway c hc))) hseen
      · obtain ⟨v, hv⟩ := ht.fact hj
        refine .inr (.inr (State.Heeds.of_facts ⟨v, hv, fun w hw => ?_⟩ hfacts))
        rw [hd] at hw
        cases (hsettling.unseen hk (hown ▸ hseen)).symm.trans (FactMap.get_eq_ok.mp hw)
        exact Fact.unknown_le v
  · obtain rfl : j.block = b := ((hvisits _).mp hreached).resolve_right hold
    exact .inr (.inl ((hp.mem hblk _).mpr ⟨j, hj, rfl⟩))

theorem heeding_kept (hf : f.Regular) (hsolves : Solves f m x) :
    Kept f fun s todo => (Paced f s todo ∧ Below m x s) ∧ Settling f s todo ∧
      Heeding f x.reached s todo := by
  have hp := hf.consistent.placed
  have hindexed := hf.consistent.indexed
  rintro s s' todo todo' ht ⟨⟨hpaced, hbelow⟩, hsettling, h⟩ hstride
  refine ⟨below_kept hp hf.wellFormed hf.strict hf.preds hf.entry hsolves ht ⟨hpaced, hbelow⟩
    hstride, settling_kept hp hindexed ht hsettling hstride, ?_⟩
  cases hstride with
  | visit hv => exact h.visit ht hindexed hsettling hv
  | enter hb hblk hfacts hvisits hblocks hinstrs =>
    exact h.enter ht hp hpaced hsettling hbelow.visits hblk hfacts
      (Visits.enter_cases hvisits).2.2 hinstrs
  | @take _ id hwaiting hfacts hvisits hblocks hinstrs =>
    intro j hj hreached p hpmem hcounts hhears
    rw [hvisits] at hreached hcounts
    rcases h hj hreached p hpmem hcounts hhears with hpending | hlist | hheeds
    · by_cases hid : j.id = id
      · exact .inr (.inl (List.mem_singleton.mpr hid))
      · exact .inl ((hinstrs _).mpr ⟨hpending, hid⟩)
    · cases hlist
    · exact .inr (.inr (hheeds.of_facts hfacts))
  | pass hb hclosed hfacts hvisits hblocks hinstrs =>
    intro j hj hreached p hpmem hcounts hhears
    rw [hvisits] at hreached hcounts
    rw [hinstrs]
    exact (h hj hreached p hpmem hcounts hhears).imp_right fun hrest =>
      hrest.imp_right fun hheeds => hheeds.of_facts hfacts

/-! ## The end of a run -/

theorem heeding_initial (h : s.Initial f) : Heeding f on s [] :=
  fun _ hreached => absurd hreached (h.unreached _)

/-- A phi that hears of all entries that count is evaluated to at most its fact, where nothing
waits. -/
theorem Heeding.phi_le (h : Heeding f on s []) (hinstrs : s.instrs.pending = [])
    (hi : f.instr? i.id = some i) (hreached : s.visits.reached i.block = true)
    (hhears : ∀ p ∈ i.op.phiInputs, s.visits.reached p.pred = true → f.Hears on i p)
    (hphi : i.op.isPhi = true) (hy : evaluate s.facts s.visits i = .ok y) {v : Fact}
    (hv : s.facts.get? i.id = some v) : y.fact ≤ v := by
  have hheeds : ∀ p ∈ i.op.phiInputs, p.counts s.visits = true → ∀ w,
      s.facts.resolve p.value = .ok w → w ≤ v := by
    intro p hp hcounts
    rcases h hi hreached p hp hcounts (hhears p hp (PhiInput.counts_iff.mp hcounts).2) with
      hpending | hlist | ⟨v', hv', hle⟩
    · rw [hinstrs] at hpending
      cases hpending
    · cases hlist
    · cases hv.symm.trans hv'
      exact hle
  have hyield := evaluate_ok hy
  revert hphi hheeds hyield
  cases i.op with
  | phi inputs => exact fun _ hheeds hyield => evalPhi_le hyield.1 (Fact.unknown_le v) hheeds
  | _ => exact fun hphi => nomatch hphi

/-- A run below a solution ends in a solution, if the phis that the first one has overdefined hear
of all entries that count there. -/
theorem Func.Regular.solve_hearing (hf : f.Regular) (hsolves : Solves f m x)
    (hhears : ∀ i ∈ f.instrs, x.reached i.block = true → m.get? i.id = some .overdefined →
      ∀ p ∈ i.op.phiInputs, x.reached p.pred = true → f.Hears x.reached i p)
    {history : Bool} {r : Solution} (h : f.solve history = .ok r) :
    ∃ s : State, r = s.solution f.name ∧ s.Tidy f ∧ Paced f s [] ∧ Below m x s ∧
      Solves f s.facts s.visits := by
  have hp := hf.consistent.placed
  obtain ⟨s₀, s, hstart, hstage, hblocks, hinstrs, rfl⟩ := solve_stage hp h
  obtain ⟨hinit, ht₀⟩ := State.initial_start hp hstart
  obtain ⟨⟨hpaced, hbelow⟩, hsettling, hheeding⟩ := hstage.invariant hp (heeding_kept hf hsolves)
    ht₀ ⟨⟨paced_initial hinit, below_initial hp hsolves hinit⟩, settling_initial hinit,
      heeding_initial hinit⟩
  have ht := hstage.tidy hp ht₀
  refine ⟨s, rfl, ht, hpaced, hbelow, (hsettling.atRest hp hblocks hinstrs).solves_of_le hp
    hf.wellFormed ht fun {i y v} hi hreached hphi hy hv => ?_⟩
  have hmem := Func.mem_instrs.mpr ⟨_, hi⟩
  have hreached' := hbelow.visits _ hreached
  obtain ⟨z, u, hz, hu, hle, -⟩ :=
    hsolves.closed i.block hreached' i (hp.mem_blockInstrs.mpr ⟨hi, rfl⟩)
  by_cases hover : u = .overdefined
  · exact hheeding.phi_le hinstrs hi hreached (fun p hpmem hpred =>
      hhears i hmem hreached' (hover ▸ hu) p hpmem (hbelow.visits _ hpred)) hphi hy hv
  · -- known and at most a constant, so it is that constant, and the evaluation is at most as much
    obtain ⟨v', hv', hne⟩ := (hpaced.known_nil hi hreached).resolve_left List.not_mem_nil
    obtain rfl : v = v' := Option.some.inj (hv.symm.trans hv')
    obtain ⟨u', hu', hvu⟩ := FactMap.le_get hbelow.facts hv
    obtain rfl : u = u' := Option.some.inj (hu.symm.trans hu')
    obtain rfl : v = u := Fact.eq_of_known_le hvu hne hover
    exact (evaluate_mono hbelow.facts hbelow.visits hy hz).trans hle

end Runs

end ConstFlow
