import ConstFlow.Proofs.Stages
import ConstFlow.Proofs.WellFormed

/-!
# The state in which a run comes to rest

A run ends when nothing waits. `Settling` is the invariant that makes the end mean something: an
instruction of a reached block waits, or is still to be visited in the block in progress, or is
`Settled`: evaluating it again gives the fact that it has, and the edges that it allows lead to
blocks that were reached or wait.

* `Settling` is kept by every stride (`settling_kept`), for all functions whose users are indexed;
* `solve_atRest` : at the end nothing waits, so every instruction of a reached block is settled;
* `solve_exact` : of a function just built this is an exact solution of the equations.

A predecessor list may be out of date after edits. A phi may then name a block that has no edge to
the phi's block any more, and reaching that block does not make the phi wait. This is why `Sees`
asks for real edges only.
-/

namespace ConstFlow

variable {f : Func} {s s' : State} {i j : Instr} {y : Yield} {todo todo' : List InstrId}

/-- The visits `x` are no more than `x'`, and hold every block reached there from which an edge
leads to the phi `i` that names it. -/
structure Sees (f : Func) (i : Instr) (x x' : Visits) : Prop where
  within : x.Within x'
  edge : ∀ p ∈ i.op.phiInputs, x'.reached p.pred = true → i.block ∈ f.succs p.pred →
    x.reached p.pred = true

theorem Sees.refl (f : Func) (i : Instr) (x : Visits) : Sees f i x x :=
  ⟨Visits.Within.refl x, fun _ _ h _ => h⟩

/-- Evaluating the instruction again changes nothing. -/
def Settled (f : Func) (s : State) (i : Instr) : Prop :=
  ∃ x y, Sees f i x s.visits ∧ evaluate s.facts x i = .ok y ∧ s.facts.get? i.id = some y.fact ∧
    ∀ t ∈ y.targets, s.visits.reached t = true ∨ t ∈ s.blocks.pending

/-- The fact `v` was once what the instruction yields. -/
def Grounded (s : State) (i : Instr) (v : Fact) : Prop :=
  v = .unknown ∨ ∃ m x y, m ≤ s.facts ∧ x.Within s.visits ∧ evaluate m x i = .ok y ∧ v = y.fact

/-- What holds between two strides of a run. -/
structure Settling (f : Func) (s : State) (todo : List InstrId) : Prop where
  entry : s.visits.reached Func.entry = true ∨ Func.entry ∈ s.blocks.pending
  active : ∀ id ∈ todo, State.isActive f s.visits id = true
  unseen : ∀ {id : InstrId} {i : Instr}, f.instr? id = some i → ¬ s.visits.reached i.block = true →
    s.facts.get? id = some .unknown
  grounded : ∀ {id : InstrId} {i : Instr} {v : Fact}, f.instr? id = some i →
    s.facts.get? id = some v → Grounded s i v
  settled : ∀ {id : InstrId} {i : Instr}, f.instr? id = some i → s.visits.reached i.block = true →
    id ∈ s.instrs.pending ∨ id ∈ todo ∨ Settled f s i

theorem settling_initial (h : s.Initial f) : Settling f s [] where
  entry := .inr ((h.blocks _).mpr rfl)
  active _ hid := absurd hid List.not_mem_nil
  unseen hi _ := by rw [h.fact, hi, Option.map_some]
  grounded hi hv := by
    rw [h.fact, hi, Option.map_some, Option.some.injEq] at hv
    exact .inl hv.symm
  settled _ hreached := absurd hreached (h.unreached _)

/-! ## Visiting an instruction -/

theorem Grounded.mono {v : Fact} (h : Grounded s i v) (hm : s.facts ≤ s'.facts)
    (hx : s.visits.Within s'.visits) : Grounded s' i v := by
  rcases h with rfl | ⟨m, x, y, hle, hwithin, hy, rfl⟩
  · exact .inl rfl
  · exact .inr ⟨m, x, y, FactMap.le_trans hle hm, hwithin.trans hx, hy, rfl⟩

/-- A new visit yields at least the fact that there is. -/
theorem Grounded.le {v : Fact} (h : Grounded s i v) (hy : evaluate s.facts s.visits i = .ok y) :
    v ≤ y.fact := by
  rcases h with rfl | ⟨m, x, z, hle, hwithin, hz, rfl⟩
  · exact Fact.unknown_le _
  · exact evaluate_mono hle hwithin hz hy

theorem State.Visited.le (h : State.Visited f s i y s') : s.facts ≤ s'.facts := by
  intro id v hv
  rw [h.fact]
  split
  · exact ⟨v.join y.fact, by rw [hv, Option.map_some], Fact.le_join_left _ _⟩
  · exact ⟨v, hv, le_rfl⟩

/-- A visit that does not raise the fact of the instruction leaves all facts as they are. -/
theorem State.Visited.fact_of_same (h : State.Visited f s i y s')
    (hsame : s'.facts.get? i.id = s.facts.get? i.id) (id : InstrId) :
    s'.facts.get? id = s.facts.get? id := by
  by_cases hid : id = i.id
  · rw [hid, hsame]
  · rw [h.fact, if_neg hid]

/-- An instruction that was evaluated under the facts before a visit either waits after it or is
settled: if a fact that it reads rose, it is a user. -/
theorem State.Visited.settles (h : State.Visited f s i y s') (hindexed : f.Indexed)
    (hj : f.instr? j.id = some j) (hreached : s.visits.reached j.block = true) {x : Visits}
    {z : Yield} (hsees : Sees f j x s.visits) (hz : evaluate s.facts x j = .ok z)
    (hfact : s'.facts.get? j.id = some z.fact)
    (htargets : ∀ t ∈ z.targets, s'.visits.reached t = true ∨ t ∈ s'.blocks.pending) :
    j.id ∈ s'.instrs.pending ∨ Settled f s' j := by
  by_cases hwait : s'.facts.get? i.id ≠ s.facts.get? i.id ∧ i.id ∈ j.op.uses
  · left
    refine (h.instrs j.id).mpr (.inr ⟨hwait.1, ?_, State.isActive_iff.mpr ⟨j, hj, hreached⟩⟩)
    exact (hindexed.mem (Func.lt_slotCount h.live) j.id).mpr ⟨j, hj, hwait.2⟩
  · right
    have hz' : evaluate s'.facts x j = .ok z := by
      rw [← hz]
      refine evaluate_congr_facts fun d hd => ?_
      by_cases hsame : s'.facts.get? i.id = s.facts.get? i.id
      · exact h.fact_of_same hsame d
      · rw [h.fact, if_neg]
        rintro rfl
        exact hwait ⟨hsame, hd⟩
    exact ⟨x, z, h.visits ▸ hsees, hz', hfact, htargets⟩

/-- After a visit the instruction has just the fact that it yields. -/
theorem Settling.fact_visited (h : Settling f s todo) (ht : s.Tidy f)
    (hv : State.Visited f s i y s') : s'.facts.get? i.id = some y.fact := by
  obtain ⟨v, hfact⟩ := ht.fact hv.live
  rw [hv.fact, if_pos rfl, hfact, Option.map_some,
    Fact.join_eq_right.mpr ((h.grounded hv.live hfact).le hv.yields)]

theorem Settling.visit (h : Settling f s (i.id :: todo)) (ht : s.Tidy f) (hp : f.Placed)
    (hindexed : f.Indexed) (hv : State.Visited f s i y s') : Settling f s' todo := by
  have hi := h.fact_visited ht hv
  have hwithin : s.visits.Within s'.visits := hv.visits ▸ Visits.Within.refl _
  constructor
  case entry =>
    rw [hv.visits, hv.blocks]
    exact h.entry.imp_right .inl
  case active =>
    intro id hid
    rw [hv.visits]
    exact h.active id (List.mem_cons_of_mem _ hid)
  case unseen =>
    intro id j hj hunreached
    rw [hv.visits] at hunreached
    rw [hv.fact, if_neg, h.unseen hj hunreached]
    rintro rfl
    obtain ⟨k, hk, hreached⟩ := State.isActive_iff.mp (h.active _ List.mem_cons_self)
    rw [hj, Option.some.injEq] at hk
    exact hunreached (hk ▸ hreached)
  case grounded =>
    intro id j v hj hfact
    by_cases hid : id = i.id
    · subst hid
      obtain rfl : i = j := Option.some.inj (hv.live.symm.trans hj)
      rw [hi, Option.some.injEq] at hfact
      exact .inr ⟨s.facts, s.visits, y, hv.le, hwithin, hv.yields, hfact.symm⟩
    · rw [hv.fact, if_neg hid] at hfact
      exact (h.grounded hj hfact).mono hv.le hwithin
  case settled =>
    intro id j hj hreached
    rw [hv.visits] at hreached
    obtain rfl := hp.slot hj
    -- `i` itself was evaluated just now; another instruction was settled under the facts before
    by_cases hid : j.id = i.id
    · obtain rfl : i = j := Option.some.inj (hv.live.symm.trans (hid ▸ hj))
      refine (hv.settles hindexed hj hreached (Sees.refl f i _) hv.yields hi
        fun t htarget => ?_).imp_right .inr
      exact .inr ((hv.blocks t).mpr (.inr htarget))
    · rcases h.settled hj hreached with hpending | hlist | ⟨x, z, hsees, hz, hfact, htargets⟩
      · exact .inl ((hv.instrs _).mpr (.inl hpending))
      · rcases List.mem_cons.mp hlist with heq | hlist
        · exact absurd heq hid
        · exact .inr (.inl hlist)
      · refine (hv.settles hindexed hj hreached hsees hz ?_ fun t htarget => ?_).imp_right .inr
        · rw [hv.fact, if_neg hid, hfact]
        · rw [hv.visits, hv.blocks]
          exact (htargets t htarget).imp_right .inl

/-! ## Blocks -/

/-- Settled instructions stay settled when a block is passed over or entered, except those that the
block feeds. -/
theorem Settled.of_entered (h : Settled f s i) {b : BlockId} (hfacts : s'.facts = s.facts)
    (hvisits : ∀ a, s'.visits.reached a = true ↔ a = b ∨ s.visits.reached a = true)
    (hblocks : ∀ c, c ∈ s'.blocks.pending ↔ c ∈ s.blocks.pending ∧ c ≠ b)
    (hfed : s.visits.reached b = true ∨ i.block ∉ f.succs b ∨ ∀ p ∈ i.op.phiInputs, p.pred ≠ b) :
    Settled f s' i := by
  obtain ⟨x, y, hsees, hy, hfact, htargets⟩ := h
  rw [← hfacts] at hy hfact
  refine ⟨x, y, ⟨?_, ?_⟩, hy, hfact, fun t htarget => ?_⟩
  · exact fun a ha => (hvisits a).mpr (.inr (hsees.within a ha))
  · intro p hp hreached hedge
    rcases (hvisits p.pred).mp hreached with heq | hreached
    · rcases hfed with hb | hno | hne
      · exact hsees.edge p hp (heq ▸ hb) hedge
      · exact absurd (heq ▸ hedge) hno
      · exact absurd heq (hne p hp)
    · exact hsees.edge p hp hreached hedge
  · rw [hvisits, hblocks]
    by_cases htb : t = b
    · exact .inl (.inl htb)
    · exact (htargets t htarget).imp .inr fun hpending => ⟨hpending, htb⟩

theorem Settling.take (h : Settling f s []) {id : InstrId}
    (hactive : State.isActive f s.visits id = true) (hfacts : s'.facts = s.facts)
    (hvisits : s'.visits = s.visits) (hblocks : s'.blocks = s.blocks)
    (hinstrs : ∀ j, j ∈ s'.instrs.pending ↔ j ∈ s.instrs.pending ∧ j ≠ id) :
    Settling f s' [id] := by
  constructor
  case entry =>
    rw [hvisits, hblocks]
    exact h.entry
  case active =>
    intro j hj
    rw [List.mem_singleton.mp hj, hvisits]
    exact hactive
  case unseen =>
    intro j i hi hunreached
    rw [hfacts]
    exact h.unseen hi (hvisits ▸ hunreached)
  case grounded =>
    intro j i v hi hv
    rw [hfacts] at hv
    exact (h.grounded hi hv).mono (hfacts ▸ FactMap.le_refl _) (hvisits ▸ Visits.Within.refl _)
  case settled =>
    intro j i hi hreached
    rcases h.settled hi (hvisits ▸ hreached) with hpending | hlist | hsettled
    · by_cases hj : j = id
      · exact .inr (.inl (List.mem_singleton.mpr hj))
      · exact .inl ((hinstrs j).mpr ⟨hpending, hj⟩)
    · cases hlist
    · unfold Settled
      rw [hfacts, hvisits, hblocks]
      exact .inr (.inr hsettled)

/-- A block that is entered makes the phis wait that read it, and takes up its own instructions. -/
theorem Settling.enter (h : Settling f s []) (hp : f.Placed) {b : BlockId}
    (hfacts : s'.facts = s.facts)
    (hvisits : ∀ a, s'.visits.reached a = true ↔ a = b ∨ s.visits.reached a = true)
    (hblocks : ∀ c, c ∈ s'.blocks.pending ↔ c ∈ s.blocks.pending ∧ c ≠ b)
    (hinstrs : ∀ j, j ∈ s'.instrs.pending ↔ j ∈ s.instrs.pending ∨
      ¬ s.visits.reached b = true ∧ j ∈ phisFedBy f s'.visits b)
    (htodo : ∀ id, id ∈ todo → ∃ i, f.instr? id = some i ∧ i.block = b)
    (hall : s.visits.reached b = true ∨ ∀ {id i}, f.instr? id = some i → i.block = b → id ∈ todo) :
    Settling f s' todo := by
  have hwithin : s.visits.Within s'.visits := fun a ha => (hvisits a).mpr (.inr ha)
  constructor
  case entry =>
    rw [hvisits, hblocks]
    by_cases hb : Func.entry = b
    · exact .inl (.inl hb)
    · exact h.entry.imp .inr fun hpending => ⟨hpending, hb⟩
  case active =>
    intro id hid
    obtain ⟨i, hi, rfl⟩ := htodo id hid
    exact State.isActive_iff.mpr ⟨i, hi, (hvisits _).mpr (.inl rfl)⟩
  case unseen =>
    intro id i hi hunreached
    rw [hfacts]
    exact h.unseen hi fun hreached => hunreached (hwithin _ hreached)
  case grounded =>
    intro id i v hi hv
    rw [hfacts] at hv
    exact (h.grounded hi hv).mono (hfacts ▸ FactMap.le_refl _) hwithin
  case settled =>
    intro id i hi hreached
    obtain rfl := hp.slot hi
    by_cases hold : s.visits.reached i.block = true
    · rcases h.settled hi hold with hpending | hlist | hsettled
      · exact .inl ((hinstrs _).mpr (.inl hpending))
      · cases hlist
      · -- a phi that `b` feeds waits now; any other instruction stays settled
        by_cases hself : i.block = b
        · exact .inr (.inr (hsettled.of_entered hfacts hvisits hblocks (.inl (hself ▸ hold))))
        · by_cases hfed : s.visits.reached b = true ∨ i.block ∉ f.succs b ∨
              ∀ p ∈ i.op.phiInputs, p.pred ≠ b
          · exact .inr (.inr (hsettled.of_entered hfacts hvisits hblocks hfed))
          · push Not at hfed
            obtain ⟨hb, hedge, hphi⟩ := hfed
            refine .inl ((hinstrs _).mpr (.inr ⟨hb, (mem_phisFedBy hp).mpr ?_⟩))
            exact ⟨i, hi, hedge, hself, hreached, hphi⟩
    · rcases (hvisits _).mp hreached with rfl | hreached
      · rcases hall with hb | hall
        · exact absurd hb hold
        · exact .inr (.inl (hall hi rfl))
      · exact absurd hreached hold

/-- Every stride keeps the invariant. -/
theorem settling_kept (hp : f.Placed) (hindexed : f.Indexed) : Kept f (Settling f) := by
  intro s s' todo todo' ht h hstride
  cases hstride with
  | visit hv => exact h.visit ht hp hindexed hv
  | take waiting hfacts hvisits hblocks hinstrs =>
    exact h.take (ht.active _ waiting) hfacts hvisits hblocks hinstrs
  | @pass _ b waiting hclosed hfacts hvisits hblocks hinstrs =>
    -- passing over a block is entering one that was reached, with nothing to visit in it
    have hb : s.visits.reached b = true :=
      Visits.reached_of_not_isOpen (ht.size ▸ ht.blocks.lt waiting) hclosed
    refine h.enter hp hfacts (fun a => ?_) hblocks (fun j => ?_)
      (fun _ hid => absurd hid List.not_mem_nil) (.inl hb)
    · rw [hvisits]
      exact ⟨.inr, fun ha => ha.elim (fun heq => heq ▸ hb) id⟩
    · rw [hinstrs]
      exact ⟨.inl, fun hj => hj.elim id fun hj => absurd hb hj.1⟩
  | enter waiting hblock hfacts hvisits hblocks hinstrs =>
    refine h.enter hp hfacts (Visits.enter_cases hvisits).2.2 hblocks hinstrs
      (fun id => (hp.mem hblock id).mp) (.inr fun hi hb => (hp.mem hblock _).mpr ⟨_, hi, hb⟩)

/-! ## The end of a run -/

/-- What the last state of a run says about the function. -/
structure AtRest (f : Func) (s : State) : Prop where
  entry : s.visits.reached Func.entry = true
  unseen : ∀ {id : InstrId} {i : Instr}, f.instr? id = some i → ¬ s.visits.reached i.block = true →
    s.facts.get? id = some .unknown
  settled : ∀ {id : InstrId} {i : Instr}, f.instr? id = some i → s.visits.reached i.block = true →
    ∃ x y, Sees f i x s.visits ∧ evaluate s.facts x i = .ok y ∧ s.facts.get? id = some y.fact ∧
      ∀ t ∈ y.targets, s.visits.reached t = true

theorem Settling.atRest (h : Settling f s []) (hp : f.Placed) (hblocks : s.blocks.pending = [])
    (hinstrs : s.instrs.pending = []) : AtRest f s where
  entry := h.entry.resolve_right (by rw [hblocks]; exact List.not_mem_nil)
  unseen := h.unseen
  settled {id i} hi hreached := by
    rcases h.settled hi hreached with hpending | hlist | ⟨x, y, hsees, hy, hfact, htargets⟩
    · rw [hinstrs] at hpending
      cases hpending
    · cases hlist
    · refine ⟨x, y, hsees, hy, hp.slot hi ▸ hfact, fun t ht => (htargets t ht).resolve_right ?_⟩
      rw [hblocks]
      exact List.not_mem_nil

theorem solve_atRest (hp : f.Placed) (hindexed : f.Indexed) {history : Bool} {r : Solution}
    (h : f.solve history = .ok r) : ∃ s : State, r = s.solution f.name ∧ s.Tidy f ∧ AtRest f s := by
  obtain ⟨s, hr, ht, hsettling, hblocks, hinstrs⟩ :=
    solve_invariant hp (settling_kept hp hindexed) (fun _ => settling_initial) h
  exact ⟨s, hr, ht, hsettling.atRest hp hblocks hinstrs⟩

/-- The counts alone tell which blocks were reached. -/
theorem Visits.reached_eq_of_counts {x x' : Visits} (h : x.counts = x'.counts) (b : BlockId) :
    x.reached b = x'.reached b := by
  have hdone : ∀ x : Visits, x.done b = x.counts[b]?.getD 0 := by
    intro x
    unfold Visits.done Visits.counts Visits.tally?
    rw [List.getElem?_map, Array.getElem?_toList]
    cases x.tallies[b]? with
    | none => rfl
    | some t => rfl
  rw [Visits.reached, Visits.reached, hdone, hdone, h]

/-- Where the phi entries for reached blocks name predecessors by real edges, evaluating under the
final visits gives what the run saw last. -/
theorem AtRest.exact_of_edges (h : AtRest f s) {x : Visits}
    (hx : ∀ b, x.reached b = s.visits.reached b) (hi : f.instr? i.id = some i)
    (hedges : ∀ p ∈ i.op.phiInputs, s.visits.reached p.pred = true → i.block ∈ f.succs p.pred)
    (hreached : s.visits.reached i.block = true) :
    ∃ y, evaluate s.facts x i = .ok y ∧ s.facts.get? i.id = some y.fact ∧
      ∀ t ∈ y.targets, s.visits.reached t = true := by
  obtain ⟨x', y, hsees, hy, hfact, htargets⟩ := h.settled hi hreached
  refine ⟨y, ?_, hfact, htargets⟩
  rw [← hy]
  refine evaluate_congr (fun _ _ => rfl) fun p hp => ?_
  rw [hx, Bool.eq_iff_iff]
  exact ⟨fun hpred => hsees.edge p hp hpred (hedges p hp hpred), hsees.within p.pred⟩

theorem AtRest.exact (h : AtRest f s) {x : Visits} (hx : ∀ b, x.reached b = s.visits.reached b)
    (hi : f.instr? i.id = some i) (hedges : ∀ p ∈ i.op.phiInputs, i.block ∈ f.succs p.pred)
    (hreached : s.visits.reached i.block = true) :
    ∃ y, evaluate s.facts x i = .ok y ∧ s.facts.get? i.id = some y.fact ∧
      ∀ t ∈ y.targets, s.visits.reached t = true :=
  h.exact_of_edges hx hi (fun p hp _ => hedges p hp) hreached

/-- The result for a function just built is an exact solution: the entry is reached, every
instruction of a reached block yields under the final facts and counts the fact that it has and only
edges to reached blocks, and nothing is known of all others. -/
theorem solve_exact (name : String) (script : List Stmt) (history : Bool) (r : Solution)
    (hvalid : (Func.ofScript name script).validate = .ok ())
    (hsolve : (Func.ofScript name script).solve history = .ok r) :
    r.reached Func.entry = true ∧
    (∀ x : Visits, x.counts = r.visits.toList → ∀ b, r.reached b = true →
      ∀ i ∈ (Func.ofScript name script).blockInstrs b, ∃ y, evaluate r.facts x i = .ok y ∧
        r.fact? i.id = some y.fact ∧ ∀ t ∈ y.targets, r.reached t = true) ∧
    ∀ b, ¬ r.reached b = true → ∀ i ∈ (Func.ofScript name script).blockInstrs b,
      r.fact? i.id = some .unknown := by
  have hp := Func.placed_ofScript name script
  have hwf := Func.WellFormed.of_validate hp hvalid
  obtain ⟨s, rfl, -, hrest⟩ := solve_atRest hp (Func.indexed_ofScript name script) hsolve
  simp only [State.reached_solution, State.fact?_solution]
  refine ⟨hrest.entry, fun x hx b hreached i hi => ?_, fun b hunreached i hi => ?_⟩
  · obtain ⟨hlive, rfl⟩ := hp.mem_blockInstrs.mp hi
    refine hrest.exact (Visits.reached_eq_of_counts hx) hlive (fun p hphi => ?_) hreached
    exact (Func.mem_preds_ofScript.mp ((hwf.fits hlive).pred p hphi)).2
  · obtain ⟨hlive, rfl⟩ := hp.mem_blockInstrs.mp hi
    exact hrest.unseen hlive hunreached

/-- A loop that counts to ten, behind a branch that is always taken the same way. -/
def countingLoop : List Stmt :=
  [.block 0 [.append (.compare .eq (.const 1) (.const 1)), .append (.branch (.value 0) 1 3)],
   .block 1 [.append (.phi [⟨.const 0, 0⟩, ⟨.value 3, 1⟩]), .append (.add (.value 2) (.const 1)),
     .append (.compare .slt (.value 3) (.const 10)), .append (.branch (.value 4) 1 2)],
   .block 2 [.append (.ret (some (.value 3)))],
   .block 3 [.append (.sub (.const 5) (.const 2)), .append (.ret (some (.value 7)))]]

theorem exists_ok_of_isOk {ε α : Type} {e : Except ε α} (h : e.isOk = true) : ∃ a, e = .ok a := by
  cases e with
  | error e => cases h
  | ok a => exact ⟨a, rfl⟩

theorem eq_ok_of_mem_toOption {ε α : Type} {e : Except ε α} {a : α} (h : a ∈ e.toOption) :
    e = .ok a := by
  cases e with
  | error e => cases h
  | ok b =>
    cases h
    rfl

theorem solve_exact_countingLoop : ∃ r, (Func.ofScript "count" countingLoop).solve true = .ok r ∧
    r.reached Func.entry = true ∧
    (∀ x : Visits, x.counts = r.visits.toList → ∀ b, r.reached b = true →
      ∀ i ∈ (Func.ofScript "count" countingLoop).blockInstrs b, ∃ y, evaluate r.facts x i = .ok y ∧
        r.fact? i.id = some y.fact ∧ ∀ t ∈ y.targets, r.reached t = true) ∧
    ∀ b, ¬ r.reached b = true → ∀ i ∈ (Func.ofScript "count" countingLoop).blockInstrs b,
      r.fact? i.id = some .unknown := by
  obtain ⟨r, hr⟩ := exists_ok_of_isOk
    (e := (Func.ofScript "count" countingLoop).solve true) (by decide +kernel)
  exact ⟨r, hr, solve_exact "count" countingLoop true r (by decide +kernel) hr⟩

end ConstFlow
