import ConstFlow.Proofs.Quiescence
import ConstFlow.Proofs.Strict

/-!
# The least solution

A solution of the equations gives a fact to every instruction and a set of blocks, such that every
instruction of these blocks is evaluated to at most its fact and allows only edges to these blocks.
On strict functions the analysis finds the least one (`solve_least`).

The argument compares the run with any other solution, stride by stride (`Below`). Facts stay below
by monotonicity of the evaluation. Edges need more: of an unknown condition both edges are allowed,
of a constant one only one, so a run that branches on an unknown condition may go where the other
solution does not. On strict functions this cannot happen, by `Paced.operand_known`. With a phi that
has no entries in the entry block it does happen (`emptyPhi_not_least`).
-/

namespace ConstFlow

variable {f : Func} {m : FactMap} {x : Visits} {s s' : State} {todo : List InstrId}

/-- The facts `m` and the blocks reached by `x` solve the equations of the function. -/
structure Solves (f : Func) (m : FactMap) (x : Visits) : Prop where
  covers : ∀ i ∈ f.instrs, ∃ v, m.get? i.id = some v
  entry : x.reached Func.entry = true
  closed : ∀ b, x.reached b = true → ∀ i ∈ f.blockInstrs b, ∃ y v, evaluate m x i = .ok y ∧
    m.get? i.id = some v ∧ y.fact ≤ v ∧ ∀ t ∈ y.targets, x.reached t = true

/-- The state has not gone beyond the solution. -/
structure Below (m : FactMap) (x : Visits) (s : State) : Prop where
  facts : s.facts ≤ m
  visits : s.visits.Within x
  blocks : ∀ b ∈ s.blocks.pending, x.reached b = true

theorem below_initial (hp : f.Placed) (hsolves : Solves f m x) (h : s.Initial f) : Below m x s where
  facts id v hv := by
    rw [h.fact, Option.map_eq_some_iff] at hv
    obtain ⟨i, hi, rfl⟩ := hv
    obtain ⟨w, hw⟩ := hsolves.covers i (Func.mem_instrs.mpr ⟨id, hi⟩)
    exact ⟨w, hp.slot hi ▸ hw, Fact.unknown_le w⟩
  visits b hb := absurd hb (h.unreached b)
  blocks b hb := by
    rw [(h.blocks b).mp hb]
    exact hsolves.entry

/-- A visit stays below: its fact by monotonicity, its edges because the condition is known. -/
theorem Below.visit (h : Below m x s) (hp : f.Placed) (hstrict : f.Strict) (hsolves : Solves f m x)
    {i : Instr} {y : Yield} (hpaced : Paced f s (i.id :: todo)) (hv : State.Visited f s i y s') :
    Below m x s' := by
  have hreached := h.visits _ (hpaced.reached_next hv.live)
  obtain ⟨z, v, hz, hfact, hle, htargets⟩ :=
    hsolves.closed i.block hreached i (hp.mem_blockInstrs.mpr ⟨hv.live, rfl⟩)
  constructor
  case facts =>
    intro id w hw
    rw [hv.fact] at hw
    split at hw
    · next hid =>
      subst hid
      obtain ⟨old, hold, rfl⟩ := Option.map_eq_some_iff.mp hw
      obtain ⟨v', hv', hle'⟩ := FactMap.le_get h.facts hold
      obtain rfl : v' = v := Option.some.inj (hv'.symm.trans hfact)
      exact ⟨v', hv', Fact.join_le hle' ((evaluate_mono h.facts h.visits hv.yields hz).trans hle)⟩
    · exact h.facts id w hw
  case visits =>
    rw [hv.visits]
    exact h.visits
  case blocks =>
    intro b hb
    rcases (hv.blocks b).mp hb with hb | htarget
    · exact h.blocks b hb
    · refine htargets b (evaluate_targets_mono h.facts hv.yields hz ?_ htarget)
      intro cond onTrue onFalse hop hunknown
      exact hpaced.operand_known hp hstrict hv.live (by rw [hop]; rfl)
        (by rw [hop]; exact List.mem_cons_self) hunknown rfl

theorem below_kept (hp : f.Placed) (hwf : f.WellFormed) (hstrict : f.Strict)
    (hpreds : ∀ {a b : BlockId}, b < f.blockCount → b ∈ f.succs a → a ∈ f.preds b)
    (hentry : ∀ i ∈ f.blockInstrs Func.entry, i.op.isPhi = false) (hsolves : Solves f m x) :
    Kept f fun s todo => Paced f s todo ∧ Below m x s := by
  rintro s s' todo todo' ht ⟨hpaced, h⟩ hstride
  refine ⟨paced_kept hp hwf hstrict hpreds hentry ht hpaced hstride, ?_⟩
  cases hstride with
  | visit hv => exact h.visit hp hstrict hsolves hpaced hv
  | take hwaiting hfacts hvisits hblocks hinstrs =>
    exact ⟨hfacts ▸ h.facts, hvisits ▸ h.visits, hblocks ▸ h.blocks⟩
  | pass hb hclosed hfacts hvisits hblocks hinstrs =>
    exact ⟨hfacts ▸ h.facts, hvisits ▸ h.visits, fun c hc => h.blocks c ((hblocks c).mp hc).1⟩
  | enter hb hblk hfacts hvisits hblocks hinstrs =>
    refine ⟨hfacts ▸ h.facts, fun a ha => ?_, fun c hc => h.blocks c ((hblocks c).mp hc).1⟩
    rcases ((Visits.enter_cases hvisits).2.2 a).mp ha with rfl | ha
    · exact h.blocks a hb
    · exact h.visits a ha

/-- On a strict function whose entry block has no phi, the result solves the equations, and lies
below every solution of them. -/
theorem solve_least (name : String) (script : List Stmt) (history : Bool) (r : Solution)
    (hvalid : (Func.ofScript name script).validate = .ok ())
    (hstrict : (Func.ofScript name script).Strict)
    (hentry : ∀ i ∈ (Func.ofScript name script).blockInstrs Func.entry, i.op.isPhi = false)
    (hsolve : (Func.ofScript name script).solve history = .ok r) :
    (∀ x : Visits, x.counts = r.visits.toList → Solves (Func.ofScript name script) r.facts x) ∧
    ∀ (m : FactMap) (x : Visits), Solves (Func.ofScript name script) m x →
      (∀ b, r.reached b = true → x.reached b = true) ∧
      ∀ i ∈ (Func.ofScript name script).instrs, ∃ v w, r.fact? i.id = some v ∧
        m.get? i.id = some w ∧ v ≤ w := by
  have hp := Func.placed_ofScript name script
  have hwf := Func.WellFormed.of_validate hp hvalid
  constructor
  · intro x hx
    obtain ⟨s, rfl, ht, hrest⟩ := solve_atRest hp (Func.indexed_ofScript name script) hsolve
    have hreached : ∀ b, x.reached b = s.visits.reached b := Visits.reached_eq_of_counts hx
    constructor
    case covers =>
      intro i hi
      obtain ⟨id, hid⟩ := Func.mem_instrs.mp hi
      exact ht.fact (hp.slot hid ▸ hid)
    case entry =>
      rw [hreached]
      exact hrest.entry
    case closed =>
      intro b hb i hi
      obtain ⟨hlive, rfl⟩ := hp.mem_blockInstrs.mp hi
      rw [hreached] at hb
      obtain ⟨y, hy, hfact, htargets⟩ := hrest.exact hreached hlive
        (fun p hphi => (Func.mem_preds_ofScript.mp ((hwf.fits hlive).pred p hphi)).2) hb
      exact ⟨y, y.fact, hy, hfact, le_rfl, fun t ht => (hreached t).trans (htargets t ht)⟩
  · intro m x hsolves
    obtain ⟨s, rfl, ht, ⟨-, hbelow⟩, -⟩ := solve_invariant hp
      (below_kept hp hwf hstrict (fun hb hedge => Func.mem_preds_ofScript.mpr ⟨hb, hedge⟩) hentry
        hsolves)
      (fun s hs => ⟨paced_initial hs, below_initial hp hsolves hs⟩) hsolve
    refine ⟨fun b hb => hbelow.visits b (State.reached_solution s _ b ▸ hb), fun i hi => ?_⟩
    obtain ⟨id, hid⟩ := Func.mem_instrs.mp hi
    obtain ⟨v, hv⟩ := ht.fact hid
    rw [← hp.slot hid] at hv
    obtain ⟨w, hw, hle⟩ := FactMap.le_get hbelow.facts hv
    exact ⟨v, w, hv, hw, hle⟩

theorem countingLoop_strict : (Func.ofScript "count" countingLoop).Strict where
  defined := by decide +kernel
  total := by decide +kernel
  used i hi hphi d hd := by
    have huses : ∀ i ∈ (Func.ofScript "count" countingLoop).instrs, i.op.isPhi = false →
        ∀ d ∈ i.op.uses, d ∈ (Func.ofScript "count" countingLoop).listedBefore i ∨
          d = 3 ∧ i.block = 2 := by decide +kernel
    refine (huses i hi hphi d hd).imp_right ?_
    rintro ⟨rfl, hblock⟩
    refine ⟨⟨3, 1, .add (.value 2) (.const 1)⟩, by decide +kernel, by rw [hblock]; decide, ?_⟩
    -- the only edge into the last block comes from the loop
    have hedge : ∀ a < 4, 2 ∈ (Func.ofScript "count" countingLoop).succs a → a = 1 := by
      decide +kernel
    have hcount : (Func.ofScript "count" countingLoop).blockCount = 4 := by decide +kernel
    intro way hwalk
    rw [hblock] at hwalk ⊢
    cases hwalk with
    | edge before hsucc =>
      rw [hedge _ (hcount ▸ Func.lt_blockCount_of_mem_succs hsucc) hsucc]
      exact List.mem_cons_of_mem _ List.mem_cons_self
  fed i hi p hp d hd := by
    have hinputs : ∀ i ∈ (Func.ofScript "count" countingLoop).instrs, ∀ p ∈ i.op.phiInputs,
        p = ⟨.const 0, 0⟩ ∨ p = ⟨.value 3, 1⟩ := by decide +kernel
    rcases hinputs i hi p hp with rfl | rfl
    · cases hd
    · cases hd
      exact ⟨⟨3, 1, .add (.value 2) (.const 1)⟩, by decide +kernel, fun _ _ => List.mem_cons_self⟩

theorem solve_least_countingLoop : ∃ r, (Func.ofScript "count" countingLoop).solve false = .ok r ∧
    (∀ x : Visits, x.counts = r.visits.toList →
      Solves (Func.ofScript "count" countingLoop) r.facts x) ∧
    ∀ (m : FactMap) (x : Visits), Solves (Func.ofScript "count" countingLoop) m x →
      (∀ b, r.reached b = true → x.reached b = true) ∧
      ∀ i ∈ (Func.ofScript "count" countingLoop).instrs, ∃ v w, r.fact? i.id = some v ∧
        m.get? i.id = some w ∧ v ≤ w := by
  obtain ⟨r, hr⟩ := exists_ok_of_isOk
    (e := (Func.ofScript "count" countingLoop).solve false) (by decide +kernel)
  exact ⟨r, hr, solve_least "count" countingLoop false r (by decide +kernel) countingLoop_strict
    (by decide +kernel) hr⟩

/-- A branch in the entry block on a phi that has no entries. -/
def emptyPhi : List Stmt :=
  [.block 0 [.append (.phi []), .append (.branch (.value 0) 1 2)],
   .block 1 [.append (.ret none)], .block 2 [.append (.ret none)]]

/-- A solution for it that takes the condition for true. -/
def trueFacts : FactMap :=
  { FactMap.ofSize 4 with facts := #[.const 1, .const 1, .overdefined, .overdefined] }

/-- The blocks that are reached if the condition is true. -/
def trueVisits : Visits :=
  ⟨#[⟨1, 0⟩, ⟨1, 1⟩, ⟨0, 1⟩]⟩

/-- A strict function whose entry block has no predecessors may still have a solution that is not
above the result: the run takes both edges of a branch of whose condition nothing is ever known. -/
theorem emptyPhi_not_least :
    ¬ ∀ (name : String) (script : List Stmt) (history : Bool) (r : Solution),
    (Func.ofScript name script).validate = .ok () → (Func.ofScript name script).Strict →
    (Func.ofScript name script).preds Func.entry = [] →
    (Func.ofScript name script).solve history = .ok r →
    ∀ (m : FactMap) (x : Visits), Solves (Func.ofScript name script) m x →
      ∀ b, r.reached b = true → x.reached b = true := by
  intro h
  have hstrict : (Func.ofScript "f" emptyPhi).Strict := by
    constructor
    case defined => decide +kernel
    case total => decide +kernel
    case used =>
      have huses : ∀ i ∈ (Func.ofScript "f" emptyPhi).instrs, i.op.isPhi = false →
          ∀ d ∈ i.op.uses, d ∈ (Func.ofScript "f" emptyPhi).listedBefore i := by decide +kernel
      exact fun i hi hphi d hd => .inl (huses i hi hphi d hd)
    case fed =>
      have hinputs : ∀ i ∈ (Func.ofScript "f" emptyPhi).instrs, i.op.phiInputs = [] := by
        decide +kernel
      intro i hi p hp
      rw [hinputs i hi] at hp
      cases hp
  have hreached : ∃ r ∈ ((Func.ofScript "f" emptyPhi).solve false).toOption,
      r.reached 2 = true := by
    decide +kernel
  have hsolves : Solves (Func.ofScript "f" emptyPhi) trueFacts trueVisits := by
    constructor
    case covers =>
      have hlive : ∀ i ∈ (Func.ofScript "f" emptyPhi).instrs, (trueFacts.get? i.id).isSome := by
        decide +kernel
      exact fun i hi => Option.isSome_iff_exists.mp (hlive i hi)
    case entry => decide +kernel
    case closed =>
      have hblocks : ∀ b ∈ List.range 3, trueVisits.reached b = true →
          ∀ i ∈ (Func.ofScript "f" emptyPhi).blockInstrs b,
            ∃ y ∈ (evaluate trueFacts trueVisits i).toOption, ∃ v ∈ trueFacts.get? i.id,
              y.fact ≤ v ∧ ∀ t ∈ y.targets, trueVisits.reached t = true := by decide +kernel
      intro b hb i hi
      obtain ⟨y, hy, v, hv, hle, htargets⟩ :=
        hblocks b (List.mem_range.mpr (Visits.lt_size_of_reached hb)) hb i hi
      exact ⟨y, v, eq_ok_of_mem_toOption hy, hv, hle, htargets⟩
  obtain ⟨r, hr, htwo⟩ := hreached
  have hfalse := h "f" emptyPhi false r (by decide +kernel) hstrict (by decide +kernel)
    (eq_ok_of_mem_toOption hr) trueFacts trueVisits hsolves 2 htwo
  revert hfalse
  decide +kernel

end ConstFlow
