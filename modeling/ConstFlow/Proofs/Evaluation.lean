import ConstFlow.Proofs.Failure
import ConstFlow.Proofs.Updates

/-!
# What evaluations give

A phi joins the facts of the entries that count, one after another, and stops once the result is
overdefined. Neither the order nor the stop can be told from the result.

* `phiFacts` : the facts of the entries that count;
* `isLUB_evalPhi` : a phi is their least upper bound, so it depends on them as a set alone;
* `joinPhi` : the same loop without the stop. It agrees where all values have facts, since no join
  leads away from overdefined (`evalPhi_eq_joinPhi`);
* `phi_merges` : both of these, for the evaluation of a phi instruction.

`evaluate_monotone` is the other law of evaluations: higher facts and more reached blocks never give
less, except for the edges of a branch of whose condition nothing was known.
-/

namespace ConstFlow

/-! ## Phis -/

/-- The facts of the phi entries that count. -/
def phiFacts (m : FactMap) (x : Visits) (ps : List PhiInput) : Set Fact :=
  {v | ∃ p ∈ ps, p.value ≠ .undef ∧ x.reached p.pred = true ∧ m.resolve p.value = .ok v}

/-- Joins all phi entries that count into `acc`, and never stops. -/
def joinPhi (m : FactMap) (x : Visits) (acc : Fact) (ps : List PhiInput) : Except Error Fact :=
  (ps.filter (·.counts x)).foldlM (fun a p => (m.resolve p.value).map a.join) acc

section Phis
variable {m : FactMap} {x : Visits} {ps qs : List PhiInput} {acc u v w : Fact} {p : PhiInput}

theorem isLUB_evalPhi (h : evalPhi m x .unknown ps = .ok v) : IsLUB (phiFacts m x ps) v := by
  constructor
  · rintro w ⟨p, hp, hdefined, hreached, hw⟩
    exact le_evalPhi_of_mem h hp (PhiInput.counts_iff.mpr ⟨hdefined, hreached⟩) hw
  · intro u hu
    refine evalPhi_le h (Fact.unknown_le u) fun p hp hc w hw => hu ⟨p, hp, ?_⟩
    obtain ⟨hdefined, hreached⟩ := PhiInput.counts_iff.mp hc
    exact ⟨hdefined, hreached, hw⟩

/-- Phis with the same facts to merge have the same result. -/
theorem evalPhi_eq_of_phiFacts (h : evalPhi m x .unknown ps = .ok v)
    (hqs : ∀ p ∈ qs, p.counts x = true → ∃ w, m.resolve p.value = .ok w)
    (hset : phiFacts m x qs = phiFacts m x ps) : evalPhi m x .unknown qs = .ok v := by
  obtain ⟨w, hw⟩ := exists_evalPhi hqs .unknown
  have hlub := isLUB_evalPhi hw
  rw [hset] at hlub
  rw [hw, hlub.unique (isLUB_evalPhi h)]

theorem joinPhi_cons (hc : p.counts x = true) (hw : m.resolve p.value = .ok w) :
    joinPhi m x acc (p :: ps) = joinPhi m x (acc.join w) ps := by
  unfold joinPhi
  rw [List.filter_cons_of_pos hc, List.foldlM_cons, hw]
  rfl

theorem joinPhi_cons_of_not (hc : ¬ p.counts x = true) :
    joinPhi m x acc (p :: ps) = joinPhi m x acc ps := by
  unfold joinPhi
  rw [List.filter_cons_of_neg hc]

/-- From overdefined the full loop comes back to overdefined. -/
theorem joinPhi_overdefined
    (h : ∀ p ∈ ps, p.counts x = true → ∃ w, m.resolve p.value = .ok w) :
    joinPhi m x .overdefined ps = .ok .overdefined := by
  induction ps with
  | nil => rfl
  | cons p ps ih =>
    have ih := ih fun q hq => h q (List.mem_cons_of_mem _ hq)
    by_cases hc : p.counts x = true
    · obtain ⟨w, hw⟩ := h p List.mem_cons_self hc
      rw [joinPhi_cons hc hw, Fact.join_eq_left.mpr (Fact.le_overdefined w), ih]
    · rw [joinPhi_cons_of_not hc, ih]

theorem evalPhi_eq_joinPhi
    (h : ∀ p ∈ ps, p.counts x = true → ∃ w, m.resolve p.value = .ok w) (acc : Fact) :
    evalPhi m x acc ps = joinPhi m x acc ps := by
  induction ps generalizing acc with
  | nil => rfl
  | cons p ps ih =>
    have hps := fun q hq => h q (List.mem_cons_of_mem p hq)
    unfold evalPhi
    by_cases hc : p.counts x = true
    · obtain ⟨w, hw⟩ := h p List.mem_cons_self hc
      rw [if_pos hc, joinPhi_cons hc hw, hw]
      dsimp only
      split
      · next hover => rw [Fact.isOverdefined_iff.mp hover, joinPhi_overdefined hps]
      · exact ih hps _
    · rw [if_neg hc, joinPhi_cons_of_not hc, ih hps]

theorem evaluate_phi {id : InstrId} {b : BlockId} (h : evalPhi m x .unknown ps = .ok v) :
    evaluate m x ⟨id, b, .phi ps⟩ = .ok ⟨v, []⟩ := by
  simp only [evaluate, h, Except.map]

end Phis

-- without a fact for the last value the loop without the stop fails
example : (evalPhi .patchy ⟨#[⟨1, 0⟩]⟩ .unknown
      [⟨.const 1, 0⟩, ⟨.const 2, 0⟩, ⟨.value 2, 0⟩]).isOk = true ∧
    (joinPhi .patchy ⟨#[⟨1, 0⟩]⟩ .unknown
      [⟨.const 1, 0⟩, ⟨.const 2, 0⟩, ⟨.value 2, 0⟩]).isOk = false := by
  decide +kernel

/-- A phi whose values all have facts can be evaluated, and is the least upper bound of the facts of
the entries that are defined and come from reached blocks: of none, nothing is known. It stays the
same when the entries are rearranged, when some are repeated, and when entries are added that are
undefined or come from blocks that were not reached or do not exist. The loop that stops at
overdefined agrees with the loop that does not. -/
theorem phi_merges (m : FactMap) (x : Visits) (id : InstrId) (b : BlockId) (ps : List PhiInput)
    (hlive : ∀ p ∈ ps, ∀ d, p.value = .value d → ∃ v, m.get? d = some v) :
    ∃ v, evaluate m x ⟨id, b, .phi ps⟩ = .ok ⟨v, []⟩ ∧ IsLUB (phiFacts m x ps) v ∧
      ((∀ p ∈ ps, p.value = .undef ∨ x.reached p.pred = false) → v = .unknown) ∧
      (∀ extra qs : List PhiInput,
        (∀ p ∈ extra, p ∈ ps ∨ p.value = .undef ∨ x.reached p.pred = false ∨ x.size ≤ p.pred) →
        qs.Perm (ps ++ extra) → evaluate m x ⟨id, b, .phi qs⟩ = .ok ⟨v, []⟩) ∧
      joinPhi m x .unknown ps = .ok v := by
  have hres : ∀ p ∈ ps, p.counts x = true → ∃ w, m.resolve p.value = .ok w :=
    fun p hp _ => FactMap.exists_resolve (hlive p hp)
  obtain ⟨v, hv⟩ := exists_evalPhi hres .unknown
  have hlub := isLUB_evalPhi hv
  refine ⟨v, evaluate_phi hv, hlub, fun hnone => ?_, fun extra qs hextra hperm => ?_,
    (evalPhi_eq_joinPhi hres .unknown).symm.trans hv⟩
  · have hbound : Fact.unknown ∈ upperBounds (phiFacts m x ps) := by
      rintro w ⟨p, hp, hdefined, hreached, -⟩
      rcases hnone p hp with hundef | hunreached
      · exact absurd hundef hdefined
      · rw [hunreached] at hreached
        cases hreached
    exact Fact.le_unknown.mp (hlub.2 hbound)
  · -- an entry that counts is one of the old entries, wherever it stands now
    have hcounts : ∀ p, p.counts x = true → (p ∈ qs ↔ p ∈ ps) := by
      intro p hc
      obtain ⟨hdefined, hreached⟩ := PhiInput.counts_iff.mp hc
      rw [hperm.mem_iff, List.mem_append]
      refine ⟨?_, .inl⟩
      rintro (hold | hp)
      · exact hold
      · rcases hextra p hp with hold | hundef | hunreached | hbeyond
        · exact hold
        · exact absurd hundef hdefined
        · rw [hunreached] at hreached
          cases hreached
        · exact absurd (Visits.lt_size_of_reached hreached) (Nat.not_lt.mpr hbeyond)
    refine evaluate_phi (evalPhi_eq_of_phiFacts hv (fun p hp hc => ?_) ?_)
    · exact hres p ((hcounts p hc).mp hp) hc
    · ext w
      refine exists_congr fun p => and_congr_left fun hp => ?_
      exact hcounts p (PhiInput.counts_iff.mpr ⟨hp.1, hp.2.1⟩)

/-- Visits to two blocks, of which the second was not entered yet. -/
def firstReached : Visits :=
  ⟨#[⟨1, 0⟩, ⟨0, 1⟩]⟩

/-- The same with the second block entered. -/
def bothReached : Visits :=
  ⟨#[⟨1, 0⟩, ⟨1, 1⟩]⟩

/-- Three entries, of which the second makes the phi overdefined. -/
def clash : List PhiInput :=
  [⟨.value 1, 0⟩, ⟨.const 4, 1⟩, ⟨.value 0, 1⟩]

/-- Entries that add nothing: the first is undefined, the second reads a value without a fact for a
block that does not exist, and the third is there already. -/
def idleEntries : List PhiInput :=
  [⟨.undef, 0⟩, ⟨.value 2, 9⟩, ⟨.const 4, 1⟩]

theorem phi_merges_clash : FactMap.patchy.get? 2 = none ∧
    evaluate .patchy bothReached ⟨5, 2, .phi clash⟩ = .ok ⟨.overdefined, []⟩ ∧
    IsLUB (phiFacts .patchy bothReached clash) .overdefined ∧
    evaluate .patchy bothReached ⟨5, 2, .phi (idleEntries ++ clash)⟩ = .ok ⟨.overdefined, []⟩ ∧
    joinPhi .patchy bothReached .unknown clash = .ok .overdefined := by
  obtain ⟨v, hv, hlub, -, hmore, hfull⟩ := phi_merges .patchy bothReached 5 2 clash (by
    intro p hp d hd
    have hvalues : ∀ q ∈ clash, ∀ e ∈ q.value.value?, (FactMap.patchy.get? e).isSome = true := by
      decide +kernel
    exact Option.isSome_iff_exists.mp (hvalues p hp d (by rw [hd]; rfl)))
  obtain rfl : v = .overdefined := by
    have hover : (evaluate .patchy bothReached ⟨5, 2, .phi clash⟩).toOption =
        some ⟨.overdefined, []⟩ := by decide +kernel
    rw [hv] at hover
    exact congrArg Yield.fact (Option.some.inj hover)
  exact ⟨by decide +kernel, hv, hlub,
    hmore idleEntries _ (by decide +kernel) List.perm_append_comm, hfull⟩

/-! ## All operations -/

theorem FactMap.le_of_live {m m' : FactMap}
    (hlive : ∀ id, (m.get? id).isSome = (m'.get? id).isSome)
    (hle : ∀ id v v', m.get? id = some v → m'.get? id = some v' → v ≤ v') : m ≤ m' := by
  intro id v hv
  have hsome := hlive id
  rw [hv, Option.isSome_some] at hsome
  obtain ⟨v', hv'⟩ := Option.isSome_iff_exists.mp hsome.symm
  exact ⟨v', hv', hle id v v' hv hv'⟩

/-- Under facts that are at least as high for the same live slots, and with at least the same blocks
reached, an instruction yields at least the same fact. Every edge that it allowed it still allows,
unless it is a branch and nothing was known of its condition. If its values have facts and it is no
branch, then both evaluations do succeed. -/
theorem evaluate_monotone (m m' : FactMap) (x x' : Visits) (i : Instr)
    (hlive : ∀ id, (m.get? id).isSome = (m'.get? id).isSome)
    (hle : ∀ id v v', m.get? id = some v → m'.get? id = some v' → v ≤ v')
    (hreached : ∀ b, x.reached b = true → x'.reached b = true)
    (hvalues : ∀ d, .value d ∈ i.op.operands → ∃ v, m.get? d = some v) :
    (∀ y y', evaluate m x i = .ok y → evaluate m' x' i = .ok y' → y.fact ≤ y'.fact ∧
      ((∀ cond onTrue onFalse, i.op = .branch cond onTrue onFalse →
          m.resolve cond ≠ .ok .unknown) → ∀ t ∈ y.targets, t ∈ y'.targets)) ∧
    ((∀ cond onTrue onFalse, i.op ≠ .branch cond onTrue onFalse) →
      ∃ y y', evaluate m x i = .ok y ∧ evaluate m' x' i = .ok y') := by
  have hm := FactMap.le_of_live hlive hle
  refine ⟨fun y y' hy hy' => ⟨evaluate_mono hm hreached hy hy', fun hknown t =>
    evaluate_targets_mono hm hy hy' hknown⟩, fun hbranch => ?_⟩
  have hsucceeds : ∀ (n : FactMap) (z : Visits), (∀ d ∈ i.op.uses, ∃ v, n.get? d = some v) →
      ∃ y, evaluate n z i = .ok y := by
    intro n z huses
    cases hy : evaluate n z i with
    | ok y => exact ⟨y, rfl⟩
    | error e =>
      obtain ⟨cond, onTrue, onFalse, -, hop, -⟩ := evaluate_fails huses hy
      exact absurd hop (hbranch cond onTrue onFalse)
  have huses : ∀ d ∈ i.op.uses, ∃ v, m.get? d = some v := fun d hd =>
    hvalues d (Op.mem_uses.mp hd)
  obtain ⟨y, hy⟩ := hsucceeds m x huses
  obtain ⟨y', hy'⟩ := hsucceeds m' x' fun d hd => by
    obtain ⟨v, hv⟩ := huses d hd
    obtain ⟨v', hv', -⟩ := hm d v hv
    exact ⟨v', hv'⟩
  exact ⟨y, y', hy, hy'⟩

-- an edge is lost when the condition of a branch becomes known
example : (evaluate .patchy bothReached ⟨4, 0, .branch (.value 0) 1 2⟩).toOption.map Yield.targets =
      some [1, 2] ∧
    (evaluate (FactMap.patchy.written (0, .const 1)) bothReached
      ⟨4, 0, .branch (.value 0) 1 2⟩).toOption.map Yield.targets = some [1] := by
  decide +kernel

theorem evaluate_monotone_clash : ∃ y y', evaluate .patchy firstReached ⟨5, 2, .phi clash⟩ = .ok y ∧
    evaluate (FactMap.patchy.after FactMap.patches) bothReached ⟨5, 2, .phi clash⟩ = .ok y' ∧
    y.fact = .const 3 ∧ y'.fact = .overdefined ∧ y.fact ≤ y'.fact := by
  have henter : firstReached.enter 1 = .ok (1, bothReached) := rfl
  obtain ⟨hmono, hok⟩ := evaluate_monotone .patchy (FactMap.patchy.after FactMap.patches)
    firstReached bothReached ⟨5, 2, .phi clash⟩
    (fun id => (FactMap.isSome_after _ _ id).symm)
    (fun id v v' hv hv' => by
      obtain ⟨w, hw, hlub⟩ := FactMap.isLUB_after FactMap.patches hv
      obtain rfl : w = v' := Option.some.inj (hw.symm.trans hv')
      exact hlub.1 (Set.mem_insert v _))
    (fun b hb => ((Visits.enter_cases henter).2.2 b).mpr (.inr hb))
    (fun d hd => by
      have hvalues : ∀ e ∈ (Op.phi clash).uses, (FactMap.patchy.get? e).isSome = true := by
        decide +kernel
      exact Option.isSome_iff_exists.mp (hvalues d (Op.mem_uses.mpr hd)))
  obtain ⟨y, y', hy, hy'⟩ := hok nofun
  have hlow : (evaluate .patchy firstReached ⟨5, 2, .phi clash⟩).toOption.map Yield.fact =
      some (.const 3) := by decide +kernel
  have hhigh : (evaluate (FactMap.patchy.after FactMap.patches) bothReached
      ⟨5, 2, .phi clash⟩).toOption.map Yield.fact = some .overdefined := by decide +kernel
  rw [hy] at hlow
  rw [hy'] at hhigh
  exact ⟨y, y', hy, hy', Option.some.inj hlow, Option.some.inj hhigh, (hmono y y' hy hy').1⟩

end ConstFlow
