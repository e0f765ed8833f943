import ConstFlow.Flow.Transfer
import ConstFlow.Proofs.Order
import ConstFlow.Proofs.Users

/-!
# What the transfer functions depend on

`evaluate` reads the facts of the values that an instruction uses and, for a phi, which of the named
predecessors were reached; nothing else matters to it (`evaluate_congr`). It is monotone in both
(`evaluate_mono`). For the edges of a branch that holds only once something is known of the
condition (`evaluate_targets_mono`): of an unknown condition both edges may be taken, of a constant
one only one.
-/

namespace ConstFlow

variable {m m' : FactMap} {x x' : Visits} {i : Instr} {y y' : Yield}

/-- Only terminators have edges. -/
theorem Op.isTerminator_of_mem_successors {op : Op} {t : BlockId} (h : t ∈ op.successors) :
    op.isTerminator = true := by
  cases op <;> simp_all [Op.successors, Op.isTerminator]

/-! ## Operands -/

theorem FactMap.get_eq_ok {id : InstrId} {v : Fact} : m.get id = .ok v ↔ m.get? id = some v := by
  unfold FactMap.get
  cases m.get? id with
  | none => simp
  | some w => simp

theorem FactMap.resolve_congr {o : Operand} (h : ∀ d, o = .value d → m.get? d = m'.get? d) :
    m.resolve o = m'.resolve o := by
  cases o with
  | const c => rfl
  | value d => simp only [FactMap.resolve, FactMap.get, h d rfl]
  | undef => rfl

theorem FactMap.resolve_mono (h : m ≤ m') {o : Operand} {v : Fact} (hv : m.resolve o = .ok v) :
    ∃ v', m'.resolve o = .ok v' ∧ v ≤ v' := by
  cases o with
  | const c => exact ⟨v, hv, le_rfl⟩
  | undef => exact ⟨v, hv, le_rfl⟩
  | value d =>
    obtain ⟨v', hv', hle⟩ := FactMap.le_get h (FactMap.get_eq_ok.mp hv)
    exact ⟨v', FactMap.get_eq_ok.mpr hv', hle⟩

theorem Fact.lift₂_mono (g : Int64 → Int64 → Int64) {a a' b b' : Fact} (ha : a ≤ a')
    (hb : b ≤ b') : a.lift₂ g b ≤ a'.lift₂ g b' := by
  cases a <;> cases a' <;> cases b <;> cases b' <;> simp_all [Fact.lift₂]

theorem evalBinary_ok {g : Int64 → Int64 → Int64} {left right : Operand}
    (h : evalBinary m g left right = .ok y) :
    ∃ a b, m.resolve left = .ok a ∧ m.resolve right = .ok b ∧ y = ⟨a.lift₂ g b, []⟩ := by
  unfold evalBinary at h
  split at h
  · cases h
  · next a ha =>
    split at h
    · cases h
    · next b hb =>
      cases h
      exact ⟨a, b, ha, hb, rfl⟩

theorem evalBinary_congr {g : Int64 → Int64 → Int64} {left right : Operand}
    (hl : m.resolve left = m'.resolve left) (hr : m.resolve right = m'.resolve right) :
    evalBinary m g left right = evalBinary m' g left right := by
  unfold evalBinary
  rw [hl, hr]

/-! ## Phis -/

theorem PhiInput.counts_iff {p : PhiInput} :
    p.counts x = true ↔ p.value ≠ .undef ∧ x.reached p.pred = true := by
  rw [PhiInput.counts, Bool.and_eq_true]
  cases p.value <;> simp [Operand.isUndef]

theorem PhiInput.counts_mono (h : x.Within x') {p : PhiInput} (hp : p.counts x = true) :
    p.counts x' = true := by
  rw [PhiInput.counts_iff] at hp ⊢
  exact ⟨hp.1, h _ hp.2⟩

theorem Fact.isOverdefined_iff {a : Fact} : a.isOverdefined = true ↔ a = .overdefined := by
  rw [Fact.isOverdefined, beq_iff_eq]

theorem Fact.le_of_isOverdefined {b : Fact} (h : b.isOverdefined = true) (a : Fact) : a ≤ b := by
  rw [Fact.isOverdefined_iff.mp h]
  exact Fact.le_overdefined a

/-- A phi is at least as high as what it started from. -/
theorem le_evalPhi (ps : List PhiInput) {acc v : Fact} (h : evalPhi m x acc ps = .ok v) :
    acc ≤ v := by
  induction ps generalizing acc with
  | nil =>
    cases h
    exact le_rfl
  | cons p ps ih =>
    unfold evalPhi at h
    split at h
    · split at h
      · cases h
      · next w hw =>
        split at h
        · cases h
          exact Fact.le_join_left _ _
        · exact (Fact.le_join_left _ _).trans (ih h)
    · exact ih h

/-- A phi is at least as high as every entry that counts, also behind the point where it stops. -/
theorem le_evalPhi_of_mem {ps : List PhiInput} {acc v : Fact} (h : evalPhi m x acc ps = .ok v)
    {p : PhiInput} (hp : p ∈ ps) (hc : p.counts x = true) {w : Fact}
    (hw : m.resolve p.value = .ok w) : w ≤ v := by
  induction ps generalizing acc with
  | nil => cases hp
  | cons q ps ih =>
    unfold evalPhi at h
    rcases List.mem_cons.mp hp with rfl | hp
    · rw [if_pos hc, hw] at h
      dsimp only at h
      split at h
      · cases h
        exact Fact.le_join_right _ _
      · exact (Fact.le_join_right _ _).trans (le_evalPhi ps h)
    · split at h
      · split at h
        · cases h
        · split at h
          · next hover =>
            cases h
            exact Fact.le_of_isOverdefined hover w
          · exact ih h hp
      · exact ih h hp

/-- What is above the start and above every entry that counts is above the phi. -/
theorem evalPhi_le {ps : List PhiInput} {acc u v : Fact} (h : evalPhi m x acc ps = .ok v)
    (hacc : acc ≤ u)
    (hps : ∀ p ∈ ps, p.counts x = true → ∀ w, m.resolve p.value = .ok w → w ≤ u) : v ≤ u := by
  induction ps generalizing acc with
  | nil =>
    cases h
    exact hacc
  | cons p ps ih =>
    have hrest := fun q hq => hps q (List.mem_cons_of_mem p hq)
    unfold evalPhi at h
    split at h
    · next hc =>
      split at h
      · cases h
      · next w hw =>
        have hjoin := Fact.join_le hacc (hps p List.mem_cons_self hc w hw)
        split at h
        · cases h
          exact hjoin
        · exact ih h hjoin hrest
    · exact ih h hacc hrest

theorem evalPhi_mono (hm : m ≤ m') (hx : x.Within x') (ps : List PhiInput) :
    ∀ {acc acc' v v' : Fact}, acc ≤ acc' → evalPhi m x acc ps = .ok v →
      evalPhi m' x' acc' ps = .ok v' → v ≤ v' := by
  induction ps with
  | nil =>
    intro acc acc' v v' hacc h h'
    cases h
    cases h'
    exact hacc
  | cons p ps ih =>
    intro acc acc' v v' hacc h h'
    unfold evalPhi at h
    split at h
    · next hc =>
      unfold evalPhi at h'
      rw [if_pos (PhiInput.counts_mono hx hc)] at h'
      split at h
      · cases h
      · next a ha =>
        obtain ⟨a', ha', hle⟩ := FactMap.resolve_mono hm ha
        have hjoin := Fact.join_mono hacc hle
        rw [ha'] at h'
        dsimp only at h'
        split at h'
        · next hover =>
          cases h'
          exact Fact.le_of_isOverdefined hover v
        · next hover' =>
          split at h
          · -- the lower phi stopped, so the higher one had to
            next hover =>
            rw [Fact.isOverdefined_iff.mp hover, Fact.overdefined_le] at hjoin
            exact absurd (Fact.isOverdefined_iff.mpr hjoin) hover'
          · exact ih hjoin h h'
    · unfold evalPhi at h'
      split at h'
      · split at h'
        · cases h'
        · next a' ha' =>
          split at h'
          · next hover =>
            cases h'
            exact Fact.le_of_isOverdefined hover v
          · exact ih (hacc.trans (Fact.le_join_left _ _)) h h'
      · exact ih hacc h h'

theorem evalPhi_congr {ps : List PhiInput}
    (hm : ∀ p ∈ ps, m.resolve p.value = m'.resolve p.value)
    (hx : ∀ p ∈ ps, x.reached p.pred = x'.reached p.pred) (acc : Fact) :
    evalPhi m x acc ps = evalPhi m' x' acc ps := by
  induction ps generalizing acc with
  | nil => rfl
  | cons p ps ih =>
    have ih := fun acc => ih (fun q hq => hm q (List.mem_cons_of_mem _ hq))
      (fun q hq => hx q (List.mem_cons_of_mem _ hq)) acc
    have hc : p.counts x = p.counts x' := by
      rw [PhiInput.counts, PhiInput.counts, hx p List.mem_cons_self]
    rw [evalPhi, evalPhi, hc, hm p List.mem_cons_self]
    simp only [ih]

/-! ## Instructions -/

theorem evaluate_congr (hm : ∀ d ∈ i.op.uses, m.get? d = m'.get? d)
    (hx : ∀ p ∈ i.op.phiInputs, x.reached p.pred = x'.reached p.pred) :
    evaluate m x i = evaluate m' x' i := by
  have hres : ∀ o ∈ i.op.operands, m.resolve o = m'.resolve o := by
    intro o ho
    apply FactMap.resolve_congr
    rintro d rfl
    exact hm d (Op.mem_uses.mpr ho)
  unfold evaluate
  revert hres hx
  cases i.op with
  | jump t => exact fun _ _ => rfl
  | ret v => exact fun _ _ => rfl
  | uninterpreted n args => exact fun _ _ => rfl
  | branch c t e =>
    intro _ hres
    simp only [hres c List.mem_cons_self]
  | compare p l r =>
    intro _ hres
    exact evalBinary_congr (hres l (by simp [Op.operands])) (hres r (by simp [Op.operands]))
  | add l r =>
    intro _ hres
    exact evalBinary_congr (hres l (by simp [Op.operands])) (hres r (by simp [Op.operands]))
  | sub l r =>
    intro _ hres
    exact evalBinary_congr (hres l (by simp [Op.operands])) (hres r (by simp [Op.operands]))
  | phi ps =>
    intro hx hres
    dsimp only
    rw [evalPhi_congr (fun p hp => hres p.value (List.mem_map_of_mem hp)) hx]

/-- Only a phi looks at visits. -/
theorem evaluate_congr_facts (hm : ∀ d ∈ i.op.uses, m.get? d = m'.get? d) :
    evaluate m x i = evaluate m' x i :=
  evaluate_congr hm fun _ _ => rfl

/-- What an instruction that was evaluated yields, by its operation. -/
theorem evaluate_ok (h : evaluate m x i = .ok y) :
    match i.op with
    | .jump target => y = ⟨.overdefined, [target]⟩
    | .branch cond onTrue onFalse =>
      m.resolve cond = .ok y.fact ∧ branchTargets i.block y.fact onTrue onFalse = .ok y.targets
    | .compare p left right =>
      ∃ a b, m.resolve left = .ok a ∧ m.resolve right = .ok b ∧ y = ⟨a.lift₂ p.word b, []⟩
    | .add left right =>
      ∃ a b, m.resolve left = .ok a ∧ m.resolve right = .ok b ∧ y = ⟨a.lift₂ (· + ·) b, []⟩
    | .sub left right =>
      ∃ a b, m.resolve left = .ok a ∧ m.resolve right = .ok b ∧ y = ⟨a.lift₂ (· - ·) b, []⟩
    | .phi inputs => evalPhi m x .unknown inputs = .ok y.fact ∧ y.targets = []
    | .ret _ | .uninterpreted .. => y = ⟨.overdefined, []⟩ := by
  unfold evaluate at h
  revert h
  cases i.op with
  | jump t => exact fun h => (Except.ok.inj h).symm
  | ret v => exact fun h => (Except.ok.inj h).symm
  | uninterpreted n args => exact fun h => (Except.ok.inj h).symm
  | compare p l r => exact fun h => evalBinary_ok h
  | add l r => exact fun h => evalBinary_ok h
  | sub l r => exact fun h => evalBinary_ok h
  | branch c t e =>
    intro h
    dsimp only at h ⊢
    split at h
    · cases h
    · next v hv =>
      cases hb : branchTargets i.block v t e with
      | error e => simp [hb, Except.map] at h
      | ok ts =>
        simp only [hb, Except.map, Except.ok.injEq] at h
        subst h
        exact ⟨hv, hb⟩
  | phi ps =>
    intro h
    dsimp only at h ⊢
    cases hv : evalPhi m x .unknown ps with
    | error e => simp [hv, Except.map] at h
    | ok v =>
      simp only [hv, Except.map, Except.ok.injEq] at h
      subst h
      exact ⟨rfl, rfl⟩

/-- The edges of a branch that may be taken: both, unless the condition is a constant. -/
theorem mem_branchTargets {b onTrue onFalse t : BlockId} {v : Fact} {ts : List BlockId}
    (h : branchTargets b v onTrue onFalse = .ok ts) :
    t ∈ ts ↔ t = onTrue ∧ v ≠ .const 0 ∨ t = onFalse ∧ v ≠ .const 1 := by
  unfold branchTargets at h
  split at h
  · next c =>
    split at h
    · next hc =>
      cases h
      simp [hc]
    · split at h
      · next hc =>
        cases h
        simp [hc]
      · cases h
  · next hv =>
    cases h
    have hne : ∀ c, v ≠ .const c := hv
    simp [hne]

/-- The edges that may be taken are edges of the instruction. -/
theorem mem_successors_of_mem_targets (h : evaluate m x i = .ok y) {t : BlockId}
    (ht : t ∈ y.targets) : t ∈ i.op.successors := by
  have hy := evaluate_ok h
  revert hy
  cases i.op with
  | jump target =>
    rintro rfl
    exact ht
  | branch c onTrue onFalse =>
    rintro ⟨-, hb⟩
    rcases (mem_branchTargets hb).mp ht with ⟨rfl, -⟩ | ⟨rfl, -⟩
    · exact List.mem_cons_self
    · exact List.mem_cons_of_mem _ List.mem_cons_self
  | phi ps =>
    rintro ⟨-, hnil⟩
    rw [hnil] at ht
    cases ht
  | ret v =>
    rintro rfl
    cases ht
  | uninterpreted n args =>
    rintro rfl
    cases ht
  | compare p l r =>
    rintro ⟨a, b, -, -, rfl⟩
    cases ht
  | add l r =>
    rintro ⟨a, b, -, -, rfl⟩
    cases ht
  | sub l r =>
    rintro ⟨a, b, -, -, rfl⟩
    cases ht

/-- Higher facts and more visits give a higher fact. -/
theorem evaluate_mono (hm : m ≤ m') (hx : x.Within x') (hy : evaluate m x i = .ok y)
    (hy' : evaluate m' x' i = .ok y') : y.fact ≤ y'.fact := by
  have hlift : ∀ (g : Int64 → Int64 → Int64) (l r : Operand),
      (∃ a b, m.resolve l = .ok a ∧ m.resolve r = .ok b ∧ y = ⟨a.lift₂ g b, []⟩) →
      (∃ a b, m'.resolve l = .ok a ∧ m'.resolve r = .ok b ∧ y' = ⟨a.lift₂ g b, []⟩) →
      y.fact ≤ y'.fact := by
    rintro g l r ⟨a, b, ha, hb, rfl⟩ ⟨a', b', ha', hb', rfl⟩
    obtain ⟨a'', ha'', hle⟩ := FactMap.resolve_mono hm ha
    obtain ⟨b'', hb'', hle'⟩ := FactMap.resolve_mono hm hb
    obtain rfl : a'' = a' := Except.ok.inj (ha''.symm.trans ha')
    obtain rfl : b'' = b' := Except.ok.inj (hb''.symm.trans hb')
    exact Fact.lift₂_mono g hle hle'
  have h := evaluate_ok hy
  have h' := evaluate_ok hy'
  revert h h'
  cases i.op with
  | jump target =>
    rintro rfl rfl
    exact le_rfl
  | ret v =>
    rintro rfl rfl
    exact le_rfl
  | uninterpreted n args =>
    rintro rfl rfl
    exact le_rfl
  | compare p l r => exact hlift p.word l r
  | add l r => exact hlift (· + ·) l r
  | sub l r => exact hlift (· - ·) l r
  | phi ps => exact fun h h' => evalPhi_mono hm hx ps le_rfl h.1 h'.1
  | branch c t e =>
    rintro ⟨hc, -⟩ ⟨hc', -⟩
    obtain ⟨v, hv, hle⟩ := FactMap.resolve_mono hm hc
    obtain rfl := Except.ok.inj (hv.symm.trans hc')
    exact hle

/-- Higher facts and more visits allow more edges, unless nothing was known of the condition. -/
theorem evaluate_targets_mono (hm : m ≤ m') (hy : evaluate m x i = .ok y)
    (hy' : evaluate m' x' i = .ok y')
    (hknown : ∀ c t e, i.op = .branch c t e → m.resolve c ≠ .ok .unknown) {t : BlockId}
    (ht : t ∈ y.targets) : t ∈ y'.targets := by
  have hsucc := mem_successors_of_mem_targets hy ht
  have h := evaluate_ok hy
  have h' := evaluate_ok hy'
  revert h h' hsucc hknown
  cases i.op with
  | jump target =>
    rintro - - rfl rfl
    exact ht
  | branch c onTrue onFalse =>
    rintro hknown - ⟨hc, hb⟩ ⟨hc', hb'⟩
    obtain ⟨v, hv, hle⟩ := FactMap.resolve_mono hm hc
    obtain rfl := Except.ok.inj (hv.symm.trans hc')
    have hne : y.fact ≠ .unknown := fun hun => hknown c onTrue onFalse rfl (hun ▸ hc)
    -- a known fact below a constant is that constant, so no edge is lost
    have hconst : ∀ k, y'.fact = .const k → y.fact = .const k := by
      intro k hk
      rw [hk] at hle
      cases hfact : y.fact with
      | unknown => exact absurd hfact hne
      | const k' => rw [hfact, Fact.const_le_const] at hle; rw [hle]
      | overdefined => rw [hfact] at hle; simp at hle
    rw [mem_branchTargets hb']
    rcases (mem_branchTargets hb).mp ht with ⟨rfl, hv⟩ | ⟨rfl, hv⟩
    · exact .inl ⟨rfl, fun h => hv (hconst _ h)⟩
    · exact .inr ⟨rfl, fun h => hv (hconst _ h)⟩
  | _ => exact fun _ hsucc => absurd hsucc List.not_mem_nil

end ConstFlow
