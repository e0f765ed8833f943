import ConstFlow.Flow.FactMap
import ConstFlow.Flow.Visits
import ConstFlow.Proofs.BitSet
import Mathlib.Order.BoundedOrder.Basic
import Mathlib.Order.Lattice

/-!
# The order of facts, and what an update does

* `a ≤ b` : `Fact.compare?` finds `a` below `b` or equal to it; `Fact.join` is the supremum, nothing
  known is the bottom and overdefined the top;
* `m ≤ m'` : every entry of `m` is an entry of `m'`, at least as high (`FactMap.le_get`);
* `x.Within x'` : every block that `x` reached `x'` reached as well;
* `FactMap.update_cases`, `Visits.enter_cases` : what the two operations on the state of the
  analysis do, in terms of `FactMap.get?` and `Visits.reached`;
* `FactMap.level` : how far the fact of a slot has risen, which every change of it raises
  (`FactMap.update_raises`).
-/

namespace ConstFlow

/-! ## Facts -/

namespace Fact

/-- The facts that `compare?` finds below another one or equal to it. -/
instance : LE Fact where
  le a b := a.compare? b = some .lt ∨ a.compare? b = some .eq

theorem le_def (a b : Fact) : a ≤ b ↔ a.compare? b = some .lt ∨ a.compare? b = some .eq :=
  Iff.rfl

instance : DecidableLE Fact := fun a b =>
  inferInstanceAs (Decidable (a.compare? b = some .lt ∨ a.compare? b = some .eq))

@[simp] theorem unknown_le (a : Fact) : unknown ≤ a := by
  cases a <;> simp [le_def, compare?, height, Nat.compare_eq_lt]

@[simp] theorem le_overdefined (a : Fact) : a ≤ overdefined := by
  cases a <;> simp [le_def, compare?, height, Nat.compare_eq_lt]

@[simp] theorem const_le_const {a b : Int64} : const a ≤ const b ↔ a = b := by
  simp only [le_def, compare?]
  split <;> simp_all

@[simp] theorem le_unknown {a : Fact} : a ≤ unknown ↔ a = unknown := by
  cases a <;> simp [le_def, compare?, height, Nat.compare_eq_lt]

@[simp] theorem overdefined_le {a : Fact} : overdefined ≤ a ↔ a = overdefined := by
  cases a <;> simp [le_def, compare?, height, Nat.compare_eq_lt]

/-- The join is the supremum of the order. -/
instance : SemilatticeSup Fact where
  sup := join
  le_refl a := by cases a <;> simp
  le_trans a b c hab hbc := by cases a <;> cases b <;> cases c <;> simp_all
  le_antisymm a b hab hba := by cases a <;> cases b <;> simp_all
  le_sup_left a b := by
    cases a <;> cases b <;> simp [join]
    split <;> simp
  le_sup_right a b := by
    cases a <;> cases b <;> simp [join]
    split <;> simp_all
  sup_le a b c hac hbc := by cases a <;> cases b <;> cases c <;> simp_all [join]

instance : OrderBot Fact where
  bot := unknown
  bot_le := unknown_le

instance : OrderTop Fact where
  top := overdefined
  le_top := le_overdefined

theorem le_join_left (a b : Fact) : a ≤ a.join b := le_sup_left (a := a)

theorem le_join_right (a b : Fact) : b ≤ a.join b := le_sup_right (a := a)

theorem join_le {a b c : Fact} (ha : a ≤ c) (hb : b ≤ c) : a.join b ≤ c := sup_le ha hb

theorem join_mono {a a' b b' : Fact} (ha : a ≤ a') (hb : b ≤ b') : a.join b ≤ a'.join b' :=
  sup_le_sup ha hb

theorem join_eq_right {a b : Fact} : a.join b = b ↔ a ≤ b := sup_eq_right (a := a)

theorem join_eq_left {a b : Fact} : a.join b = a ↔ b ≤ a := sup_eq_left (a := a)

theorem height_lt_of_lt {a b : Fact} (h : a < b) : a.height < b.height := by
  have hle := h.le
  have hne := h.ne
  cases a <;> cases b <;> simp_all [height]

theorem height_mono {a b : Fact} (h : a ≤ b) : a.height ≤ b.height := by
  rcases eq_or_lt_of_le h with rfl | hlt
  · exact Nat.le_refl _
  · exact (height_lt_of_lt hlt).le

/-- A fact above one that says something says something. -/
theorem ne_unknown_of_le {a b : Fact} (h : a ≤ b) (ha : a ≠ unknown) : b ≠ unknown := by
  rintro rfl
  exact ha (le_unknown.mp h)

/-- Strictly between the ends a fact is below no other one. -/
theorem eq_of_known_le {a b : Fact} (h : a ≤ b) (ha : a ≠ unknown) (hb : b ≠ overdefined) :
    a = b := by
  cases a with
  | unknown => exact absurd rfl ha
  | overdefined => exact (overdefined_le.mp h).symm
  | const c =>
    cases b with
    | unknown => exact le_unknown.mp h
    | const c' => rw [const_le_const.mp h]
    | overdefined => exact absurd rfl hb

end Fact

/-! ## Maps of facts -/

namespace FactMap

/-- Every entry is an entry of the other map, at least as high. -/
instance : LE FactMap where
  le m m' := ∀ id v, m.get? id = some v → ∃ v', m'.get? id = some v' ∧ v ≤ v'

theorem le_get {m m' : FactMap} (h : m ≤ m') {id : InstrId} {v : Fact} (hv : m.get? id = some v) :
    ∃ v', m'.get? id = some v' ∧ v ≤ v' :=
  h id v hv

theorem le_refl (m : FactMap) : m ≤ m :=
  fun _ v hv => ⟨v, hv, le_rfl⟩

theorem le_trans {m₁ m₂ m₃ : FactMap} (h₁₂ : m₁ ≤ m₂) (h₂₃ : m₂ ≤ m₃) : m₁ ≤ m₃ := by
  intro id v hv
  obtain ⟨v₂, hv₂, hle₂⟩ := h₁₂ id v hv
  obtain ⟨v₃, hv₃, hle₃⟩ := h₂₃ id v₂ hv₂
  exact ⟨v₃, hv₃, hle₂.trans hle₃⟩

/-- Two entries are equal if both or none are there and each is at most the other. -/
theorem get?_eq_of_le {m m' : FactMap} {id : InstrId}
    (hlive : (m.get? id).isSome = (m'.get? id).isSome)
    (h : ∀ v v', m.get? id = some v → m'.get? id = some v' → v ≤ v' ∧ v' ≤ v) :
    m.get? id = m'.get? id := by
  cases hv : m.get? id with
  | none =>
    rw [hv, Option.isSome_none] at hlive
    exact (Option.isNone_iff_eq_none.mp (Option.isSome_eq_false_iff.mp hlive.symm)).symm
  | some v =>
    rw [hv, Option.isSome_some] at hlive
    obtain ⟨v', hv'⟩ := Option.isSome_iff_exists.mp hlive.symm
    obtain ⟨hle, hle'⟩ := h v v' hv hv'
    rw [hv', le_antisymm hle hle']

/-- An update joins into one entry and leaves the others; it answers the new entry if it differs. -/
theorem update_cases {m m' : FactMap} {id : InstrId} {v : Fact} {o : Option Fact}
    (h : m.update id v = .ok (o, m')) :
    ∃ old, m.get? id = some old ∧ (o = none ↔ v ≤ old) ∧
      ∀ j, m'.get? j = if j = id then some (old.join v) else m.get? j := by
  unfold update at h
  split at h
  · cases h
  · next old hold =>
    refine ⟨old, hold, ?_⟩
    split at h
    · next heq =>
      simp only [Except.ok.injEq, Prod.mk.injEq] at h
      obtain ⟨rfl, rfl⟩ := h
      refine ⟨by simpa using Fact.join_eq_left.mp heq, fun j => ?_⟩
      split
      · next hj => rw [hj, hold, heq]
      · rfl
    · next hne =>
      simp only [Except.ok.injEq, Prod.mk.injEq] at h
      obtain ⟨rfl, rfl⟩ := h
      refine ⟨by simpa using fun hle => hne (Fact.join_eq_left.mpr hle), fun j => ?_⟩
      unfold get? at hold ⊢
      split at hold
      · next hc =>
        have hlt : id < m.facts.size := (Array.getElem?_eq_some_iff.mp hold).1
        by_cases hj : j = id
        · subst hj
          rw [if_pos rfl, contains, if_pos (by exact hc),
            Array.getElem?_setIfInBounds_self_of_lt hlt]
        · rw [if_neg hj, Array.getElem?_setIfInBounds_ne (Ne.symm hj)]
          rfl
      · cases hold

/-- A fact that an update answers is above the one before, and takes its place. -/
theorem update_raises {m m' : FactMap} {id : InstrId} {v w : Fact}
    (h : m.update id v = .ok (some w, m')) :
    ∃ old, m.get? id = some old ∧ old < w ∧
      ∀ j, m'.get? j = if j = id then some w else m.get? j := by
  obtain ⟨old, hold, hanswer, hget⟩ := update_cases h
  have hw : w = old.join v := by
    unfold update at h
    simp only [hold] at h
    split at h
    · cases h
    · cases h
      rfl
  have hnot : ¬ v ≤ old := fun hle => nomatch hanswer.mpr hle
  refine ⟨old, hold, ?_, hw ▸ hget⟩
  rw [hw]
  exact lt_of_le_of_ne (Fact.le_join_left old v) fun heq => hnot (Fact.join_eq_left.mp heq.symm)

/-- How high the fact of a slot stands; a slot without a fact stands at the bottom. -/
def level (m : FactMap) (id : InstrId) : Nat :=
  ((m.get? id).getD .unknown).height

theorem level_mono {m m' : FactMap} (h : m ≤ m') (id : InstrId) : m.level id ≤ m'.level id := by
  unfold level
  cases hv : m.get? id with
  | none => exact Nat.zero_le _
  | some v =>
    obtain ⟨v', hv', hle⟩ := h id v hv
    rw [hv']
    exact Fact.height_mono hle

end FactMap

/-! ## Visits -/

namespace Visits

/-- Every block reached by the first was reached by the second. -/
def Within (x x' : Visits) : Prop :=
  ∀ b, x.reached b = true → x'.reached b = true

theorem Within.refl (x : Visits) : x.Within x := fun _ h => h

theorem Within.trans {x₁ x₂ x₃ : Visits} (h₁₂ : x₁.Within x₂) (h₂₃ : x₂.Within x₃) :
    x₁.Within x₃ :=
  fun b hb => h₂₃ b (h₁₂ b hb)

theorem reached_iff {x : Visits} {b : BlockId} :
    x.reached b = true ↔ ∃ t, x.tally? b = some t ∧ 0 < t.done := by
  unfold reached done
  cases x.tally? b with
  | none => simp
  | some t => simp

theorem lt_size_of_reached {x : Visits} {b : BlockId} (h : x.reached b = true) : b < x.size := by
  obtain ⟨t, ht, -⟩ := reached_iff.mp h
  exact (Array.getElem?_eq_some_iff.mp ht).1

/-- A block that exists and may not be visited again was visited. -/
theorem reached_of_not_isOpen {x : Visits} {b : BlockId} (hb : b < x.size)
    (h : ¬ x.isOpen b = true) : x.reached b = true := by
  have ht : x.tally? b = some x.tallies[b] := Array.getElem?_eq_getElem hb
  simp only [isOpen, ht, Tally.isOpen, Bool.or_eq_true, beq_iff_eq, not_or] at h
  exact reached_iff.mpr ⟨_, ht, Nat.pos_of_ne_zero h.1⟩

theorem exists_enter {x : Visits} {b : BlockId} (h : b < x.size) :
    ∃ n x', x.enter b = .ok (n, x') := by
  rw [enter, show x.tally? b = some x.tallies[b] from Array.getElem?_eq_getElem h]
  exact ⟨_, _, rfl⟩

/-- Entering a block makes it reached and changes no other block. -/
theorem enter_cases {x x' : Visits} {b : BlockId} {n : Nat} (h : x.enter b = .ok (n, x')) :
    b < x.size ∧ x'.size = x.size ∧
      ∀ a, x'.reached a = true ↔ a = b ∨ x.reached a = true := by
  unfold enter at h
  split at h
  · next t ht =>
    simp only [Except.ok.injEq, Prod.mk.injEq] at h
    obtain ⟨-, rfl⟩ := h
    have hlt : b < x.tallies.size := (Array.getElem?_eq_some_iff.mp ht).1
    refine ⟨hlt, by simp [size], fun a => ?_⟩
    rw [reached_iff, reached_iff, tally?, tally?]
    by_cases ha : a = b
    · subst ha
      simp [hlt, Tally.succ]
    · rw [Array.getElem?_setIfInBounds_ne (Ne.symm ha)]
      simp [ha]
  · cases h

@[simp] theorem size_ofFunc (f : Func) : (ofFunc f).size = f.blockCount := by
  simp [ofFunc, ofEdges, size, Func.blockCount]

theorem not_reached_ofFunc (f : Func) (b : BlockId) : ¬ (ofFunc f).reached b = true := by
  rw [reached_iff]
  rintro ⟨t, ht, hpos⟩
  simp only [tally?, ofFunc, ofEdges, List.getElem?_toArray, List.getElem?_map,
    Option.map_eq_some_iff] at ht
  obtain ⟨_, -, rfl⟩ := ht
  exact absurd hpos (Nat.lt_irrefl 0)

end Visits

end ConstFlow
