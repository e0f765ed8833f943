import ConstFlow.Proofs.Order
import Mathlib.Data.List.Basic
import Mathlib.Order.Bounds.Basic

/-!
# Updates in any order

An update joins a fact into a slot. After any updates a slot holds the least upper bound of the fact
that it began with and of all facts that were joined into it (`FactMap.isLUB_after`). The order of
the updates does not matter, not even to the slots without a fact (`FactMap.after_perm`).

* `FactMap.written`, `FactMap.answer` : what an update leaves and what it answers;
* `FactMap.after`, `FactMap.answers` : the same for updates one after another;
* `FactMap.answer_live` : an update of a live slot answers the new fact if it changed;
* `FactMap.answer_dead`, `FactMap.written_dead` : one of another slot fails and leaves the map;
* `FactMap.level_after` : each answer that tells of a change stands for a rise of the slot, so there
  are at most two of them.
-/

namespace ConstFlow

/-- A fact is at most another one if nothing is known, or they are the same, or the other one is
overdefined. -/
theorem Fact.le_iff {a b : Fact} : a ≤ b ↔ a = .unknown ∨ a = b ∨ b = .overdefined := by
  cases a <;> cases b <;> simp

/-- The upper bounds of two facts are those of their join. -/
theorem Fact.isLUB_insert_join {a b c : Fact} {s : Set Fact} :
    IsLUB (insert (a.join b) s) c ↔ IsLUB (insert a (insert b s)) c := by
  rw [IsLUB, IsLUB, upperBounds_insert, upperBounds_insert, upperBounds_insert, ← Set.inter_assoc,
    Set.Ici_inter_Ici]
  rfl

namespace FactMap

/-- The map that an update leaves. An update that fails changes nothing. -/
def written (m : FactMap) (w : InstrId × Fact) : FactMap :=
  match m.update w.1 w.2 with
  | .ok (_, m') => m'
  | .error _ => m

/-- What an update answers. -/
def answer (m : FactMap) (w : InstrId × Fact) : Except Error (Option Fact) :=
  (m.update w.1 w.2).map (·.1)

/-- The map that updates leave, made one after another. -/
def after (m : FactMap) (ws : List (InstrId × Fact)) : FactMap :=
  ws.foldl written m

/-- What updates answer, made one after another. -/
def answers (m : FactMap) : List (InstrId × Fact) → List (Except Error (Option Fact))
  | [] => []
  | w :: ws => m.answer w :: (m.written w).answers ws

/-- The answer tells of a change. -/
def tellsChange : Except Error (Option Fact) → Bool
  | .ok (some _) => true
  | _ => false

/-- The number of updates of slot `id` that told of a change. -/
def changesTold (m : FactMap) (id : InstrId) (ws : List (InstrId × Fact)) : Nat :=
  (ws.zip (m.answers ws)).countP fun c => c.1.1 == id && tellsChange c.2

section Updates
variable {m m' : FactMap} {id j : InstrId} {v w : Fact} {ws ws' : List (InstrId × Fact)}

/-! ## One update -/

theorem get?_of_update_error {e : Error} (h : m.update id v = .error e) : m.get? id = none := by
  unfold update at h
  split at h
  · next hnone => exact hnone
  · split at h <;> cases h

/-- An update joins into the entry of one slot and leaves the others. -/
theorem get?_written (m : FactMap) (id : InstrId) (v : Fact) (j : InstrId) :
    (m.written (id, v)).get? j =
      if j = id then (m.get? j).map (·.join v) else m.get? j := by
  unfold written
  cases h : m.update id v with
  | error e =>
    dsimp only
    split
    · next hj => rw [hj, get?_of_update_error h, Option.map_none]
    · rfl
  | ok p =>
    obtain ⟨old, hold, -, hget⟩ := update_cases h
    rw [hget]
    split
    · next hj => rw [hj, hold, Option.map_some]
    · rfl

theorem le_written (m : FactMap) (c : InstrId × Fact) : m ≤ m.written c := by
  intro j v hv
  rw [get?_written, hv]
  split
  · exact ⟨v.join c.2, rfl, Fact.le_join_left v c.2⟩
  · exact ⟨v, rfl, le_rfl⟩

theorem written_dead (h : m.get? id = none) (v : Fact) : m.written (id, v) = m := by
  unfold written update
  rw [h]

/-- In the slots behind the map the join takes the place of the fact, also where it is the same. -/
theorem written_live (h : m.get? id = some w) (v : Fact) :
    m.written (id, v) = { m with facts := m.facts.setIfInBounds id (w.join v) } := by
  unfold written update
  rw [h]
  dsimp only
  by_cases hsame : w.join v = w
  · have hslot : m.facts[id]? = some w := by
      unfold get? at h
      split at h
      · exact h
      · cases h
    obtain ⟨hlt, rfl⟩ := Array.getElem?_eq_some_iff.mp hslot
    rw [if_pos hsame, hsame, Array.setIfInBounds_def, dif_pos hlt, Array.set_getElem_self]
  · rw [if_neg hsame]

/-- Two updates can change places. -/
theorem written_comm (m : FactMap) (c d : InstrId × Fact) :
    (m.written c).written d = (m.written d).written c := by
  obtain ⟨i, v⟩ := c
  obtain ⟨k, w⟩ := d
  have hi := get?_written m k w i
  have hk := get?_written m i v k
  cases ha : m.get? i with
  | none =>
    rw [ha, Option.map_none, ite_self] at hi
    rw [written_dead ha, written_dead hi]
  | some a =>
    cases hb : m.get? k with
    | none =>
      rw [hb, Option.map_none, ite_self] at hk
      rw [written_dead hb, written_dead hk]
    | some b =>
      rw [ha] at hi
      rw [hb] at hk
      by_cases hik : i = k
      · subst hik
        obtain rfl : a = b := Option.some.inj (ha.symm.trans hb)
        rw [if_pos rfl, Option.map_some] at hi hk
        rw [written_live hk, written_live hi, written_live ha, written_live ha]
        simp only [Array.setIfInBounds_setIfInBounds]
        rw [show (a.join v).join w = (a.join w).join v from sup_right_comm a v w]
      · rw [if_neg hik] at hi
        rw [if_neg (Ne.symm hik)] at hk
        rw [written_live hk, written_live hi, written_live ha, written_live hb]
        simp only
        rw [Array.setIfInBounds_comm _ _ hik]

/-- An update of a live slot answers the new fact of the slot if it is not the old one. -/
theorem answer_live (h : m.get? id = some w) (v : Fact) :
    ∃ o, m.answer (id, v) = .ok o ∧
      ∀ u, o = some u ↔ (m.written (id, v)).get? id = some u ∧ m.get? id ≠ some u := by
  have hnew : (m.written (id, v)).get? id = some (w.join v) := by
    rw [get?_written, if_pos rfl, h, Option.map_some]
  rw [hnew, h]
  unfold answer update
  rw [h]
  dsimp only
  by_cases hsame : w.join v = w
  · rw [if_pos hsame, hsame]
    refine ⟨none, rfl, fun u => ⟨nofun, ?_⟩⟩
    rintro ⟨hu, hne⟩
    exact absurd hu hne
  · rw [if_neg hsame]
    refine ⟨some (w.join v), rfl, fun u => ⟨fun hu => ⟨hu, ?_⟩, fun hu => hu.1⟩⟩
    rw [← hu]
    exact fun heq => hsame (Option.some.inj heq).symm

/-- An update of a slot without a fact fails. -/
theorem answer_dead (h : m.get? id = none) (v : Fact) :
    m.answer (id, v) = .error (.missingFact id) := by
  unfold answer update
  rw [h]
  rfl

/-! ## Many updates -/

theorem after_append (m : FactMap) (ws ws' : List (InstrId × Fact)) :
    m.after (ws ++ ws') = (m.after ws).after ws' :=
  List.foldl_append

theorem isSome_after (m : FactMap) (ws : List (InstrId × Fact)) (id : InstrId) :
    ((m.after ws).get? id).isSome = (m.get? id).isSome := by
  induction ws generalizing m with
  | nil => rfl
  | cons c ws ih =>
    rw [after, List.foldl_cons]
    refine (ih (m.written c)).trans ?_
    rw [get?_written]
    split
    · exact Option.isSome_map
    · rfl

/-- After updates the fact of a slot is the least one above the fact before and above all that were
joined into it. -/
theorem isLUB_after (ws : List (InstrId × Fact)) (h : m.get? id = some v) :
    ∃ v', (m.after ws).get? id = some v' ∧ IsLUB (insert v {w | (id, w) ∈ ws}) v' := by
  induction ws generalizing m v with
  | nil =>
    refine ⟨v, h, ?_⟩
    simp only [List.not_mem_nil, Set.ofPred_false, insert_empty_eq]
    exact isLUB_singleton
  | cons c ws ih =>
    obtain ⟨k, w⟩ := c
    have hwritten := get?_written m k w id
    rw [h] at hwritten
    by_cases hk : id = k
    · subst hk
      rw [if_pos rfl, Option.map_some] at hwritten
      obtain ⟨v', hv', hlub⟩ := ih hwritten
      have hset : {u | (id, u) ∈ (id, w) :: ws} = insert w {u | (id, u) ∈ ws} := by
        ext u
        simp
      rw [hset]
      exact ⟨v', hv', Fact.isLUB_insert_join.mp hlub⟩
    · rw [if_neg hk] at hwritten
      obtain ⟨v', hv', hlub⟩ := ih hwritten
      have hset : {u | (id, u) ∈ (k, w) :: ws} = {u | (id, u) ∈ ws} := by
        ext u
        simp [hk]
      rw [hset]
      exact ⟨v', hv', hlub⟩

/-- The order of updates does not matter. -/
theorem after_perm (m : FactMap) (h : ws'.Perm ws) : m.after ws' = m.after ws :=
  h.foldl_eq' (fun c _ d _ n => written_comm n c d) m

theorem getElem?_answers (m : FactMap) (ws : List (InstrId × Fact)) (k : Nat) :
    (m.answers ws)[k]? = ws[k]?.map (m.after (ws.take k)).answer := by
  induction ws generalizing m k with
  | nil => rfl
  | cons c ws ih =>
    cases k with
    | zero => rfl
    | succ k => exact ih (m.written c) k

theorem after_take_succ (m : FactMap) {k : Nat} {c : InstrId × Fact} (h : ws[k]? = some c) :
    m.after (ws.take (k + 1)) = (m.after (ws.take k)).written c := by
  rw [List.take_add_one, h, Option.toList_some, after_append]
  rfl

/-- An update that tells of a change of a slot raises its fact. -/
theorem level_written (m : FactMap) (id : InstrId) (c : InstrId × Fact) :
    m.level id + (if c.1 == id && tellsChange (m.answer c) then 1 else 0) ≤
      (m.written c).level id := by
  split
  · next htold =>
    rw [Bool.and_eq_true, beq_iff_eq] at htold
    obtain ⟨rfl, htold⟩ := htold
    unfold answer at htold
    cases hup : m.update c.1 c.2 with
    | error e =>
      rw [hup] at htold
      cases htold
    | ok p =>
      obtain ⟨o, m'⟩ := p
      rw [hup] at htold
      cases o with
      | none => cases htold
      | some w =>
        obtain ⟨old, hold, hlt, hget⟩ := update_raises hup
        have hwritten : m.written c = m' := by
          unfold written
          rw [hup]
        rw [hwritten, level, level, hget, if_pos rfl, hold]
        exact Fact.height_lt_of_lt hlt
  · exact level_mono (m.le_written c) id

/-- Updates that tell of a change of a slot are steps that its fact rises. -/
theorem level_after (m : FactMap) (id : InstrId) (ws : List (InstrId × Fact)) :
    m.level id + m.changesTold id ws ≤ (m.after ws).level id := by
  induction ws generalizing m with
  | nil => exact Nat.le_refl _
  | cons c ws ih =>
    have hstep := m.level_written id c
    have hrest : (m.written c).level id + (m.written c).changesTold id ws ≤
        (m.after (c :: ws)).level id := ih (m.written c)
    have hcount : m.changesTold id (c :: ws) = (m.written c).changesTold id ws +
        (if c.1 == id && tellsChange (m.answer c) then 1 else 0) := by
      unfold changesTold
      rw [answers, List.zip_cons_cons, List.countP_cons]
    omega

end Updates

/-- By `Fact.compare?` a fact is at most another one if nothing is known of the first, if they are
the same, or if the second is overdefined. In this order, any updates of a map leave each live slot
with the least fact that is at least the fact before and every fact supplied for the slot, and they
leave no slot live that was not. Updates in another order leave the same map. Each update of a
live slot answers the new fact of the slot if that is not the old one, and nothing otherwise; at
most two of them tell of a change. Each update of another slot fails, and the map stays as it is. -/
theorem updates_least (m : FactMap) (ws : List (InstrId × Fact)) :
    (∀ a b : Fact, (a ≤ b ↔ a.compare? b = some .lt ∨ a.compare? b = some .eq) ∧
      (a ≤ b ↔ a = .unknown ∨ a = b ∨ b = .overdefined)) ∧
    (∀ id v, m.get? id = some v →
      ∃ v', (m.after ws).get? id = some v' ∧ IsLUB (insert v {w | (id, w) ∈ ws}) v') ∧
    (∀ id, m.get? id = none → (m.after ws).get? id = none) ∧
    (∀ ws' : List (InstrId × Fact), ws'.Perm ws → m.after ws' = m.after ws) ∧
    (∀ k id v, ws[k]? = some (id, v) →
      (m.get? id ≠ none → ∃ o, (m.answers ws)[k]? = some (.ok o) ∧ ∀ u, o = some u ↔
        (m.after (ws.take (k + 1))).get? id = some u ∧ (m.after (ws.take k)).get? id ≠ some u) ∧
      (m.get? id = none → (m.answers ws)[k]? = some (.error (.missingFact id)) ∧
        m.after (ws.take (k + 1)) = m.after (ws.take k))) ∧
    ∀ id, m.changesTold id ws ≤ 2 := by
  have hdead : ∀ (ws : List (InstrId × Fact)) (id : InstrId), m.get? id = none →
      (m.after ws).get? id = none := by
    intro ws id h
    rw [← Option.isNone_iff_eq_none, ← Option.not_isSome, isSome_after, h]
    rfl
  refine ⟨fun a b => ⟨Fact.le_def a b, Fact.le_iff⟩, fun id v h => isLUB_after ws h, hdead ws,
    fun ws' => m.after_perm, fun k id v hk => ?_, fun id => ?_⟩
  · rw [getElem?_answers, hk, Option.map_some, after_take_succ m hk]
    refine ⟨fun hlive => ?_, fun h => ?_⟩
    · obtain ⟨w, hw⟩ := Option.ne_none_iff_exists'.mp hlive
      obtain ⟨w', hw', -⟩ := isLUB_after (ws.take k) hw
      obtain ⟨o, ho, htold⟩ := answer_live hw' v
      exact ⟨o, congrArg some ho, htold⟩
    · have hnone := hdead (ws.take k) id h
      exact ⟨congrArg some (answer_dead hnone v), written_dead hnone v⟩
  · have hlevel := m.level_after id ws
    have htop := Fact.height_le_two (((m.after ws).get? id).getD .unknown)
    unfold level at hlevel
    omega

/-- A map of three slots, of which the last is not live. -/
def patchy : FactMap :=
  ⟨#[.unknown, .const 3, .unknown], ((BitSet.empty 3).mark 0).mark 1⟩

/-- Updates of all three slots. The first slot is given two constants. -/
def patches : List (InstrId × Fact) :=
  [(0, .const 5), (2, .const 1), (0, .const 5), (1, .unknown), (0, .const 7), (0, .unknown)]

theorem updates_least_patchy :
    patchy.get? 0 = some .unknown ∧ (patchy.after patches).get? 0 = some .overdefined ∧
    IsLUB (insert .unknown {w | (0, w) ∈ patches}) .overdefined ∧
    (patchy.after patches).get? 2 = none ∧
    patchy.after patches.reverse = patchy.after patches ∧
    (patchy.answers patches)[1]? = some (.error (.missingFact 2)) ∧
    (patchy.answers patches)[4]? = some (.ok (some .overdefined)) ∧
    patchy.changesTold 0 patches = 2 ∧ patchy.changesTold 0 patches ≤ 2 := by
  obtain ⟨-, hleast, hdead, hperm, hcall, htold⟩ := updates_least patchy patches
  have hzero : patchy.get? 0 = some .unknown := by decide +kernel
  have htwo : patchy.get? 2 = none := by decide +kernel
  have htop : (patchy.after patches).get? 0 = some .overdefined := by decide +kernel
  obtain ⟨v, hv, hlub⟩ := hleast 0 .unknown hzero
  obtain rfl : .overdefined = v := Option.some.inj (htop.symm.trans hv)
  obtain ⟨o, ho, hchange⟩ := (hcall 4 0 (.const 7) rfl).1 (by rw [hzero]; nofun)
  obtain rfl := (hchange .overdefined).mpr ⟨by decide +kernel, by decide +kernel⟩
  exact ⟨hzero, htop, hlub, hdead 2 htwo, hperm _ patches.reverse_perm,
    ((hcall 1 2 (.const 1) rfl).2 htwo).1, ho, by decide +kernel, htold 0⟩

end FactMap

end ConstFlow
