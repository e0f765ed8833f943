import ConstFlow.Fold.Schedule
import ConstFlow.Proofs.Idempotence
import Mathlib.Data.List.MinMax

/-!
# Schedules without their record

A schedule threads the record of events and notes through all its work, but no pass reads it: every
pass starts on a function with an empty record. What a schedule does to the functions is told by
what its passes do to one function, the `Alteration` of the passes.

* `alterAll?` : one round of all passes on one function;
* `Alteration.each`, `Alteration.rounds` : a round, and rounds up to a limit, on a list of
  functions;
* `Iteration.Fair` : all that is asked of the way in which a pass takes the functions. Alterations
  are what is left of `Schedule.round` and `Schedule.rounds` under any fair iteration without the
  record (`outcome?_round`, `outcome?_rounds`);
* `Alteration.Honest` : what reports no change makes none. Constant propagation is honest on all
  functions under all options (`honest_alter?`);
* `Alteration.Honest.rounds_append` : rounds on two lists together are rounds on each alone, as many
  as the longer of the two takes. A list that came to rest stays as it is while the other one goes
  on;
* `run_together` : so it is for any list of functions, in any order.
-/

namespace ConstFlow

/-- Work on one function, if it succeeds: whether the function changed, and what is left. -/
abbrev Alteration := Func → Option (Bool × Func)

namespace Alteration

/-- Does nothing. -/
def idle : Alteration := fun f => some (false, f)

/-- One alteration, then another one of what it left. -/
def seq (a b : Alteration) : Alteration := fun f =>
  (a f).bind fun r => (b r.2).map fun r' => (r.1 || r'.1, r'.2)

/-- Alters every function of a list, and says whether one of them changed. -/
def each (alter : Alteration) : List Func → Option (Bool × List Func)
  | [] => some (false, [])
  | f :: fs => (alter f).bind fun r => (alter.each fs).map fun rs => (r.1 || rs.1, r.2 :: rs.2)

/-- Alters a list at most `n` times, and not again after a round without a change. -/
def rounds (alter : Alteration) : Nat → List Func → Option (Nat × List Func)
  | 0, fs => some (0, fs)
  | n + 1, fs => (alter.each fs).bind fun r =>
    if r.1 then (alter.rounds n r.2).map fun t => (t.1 + 1, t.2) else some (1, r.2)

end Alteration

/-- What a pass does to one function. -/
def Pass.alter? (p : Pass) : Alteration := fun f =>
  if p.applies f then
    match p.run (Workspace.ofFunc f) with
    | .ok changed w => some (changed, w.func)
    | .error _ _ => none
  else some (false, f)

/-- What a list of passes does to one function. -/
def alterAll? : List Pass → Alteration
  | [] => Alteration.idle
  | p :: ps => p.alter?.seq (alterAll? ps)

/-- What is left of a result without the record. -/
def outcome? {α : Type} : EStateM.Result Error Batch α → Option (α × List Func)
  | .ok a b => some (a, b.funcs)
  | .error _ _ => none

theorem outcome?_eq_some {α : Type} {x : EStateM.Result Error Batch α} {a : α} {fs : List Func} :
    outcome? x = some (a, fs) ↔ ∃ b, x = .ok a b ∧ b.funcs = fs := by
  cases x with
  | error e b => simp [outcome?]
  | ok a' b => simp [outcome?]

/-! ## Lists of functions -/

namespace Alteration

section Lists
variable {alter a b : Alteration} {n k : Nat} {f g : Func} {fs gs : List Func} {changed : Bool}

theorem seq_eq_some (h : a.seq b f = some (changed, g)) : ∃ mid first later,
    a f = some (first, mid) ∧ b mid = some (later, g) ∧ changed = (first || later) := by
  obtain ⟨⟨first, mid⟩, hmid, hrest⟩ := Option.bind_eq_some_iff.mp h
  obtain ⟨⟨later, g'⟩, hg, heq⟩ := Option.map_eq_some_iff.mp hrest
  cases heq
  exact ⟨mid, first, later, hmid, hg, rfl⟩

theorem each_cons_eq_some (h : alter.each (f :: fs) = some (changed, gs)) :
    ∃ g gs' first later, alter f = some (first, g) ∧ alter.each fs = some (later, gs') ∧
      changed = (first || later) ∧ gs = g :: gs' := by
  obtain ⟨⟨first, g⟩, hg, hrest⟩ := Option.bind_eq_some_iff.mp h
  obtain ⟨⟨later, gs'⟩, hgs, heq⟩ := Option.map_eq_some_iff.mp hrest
  cases heq
  exact ⟨g, gs', first, later, hg, hgs, rfl, rfl⟩

theorem each_idle (fs : List Func) : idle.each fs = some (false, fs) := by
  induction fs with
  | nil => rfl
  | cons f fs ih =>
    rw [each, ih]
    rfl

/-- Doing one to the whole list and then the other is doing both to every function in turn. -/
theorem each_seq (a b : Alteration) (fs : List Func) : (a.seq b).each fs =
    (a.each fs).bind fun r => (b.each r.2).map fun r' => (r.1 || r'.1, r'.2) := by
  induction fs with
  | nil => rfl
  | cons f fs ih =>
    rw [each, each, ih, seq]
    cases a f with
    | none => rfl
    | some r =>
      cases a.each fs with
      | none => cases hb : b r.2 <;> simp [hb]
      | some rs =>
        cases hb : b r.2 with
        | none => simp [each, hb]
        | some r' =>
          cases hbs : b.each rs.2 with
          | none => simp [each, hb, hbs]
          | some rs' => simp [each, hb, hbs, Bool.or_assoc, Bool.or_left_comm]

theorem each_append (alter : Alteration) (fs fs' : List Func) : alter.each (fs ++ fs') =
    (alter.each fs).bind fun r => (alter.each fs').map fun r' => (r.1 || r'.1, r.2 ++ r'.2) := by
  induction fs with
  | nil =>
    rw [List.nil_append, each]
    cases alter.each fs' <;> rfl
  | cons f fs ih =>
    rw [List.cons_append, each, ih, each]
    cases alter f with
    | none => rfl
    | some r =>
      cases alter.each fs with
      | none => rfl
      | some rs => cases alter.each fs' <;> simp [Bool.or_assoc]

theorem each_reverse (alter : Alteration) (fs : List Func) :
    alter.each fs.reverse = (alter.each fs).map fun r => (r.1, r.2.reverse) := by
  induction fs with
  | nil => rfl
  | cons f fs ih =>
    simp only [List.reverse_cons, each_append, ih, each]
    cases alter f with
    | none => cases alter.each fs <;> rfl
    | some r => cases alter.each fs <;> simp [Bool.or_comm]

theorem each_eq_none : alter.each fs = none ↔ ∃ f ∈ fs, alter f = none := by
  induction fs with
  | nil => simp [each]
  | cons f fs ih =>
    rw [each, List.exists_mem_cons_iff, ← ih]
    cases alter f with
    | none => simp
    | some r => simp

/-- The cases of a first round: the last one if it changes nothing, or followed by others. -/
theorem rounds_succ (h : alter.rounds (n + 1) fs = some (k, gs)) :
    alter.each fs = some (false, gs) ∧ k = 1 ∨ ∃ mid j, alter.each fs = some (true, mid) ∧
      alter.rounds n mid = some (j, gs) ∧ k = j + 1 := by
  rw [rounds, Option.bind_eq_some_iff] at h
  obtain ⟨⟨changed, mid⟩, heach, hrest⟩ := h
  cases changed with
  | false =>
    cases hrest
    exact .inl ⟨heach, rfl⟩
  | true =>
    obtain ⟨⟨j, gs'⟩, hrounds, heq⟩ := Option.map_eq_some_iff.mp hrest
    cases heq
    exact .inr ⟨mid, j, heach, hrounds, rfl⟩

theorem rounds_of_same (h : alter.each fs = some (false, gs)) :
    alter.rounds (n + 1) fs = some (1, gs) := by
  rw [rounds, h]
  rfl

theorem rounds_of_changed (h : alter.each fs = some (true, gs)) :
    alter.rounds (n + 1) fs = (alter.rounds n gs).map fun t => (t.1 + 1, t.2) := by
  rw [rounds, h]
  rfl

/-- There is a round unless the limit is zero. -/
theorem min_le_rounds (h : alter.rounds n fs = some (k, gs)) : min n 1 ≤ k := by
  cases n with
  | zero => exact Nat.zero_le k
  | succ n =>
    rcases rounds_succ h with ⟨-, rfl⟩ | ⟨mid, j, -, -, rfl⟩
    · omega
    · omega

/-- A list at rest is left alone by the first of any further rounds. -/
theorem rounds_of_rest (h : alter.each fs = some (false, fs)) (n : Nat) :
    alter.rounds n fs = some (min n 1, fs) := by
  cases n with
  | zero => rfl
  | succ n =>
    rw [rounds_of_same h, Nat.min_eq_right (Nat.succ_le_succ n.zero_le)]

end Lists

/-! ## Honest reports -/

/-- Where no change is reported, the function is the same. -/
def Honest (alter : Alteration) : Prop :=
  ∀ f g, alter f = some (false, g) → g = f

namespace Honest
variable {alter : Alteration} {n k k' : Nat} {fs gs fs' gs' : List Func}

theorem idle : Alteration.idle.Honest := by
  intro f g h
  cases h
  rfl

theorem seq {a b : Alteration} (ha : a.Honest) (hb : b.Honest) : (a.seq b).Honest := by
  intro f g h
  obtain ⟨mid, first, later, hmid, hg, hsame⟩ := seq_eq_some h
  obtain ⟨rfl, rfl⟩ := Bool.or_eq_false_iff.mp hsame.symm
  exact (hb _ _ hg).trans (ha _ _ hmid)

theorem each (h : alter.Honest) (heach : alter.each fs = some (false, gs)) : gs = fs := by
  induction fs generalizing gs with
  | nil =>
    cases heach
    rfl
  | cons f fs ih =>
    obtain ⟨g, gs', first, later, hg, hgs, hsame, rfl⟩ := each_cons_eq_some heach
    obtain ⟨rfl, rfl⟩ := Bool.or_eq_false_iff.mp hsame.symm
    rw [h _ _ hg, ih hgs]

/-- Rounds on two lists together take as long as the longer of the two, and come to what each comes
to alone. -/
theorem rounds_append (halter : alter.Honest) (h : alter.rounds n fs = some (k, gs))
    (h' : alter.rounds n fs' = some (k', gs')) :
    alter.rounds n (fs ++ fs') = some (max k k', gs ++ gs') := by
  induction n generalizing fs fs' k k' with
  | zero =>
    cases h
    cases h'
    rfl
  | succ n ih =>
    have heach := alter.each_append fs fs'
    rcases rounds_succ h with ⟨hfs, rfl⟩ | ⟨mid, j, hfs, hrest, rfl⟩ <;>
      rcases rounds_succ h' with ⟨hfs', rfl⟩ | ⟨mid', j', hfs', hrest', rfl⟩
    · rw [hfs, hfs'] at heach
      exact rounds_of_same heach
    · -- the first list is at rest, and stays so in the rounds that the second one takes
      obtain rfl := halter.each hfs
      rw [hfs, hfs'] at heach
      rw [rounds_of_changed heach, ih (rounds_of_rest hfs n) hrest', Option.map_some]
      have := min_le_rounds hrest'
      congr 2
      omega
    · obtain rfl := halter.each hfs'
      rw [hfs, hfs'] at heach
      rw [rounds_of_changed heach, ih hrest (rounds_of_rest hfs' n), Option.map_some]
      have := min_le_rounds hrest
      congr 2
      omega
    · rw [hfs, hfs'] at heach
      rw [rounds_of_changed heach, ih hrest hrest', Option.map_some, Nat.succ_max_succ]

/-- Rounds on a list of functions take as long as the longest that one of them takes alone. -/
theorem rounds_each (halter : alter.Honest) {count : Func → Nat} {after : Func → Func}
    (hne : fs ≠ []) (halone : ∀ f ∈ fs, alter.rounds n [f] = some (count f, [after f])) :
    ∃ k, (fs.map count).max? = some k ∧ alter.rounds n fs = some (k, fs.map after) := by
  induction fs with
  | nil => exact absurd rfl hne
  | cons f fs ih =>
    obtain ⟨hf, hfs⟩ := List.forall_mem_cons.mp halone
    by_cases hnil : fs = []
    · subst hnil
      exact ⟨count f, rfl, hf⟩
    · obtain ⟨k, hk, hrounds⟩ := ih hnil hfs
      refine ⟨max (count f) k, ?_, halter.rounds_append hf hrounds⟩
      rw [List.map_cons, List.max?_cons, hk]
      rfl

end Honest

end Alteration

/-! ## Schedules -/

/-- A pass succeeded on the function, or does not apply to it. -/
theorem Pass.alter?_eq_some {p : Pass} {f g : Func} {changed : Bool}
    (h : p.alter? f = some (changed, g)) :
    (∃ w, p.run (Workspace.ofFunc f) = .ok changed w ∧ w.func = g) ∨ changed = false ∧ g = f := by
  unfold alter? at h
  split at h
  · split at h
    · next hrun =>
      cases h
      exact .inl ⟨_, hrun, rfl⟩
    · cases h
  · cases h
    exact .inr ⟨rfl, rfl⟩

/-- What an iteration owes, in whatever order it takes the functions: if it succeeds, the pass was
run on each of them once, and if it fails, the pass fails on one of them. -/
structure Iteration.Fair (it : Iteration) : Prop where
  ok : ∀ {p fs events notes changed b}, it p fs events notes = .ok changed b →
    p.alter?.each fs = some (changed, b.funcs)
  error : ∀ {p fs events notes e b}, it p fs events notes = .error e b →
    ∃ f ∈ fs, p.alter? f = none

theorem Iteration.fair_iff {it : Iteration} : it.Fair ↔ ∀ p fs events notes,
    outcome? (it p fs events notes) = p.alter?.each fs := by
  constructor
  · intro h p fs events notes
    cases hit : it p fs events notes with
    | ok changed b => exact (h.ok hit).symm
    | error e b => exact (Alteration.each_eq_none.mpr (h.error hit)).symm
  · intro h
    constructor
    · intro p fs events notes changed b hit
      rw [← h p fs events notes, hit, outcome?]
    · intro p fs events notes e b hit
      rw [← Alteration.each_eq_none, ← h p fs events notes, hit, outcome?]

theorem Iteration.fair_sweep : Iteration.Fair Pass.sweep := by
  refine fair_iff.mpr fun p fs => ?_
  induction fs with
  | nil => exact fun _ _ => rfl
  | cons f fs ih =>
    intro events notes
    rw [Pass.sweep, Alteration.each, Pass.alter?]
    split
    · cases p.run (Workspace.ofFunc f) with
      | error e w => rfl
      | ok changed w =>
        dsimp only [Option.bind_some]
        rw [← ih (events.merge w.events) (notes ++ w.notes)]
        cases p.sweep fs (events.merge w.events) (notes ++ w.notes) <;> rfl
    · rw [Option.bind_some, ← ih events notes]
      cases p.sweep fs events notes with
      | error e b => rfl
      | ok later b => simp [outcome?, Batch.cons]

/-- Takes the functions from the last to the first. -/
def Iteration.backward : Iteration := fun p fs events notes =>
  match p.sweep fs.reverse events notes with
  | .ok changed b => .ok changed { b with funcs := b.funcs.reverse }
  | .error e b => .error e { b with funcs := b.funcs.reverse }

theorem Iteration.fair_backward : Iteration.backward.Fair := by
  refine fair_iff.mpr fun p fs events notes => ?_
  have hsweep := fair_iff.mp fair_sweep p fs.reverse events notes
  rw [Alteration.each_reverse] at hsweep
  unfold backward
  cases hrun : p.sweep fs.reverse events notes with
  | ok changed b =>
    rw [hrun, outcome?] at hsweep
    obtain ⟨⟨changed', gs⟩, heach, heq⟩ := Option.map_eq_some_iff.mp hsweep.symm
    obtain ⟨rfl, hfuncs⟩ := Prod.mk.inj heq
    rw [outcome?, heach, ← hfuncs, List.reverse_reverse]
  | error e b =>
    rw [hrun, outcome?] at hsweep
    exact (Option.map_eq_none_iff.mp hsweep.symm).symm

theorem outcome?_sweepAll {it : Iteration} (hit : it.Fair) (ps : List Pass) (b : Batch) :
    outcome? (sweepAll it ps b) = (alterAll? ps).each b.funcs := by
  induction ps generalizing b with
  | nil => exact (Alteration.each_idle b.funcs).symm
  | cons p ps ih =>
    rw [sweepAll, alterAll?, Alteration.each_seq,
      ← Iteration.fair_iff.mp hit p b.funcs b.events b.notes]
    cases it p b.funcs b.events b.notes with
    | error e b' => rfl
    | ok changed b' =>
      dsimp only [outcome?, Option.bind_some]
      rw [← ih b']
      cases sweepAll it ps b' <;> rfl

section Rounds
variable {s : Schedule}

theorem outcome?_round (hs : s.iterate.Fair) (b : Batch) :
    outcome? (s.round b) = (alterAll? s.passes).each b.funcs :=
  outcome?_sweepAll hs s.passes b

theorem outcome?_rounds (hs : s.iterate.Fair) (n : Nat) (b : Batch) :
    outcome? (s.rounds n b) = (alterAll? s.passes).rounds n b.funcs := by
  induction n generalizing b with
  | zero => rfl
  | succ n ih =>
    rw [Schedule.rounds, Alteration.rounds, ← outcome?_round hs]
    cases s.round b with
    | error e b' => rfl
    | ok changed b' =>
      cases changed with
      | false => rfl
      | true =>
        dsimp only [outcome?, Option.bind_some]
        rw [if_pos rfl, ← ih b']
        cases s.rounds n b' <;> rfl

theorem outcome?_run (hs : s.iterate.Fair) (b : Batch) :
    outcome? (s.run b) = (alterAll? s.passes).rounds s.maxRounds b.funcs := by
  rw [← outcome?_rounds hs, Schedule.run]
  cases s.rounds s.maxRounds b <;> rfl

end Rounds

/-! ## Constant propagation -/

/-- Constant propagation leaves a function alone if it reports no change. -/
theorem ConstantPropagation.run_same {o : Options} {w w' : Workspace}
    (h : run o w = .ok false w') : w'.func = w.func := by
  obtain ⟨r, w₁, n, w₂, hfunc, -, htransform, rfl, hchanged⟩ := run_ok h
  have hzero : n = 0 := Nat.eq_zero_of_not_pos (of_decide_eq_false hchanged.symm)
  subst hzero
  show w₂.func = w.func
  unfold transform at htransform
  split at htransform
  · obtain ⟨cs, -, hplan, hlength, -⟩ := simplify_ok htransform
    rw [List.length_eq_zero_iff.mp hlength.symm] at hplan
    rw [simplify_of_plan_nil (some name) hplan] at htransform
    cases htransform
    exact (func_warnSize _ r).trans hfunc
  · cases htransform
    exact hfunc

theorem honest_alter? (o : Options) : (constantPropagation o).alter?.Honest := by
  intro f g h
  rcases Pass.alter?_eq_some h with ⟨w, hrun, rfl⟩ | ⟨-, rfl⟩
  · exact ConstantPropagation.run_same hrun
  · rfl

/-- Constant propagation under each of the given options in turn, in at most `n` rounds. -/
def propagation (os : List Options) (n : Nat) (it : Iteration) : Schedule where
  passes := os.map constantPropagation
  maxRounds := n
  iterate := it

theorem honest_alterAll? (os : List Options) :
    (alterAll? (os.map constantPropagation)).Honest := by
  induction os with
  | nil => exact Alteration.Honest.idle
  | cons o os ih => exact (honest_alter? o).seq ih

/-- Scheduling functions together is scheduling each alone. If constant propagation under any
options succeeds on every function of a list by itself, it succeeds on all of them together, in any
order, by any fair iteration and whatever was recorded before. It takes as many rounds as the
longest run alone, and leaves every function as its run alone did. -/
theorem run_together (os : List Options) (n : Nat) (it : Iteration) (hit : it.Fair)
    (fs : List Func) (hne : fs ≠ []) (count : Func → Nat) (after : Func → Func)
    (halone : ∀ f ∈ fs, ∃ events notes b,
      (propagation os n it).run ⟨[f], events, notes⟩ = .ok (count f) b ∧ b.funcs = [after f]) :
    ∃ k, (fs.map count).max? = some k ∧ ∀ it' : Iteration, it'.Fair → ∀ fs', fs'.Perm fs →
      ∀ events notes, ∃ b, (propagation os n it').run ⟨fs', events, notes⟩ = .ok k b ∧
        b.funcs = fs'.map after := by
  have hrounds : ∀ f ∈ fs, (alterAll? (os.map constantPropagation)).rounds n [f] =
      some (count f, [after f]) := by
    intro f hf
    obtain ⟨events, notes, hrun⟩ := halone f hf
    exact (outcome?_run (s := propagation os n it) hit _).symm.trans (outcome?_eq_some.mpr hrun)
  obtain ⟨k, hk, -⟩ := (honest_alterAll? os).rounds_each hne hrounds
  refine ⟨k, hk, fun it' hit' fs' hperm events notes => ?_⟩
  have hne' : fs' ≠ [] := fun hnil => hne (List.Perm.eq_nil (hnil ▸ hperm.symm))
  obtain ⟨k', hk', hall⟩ := (honest_alterAll? os).rounds_each hne' fun f hf =>
    hrounds f (hperm.mem_iff.mp hf)
  have hmax : (fs'.map count).max? = some k := by
    rw [List.max?_eq_some_iff] at hk ⊢
    simpa only [(hperm.map count).mem_iff] using hk
  obtain rfl : k' = k := Option.some.inj (hk'.symm.trans hmax)
  exact outcome?_eq_some.mp ((outcome?_run (s := propagation os n it') hit' _).trans hall)

/-- Functions that take one, two and three rounds. -/
def paces : List Func :=
  [Func.ofScript "still" [.block 0 [.append (.ret none)]], Func.ofScript "count" countingLoop,
   Func.ofScript "late" lateValue]

/-- A pass that changes functions, and one that only analyses them. -/
def foldAndLook : List Options := [{}, .analysisOnly]

/-- What the run on a function alone comes to. -/
def alone (f : Func) : Nat × Func :=
  match outcome? ((propagation foldAndLook 5 Pass.sweep).run ⟨[f], .empty, #[]⟩) with
  | some (k, [g]) => (k, g)
  | _ => (0, f)

theorem run_together_paces : paces.map (fun f => (alone f).1) = [1, 2, 3] ∧
    (∀ f ∈ paces, ∃ events notes b,
      (propagation foldAndLook 5 Pass.sweep).run ⟨[f], events, notes⟩ = .ok (alone f).1 b ∧
        b.funcs = [(alone f).2]) ∧
    ∀ fs, fs.Perm paces → ∀ events notes, ∃ b,
      (propagation foldAndLook 5 .backward).run ⟨fs, events, notes⟩ = .ok 3 b ∧
        b.funcs = fs.map fun f => (alone f).2 := by
  have halone : paces.map (fun f => (alone f).1) = [1, 2, 3] ∧ ∀ f ∈ paces,
      outcome? ((propagation foldAndLook 5 Pass.sweep).run ⟨[f], .empty, #[]⟩) =
        some ((alone f).1, [(alone f).2]) := by
    decide +kernel
  obtain ⟨hcounts, halone⟩ := halone
  have hruns : ∀ f ∈ paces, ∃ events notes b, (propagation foldAndLook 5 Pass.sweep).run
      ⟨[f], events, notes⟩ = .ok (alone f).1 b ∧ b.funcs = [(alone f).2] :=
    fun f hf => ⟨.empty, #[], outcome?_eq_some.mp (halone f hf)⟩
  obtain ⟨k, hk, htogether⟩ := run_together foldAndLook 5 Pass.sweep Iteration.fair_sweep paces
    (by simp [paces]) (fun f => (alone f).1) (fun f => (alone f).2) hruns
  rw [hcounts] at hk
  obtain rfl : 3 = k := Option.some.inj hk
  exact ⟨hcounts, hruns, htogether .backward Iteration.fair_backward⟩

end ConstFlow
