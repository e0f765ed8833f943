import ConstFlow.Graph.Traversal
import Mathlib.Data.List.Nodup
import Mathlib.Logic.Relation

/-!
# What a depth-first order lists

The walk behind `Graph.preorder` carries the nodes that are not yet claimed. What it still lists is
what can be reached from its stack by edges into unclaimed nodes (`mem_preorderFrom`): a node that
is claimed already is on the stack or was listed, so an edge into it adds nothing. From the start
this is all that can be reached by edges (`mem_preorder`). Claiming moves a node from one list to
the other, so no node is listed twice (`nodup_preorder`).
-/

namespace ConstFlow

namespace Graph

variable {g : Graph} {stack unclaimed : List Nat} {n m : Nat} {p : List Nat × List Nat}

/-- There is an edge from `a` to `b`, and it leads to one of the given nodes. -/
def EdgeInto (g : Graph) (nodes : List Nat) (a b : Nat) : Prop :=
  b ∈ g.succs a ∧ b ∈ nodes

/-- There is an edge from `a` to `b`, and it does not lead out of the graph. -/
def Edge (g : Graph) (a b : Nat) : Prop :=
  b ∈ g.succs a ∧ b < g.size

/-- Some way leads from `a` to `b`. -/
def Reach (g : Graph) : Nat → Nat → Prop :=
  Relation.ReflTransGen g.Edge

theorem mem_succs_ofEdges {size : Nat} {edges : List (Nat × Nat)} :
    m ∈ (ofEdges size edges).succs n ↔ (n, m) ∈ edges := by
  simp only [ofEdges, List.mem_filterMap, Option.ite_none_right_eq_some, Option.some.injEq]
  constructor
  · rintro ⟨e, he, rfl, rfl⟩
    exact he
  · intro he
    exact ⟨(n, m), he, rfl, rfl⟩

/-! ## Claiming nodes -/

theorem claim_spec (h : p.1.Nodup) : (claim n p).1.Nodup ∧
    (∀ m, m ∈ (claim n p).1 ↔ m ∈ p.1 ∧ m ≠ n) ∧
    ∀ m, m ∈ (claim n p).2 ↔ m ∈ p.1 ∧ m = n ∨ m ∈ p.2 := by
  unfold claim
  split
  · next hn =>
    refine ⟨h.erase n, fun m => ?_, fun m => ?_⟩
    · rw [h.mem_erase_iff, and_comm]
    · rw [List.mem_cons]
      exact or_congr_left ⟨fun hm => ⟨hm ▸ hn, hm⟩, And.right⟩
  · next hn =>
    refine ⟨h, fun m => ?_, fun m => ?_⟩
    · exact ⟨fun hm => ⟨hm, fun heq => hn (heq ▸ hm)⟩, And.left⟩
    · exact ⟨.inr, fun hm => hm.resolve_left fun hm => hn (hm.2 ▸ hm.1)⟩

/-- Claiming the nodes of a list takes them from the unclaimed ones to the stack. -/
theorem claimAll_spec (ns : List Nat) (h : p.1.Nodup) : (claimAll ns p).1.Nodup ∧
    (∀ m, m ∈ (claimAll ns p).1 ↔ m ∈ p.1 ∧ m ∉ ns) ∧
    ∀ m, m ∈ (claimAll ns p).2 ↔ m ∈ p.1 ∧ m ∈ ns ∨ m ∈ p.2 := by
  induction ns with
  | nil =>
    refine ⟨h, fun m => ?_, fun m => ?_⟩
    · exact ⟨fun hm => ⟨hm, List.not_mem_nil⟩, And.left⟩
    · exact ⟨.inr, fun hm => hm.resolve_left fun hm => List.not_mem_nil hm.2⟩
  | cons n ns ih =>
    obtain ⟨hnodup, hleft, hstack⟩ := ih
    obtain ⟨hnodup', hleft', hstack'⟩ := claim_spec (n := n) hnodup
    refine ⟨hnodup', fun m => ?_, fun m => ?_⟩
    · rw [claimAll, List.foldr_cons, ← claimAll, hleft', hleft, List.mem_cons, not_or, and_assoc,
        and_comm (b := m ≠ n)]
    · rw [claimAll, List.foldr_cons, ← claimAll, hstack', hleft, hstack, List.mem_cons]
      by_cases hns : m ∈ ns
      · simp [hns]
      · simp [hns]

/-! ## The walk -/

/-- Taking a node off the stack and claiming its successors leaves to be reached all that was to be
reached before, save the node itself. -/
theorem reach_step (h : unclaimed.Nodup) :
    (∃ k ∈ n :: stack, Relation.ReflTransGen (g.EdgeInto unclaimed) k m) ↔
      m = n ∨ ∃ k ∈ (claimAll (g.succs n) (unclaimed, stack)).2,
        Relation.ReflTransGen (g.EdgeInto (claimAll (g.succs n) (unclaimed, stack)).1) k m := by
  obtain ⟨-, hleft, hstack⟩ := claimAll_spec (p := (unclaimed, stack)) (g.succs n) h
  constructor
  · rintro ⟨k, hk, hway⟩
    induction hway with
    | refl =>
      rcases List.mem_cons.mp hk with rfl | hk
      · exact .inl rfl
      · exact .inr ⟨k, (hstack k).mpr (.inr hk), .refl⟩
    | @tail a b _ hedge ih =>
      obtain ⟨hsucc, hb⟩ := hedge
      right
      -- a successor of the node taken off is on the stack now, any other is still unclaimed
      by_cases hclaimed : b ∈ g.succs n
      · exact ⟨b, (hstack b).mpr (.inl ⟨hb, hclaimed⟩), .refl⟩
      · rcases ih with rfl | ⟨k', hk', hway'⟩
        · exact absurd hsucc hclaimed
        · exact ⟨k', hk', hway'.tail ⟨hsucc, (hleft b).mpr ⟨hb, hclaimed⟩⟩⟩
  · rintro (rfl | ⟨k, hk, hway⟩)
    · exact ⟨m, List.mem_cons_self, .refl⟩
    · have hway : Relation.ReflTransGen (g.EdgeInto unclaimed) k m := by
        refine Relation.ReflTransGen.mono (fun a b hedge => ?_) k m hway
        exact ⟨hedge.1, ((hleft b).mp hedge.2).1⟩
      rcases (hstack k).mp hk with ⟨hk, hedge⟩ | hk
      · exact ⟨n, List.mem_cons_self, .head ⟨hedge, hk⟩ hway⟩
      · exact ⟨k, List.mem_cons_of_mem n hk, hway⟩

/-- The walk lists what can be reached from its stack by edges into unclaimed nodes. -/
theorem mem_preorderFrom (h : unclaimed.Nodup) : m ∈ g.preorderFrom unclaimed stack ↔
    ∃ k ∈ stack, Relation.ReflTransGen (g.EdgeInto unclaimed) k m := by
  fun_induction preorderFrom g unclaimed stack with
  | case1 => simp
  | case2 unclaimed n stack ih =>
    rw [List.mem_cons, ih (claimAll_spec (p := (unclaimed, stack)) (g.succs n) h).1, reach_step h]

/-- The preorder lists the nodes that can be reached from its start. -/
theorem mem_preorder {start : Nat} : m ∈ g.preorder start ↔ start < g.size ∧ g.Reach start m := by
  unfold preorder
  split
  · next hstart =>
    rw [mem_preorderFrom (List.nodup_range.erase start), and_iff_right hstart]
    simp only [List.mem_singleton, exists_eq_left]
    have hrange : ∀ b, b ∈ (List.range g.size).erase start ↔ b ≠ start ∧ b < g.size := by
      intro b
      rw [List.nodup_range.mem_erase_iff, List.mem_range]
    constructor
    · refine Relation.ReflTransGen.mono (fun a b hedge => ?_) start m
      exact ⟨hedge.1, ((hrange b).mp hedge.2).2⟩
    · intro hway
      induction hway with
      | refl => exact .refl
      | @tail a b _ hedge ih =>
        -- a way that comes back to the start can begin there
        by_cases hb : b = start
        · exact hb ▸ .refl
        · exact ih.tail ⟨hedge.1, (hrange b).mpr ⟨hb, hedge.2⟩⟩
  · next hstart => simp [hstart]

/-! ## No repetition -/

theorem claim_perm (n : Nat) (p : List Nat × List Nat) :
    ((claim n p).1 ++ (claim n p).2).Perm (p.1 ++ p.2) := by
  unfold claim
  split
  · next h => exact List.perm_middle.trans ((List.perm_cons_erase h).symm.append_right p.2)
  · exact .refl _

theorem claimAll_perm (ns : List Nat) (p : List Nat × List Nat) :
    ((claimAll ns p).1 ++ (claimAll ns p).2).Perm (p.1 ++ p.2) := by
  induction ns with
  | nil => exact .refl _
  | cons n ns ih => exact (claim_perm n (claimAll ns p)).trans ih

theorem preorderFrom_subset : g.preorderFrom unclaimed stack ⊆ unclaimed ++ stack := by
  fun_induction preorderFrom g unclaimed stack with
  | case1 => exact List.nil_subset _
  | case2 unclaimed n stack ih =>
    have hstack : unclaimed ++ stack ⊆ unclaimed ++ n :: stack :=
      ((List.sublist_cons_self n stack).append_left unclaimed).subset
    refine List.cons_subset.mpr ⟨by simp, fun m hm => ?_⟩
    exact hstack ((claimAll_perm (g.succs n) (unclaimed, stack)).subset (ih hm))

theorem nodup_preorderFrom (h : (unclaimed ++ stack).Nodup) :
    (g.preorderFrom unclaimed stack).Nodup := by
  fun_induction preorderFrom g unclaimed stack with
  | case1 => exact List.nodup_nil
  | case2 unclaimed n stack ih =>
    have hperm := claimAll_perm (g.succs n) (unclaimed, stack)
    obtain ⟨hn, hrest⟩ := List.nodup_middle.mp h |> List.nodup_cons.mp
    refine List.nodup_cons.mpr ⟨fun hmem => ?_, ih (hperm.nodup_iff.mpr hrest)⟩
    exact hn (hperm.subset (preorderFrom_subset hmem))

/-- The preorder lists no node twice. -/
theorem nodup_preorder (g : Graph) (start : Nat) : (g.preorder start).Nodup := by
  unfold preorder
  split
  · refine nodup_preorderFrom (List.nodup_middle.mpr ?_)
    rw [List.append_nil, List.nodup_cons]
    exact ⟨List.nodup_range.not_mem_erase, List.nodup_range.erase start⟩
  · exact List.nodup_nil

theorem head?_preorder {start : Nat} (h : start < g.size) :
    (g.preorder start).head? = some start := by
  rw [preorder, if_pos h, preorderFrom, List.head?_cons]

end Graph

end ConstFlow
