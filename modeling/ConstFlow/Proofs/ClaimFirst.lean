import ConstFlow.Proofs.DepthFirst
import Mathlib.Data.List.Dedup
import Mathlib.Data.List.Perm.Subperm

/-!
# When a node is claimed

`Graph.walk` claims a node when it enters it, and `Graph.preorder` when it puts it on the stack. The
recursion behind the latter is `Graph.claimSearch`: on a node it claims all successors that are
fresh at once, and then turns to these one after the other. A node that waits on the stack is then
out of reach of those that are visited before it, so the order need not be that of a depth-first
search: in `crossEdge` the node 2 comes between 1 and 3, although 3 is the one successor of 1.

* `preorder_eq_claimOrder` : the preorder is that of the search that claims first;
* `TreeLike.preorder_eq` : where at most one edge leads into each node the two ways of claiming give
  the same order. `Aligned.enter` takes walk and stack one node on, side by side;
* `crossEdge_not_searchOrder` : in general they do not.
-/

namespace ConstFlow

namespace Graph

variable {g : Graph} {unclaimed stack ns : List Nat} {n m : Nat}

/-! ## Claiming first -/

/-- The successors of a node that are unclaimed; a repeated one stands in its last place. -/
def fresh (g : Graph) (unclaimed : List Nat) (n : Nat) : List Nat :=
  ((g.succs n).filter (· ∈ unclaimed)).dedup

theorem mem_fresh : m ∈ g.fresh unclaimed n ↔ m ∈ unclaimed ∧ m ∈ g.succs n := by
  simp [fresh, and_comm]

theorem length_fresh_le (g : Graph) (unclaimed : List Nat) (n : Nat) :
    (unclaimed.filter (· ∉ g.succs n)).length + (g.fresh unclaimed n).length ≤
      unclaimed.length := by
  have hsub : g.fresh unclaimed n ⊆ unclaimed.filter (· ∈ g.succs n) := by
    intro m hm
    simpa using mem_fresh.mp hm
  have hnodup : (g.fresh unclaimed n).Nodup := List.nodup_dedup _
  have hle := (List.subperm_of_subset hnodup hsub).length_le
  have hsum := unclaimed.length_eq_length_filter_add (· ∈ g.succs n)
  simp only [decide_not] at hsum ⊢
  omega

/-- Visits the nodes of a list, one after the other. On a node it claims all fresh successors at
once and visits these before the rest. -/
def claimSearch (g : Graph) (unclaimed : List Nat) : List Nat → Search unclaimed
  | [] => ⟨.nil, unclaimed, .refl _⟩
  | n :: ns =>
    let below := g.claimSearch (unclaimed.filter (· ∉ g.succs n)) (g.fresh unclaimed n)
    let next := g.claimSearch below.left ns
    ⟨.tree n below.forest next.forest, next.left,
      next.sublist.trans (below.sublist.trans List.filter_sublist)⟩
termination_by ns => unclaimed.length + ns.length
decreasing_by
  · have := g.length_fresh_le unclaimed n
    simp only [List.length_cons]
    omega
  · exact Nat.add_lt_add_of_le_of_lt
      ((Search.sublist _).trans List.filter_sublist).length_le (Nat.lt_succ_self _)

/-- The nodes in the order in which the search that claims first visits them. -/
def claimOrder (g : Graph) (start : Nat) : List Nat :=
  if start < g.size then (g.claimSearch ((List.range g.size).erase start) [start]).forest.preorder
  else []

/-- Claiming the successors of a node puts the fresh ones on the stack. -/
theorem claimAll_eq (h : unclaimed.Nodup) : claimAll ns (unclaimed, stack) =
    (unclaimed.filter (· ∉ ns), (ns.filter (· ∈ unclaimed)).dedup ++ stack) := by
  induction ns with
  | nil => simp [claimAll]
  | cons n ns ih =>
    rw [claimAll, List.foldr_cons, ← claimAll, ih, claim]
    have hmem : n ∈ unclaimed.filter (· ∉ ns) ↔ n ∈ unclaimed ∧ n ∉ ns := by simp
    by_cases hn : n ∈ unclaimed
    · by_cases hns : n ∈ ns
      · rw [if_neg fun hc => (hmem.mp hc).2 hns, List.filter_cons_of_pos (by simpa using hn),
          List.dedup_cons_of_mem (by simp [hn, hns])]
        refine Prod.ext (List.filter_congr fun m _ => ?_) rfl
        by_cases hm : m = n <;> simp [hm, hns]
      · rw [if_pos (hmem.mpr ⟨hn, hns⟩), List.filter_cons_of_pos (by simpa using hn),
          List.dedup_cons_of_notMem (by simp [hns])]
        refine Prod.ext ?_ rfl
        rw [(h.filter _).erase_eq_filter, List.filter_filter]
        refine List.filter_congr fun m _ => ?_
        by_cases hm : m = n <;> simp [hm]
    · rw [if_neg fun hc => hn (hmem.mp hc).1, List.filter_cons_of_neg (by simpa using hn)]
      refine Prod.ext (List.filter_congr fun m hm => ?_) rfl
      have hne : m ≠ n := fun heq => hn (heq ▸ hm)
      simp [hne]

/-- The stack works off claimed nodes as the recursion does. -/
theorem preorderFrom_eq (ns : List Nat) (h : unclaimed.Nodup) (rest : List Nat) :
    g.preorderFrom unclaimed (ns ++ rest) = (g.claimSearch unclaimed ns).forest.preorder ++
      g.preorderFrom (g.claimSearch unclaimed ns).left rest := by
  fun_induction claimSearch g unclaimed ns generalizing rest with
  | case1 unclaimed => rfl
  | case2 unclaimed n ns below next hbelow hnext =>
    have hfilter := h.filter (· ∉ g.succs n)
    rw [List.cons_append, preorderFrom, claimAll_eq h]
    show n :: g.preorderFrom (unclaimed.filter (· ∉ g.succs n))
      (g.fresh unclaimed n ++ (ns ++ rest)) = _
    rw [hbelow hfilter, hnext (below.sublist.nodup hfilter)]
    simp [Forest.preorder, below, next]

theorem preorder_eq_claimOrder (g : Graph) (start : Nat) :
    g.preorder start = g.claimOrder start := by
  unfold preorder claimOrder
  split
  · have h := preorderFrom_eq (g := g) [start] ((List.nodup_range (n := g.size)).erase start) []
    rwa [preorderFrom, List.append_nil, List.append_nil] at h
  · rfl

/-! ## One edge into each node -/

/-- Edges into the start apart, at most one edge leads into a node from what can be reached. -/
structure TreeLike (g : Graph) (start : Nat) : Prop where
  source : ∀ {a b v : Nat}, g.Reach start a → g.Reach start b → g.Edge a v → g.Edge b v →
    v ≠ start → a = b
  once : ∀ {a v : Nat}, g.Reach start a → g.Edge a v → v ≠ start → (g.succs a).count v ≤ 1

/-- A moment of the walk beside a moment of the preorder. What the walk has not entered is what the
preorder has not claimed or holds on its stack, and the stack is what the walk still has to enter,
in the same order. -/
structure Aligned (g : Graph) (start : Nat) (rest : List Nat) (visits : List Visit)
    (unclaimed stack : List Nat) : Prop where
  nodup : (unclaimed ++ stack).Nodup
  nodup_rest : rest.Nodup
  mem : ∀ m, m ∈ rest ↔ m ∈ unclaimed ++ stack
  lt_size : ∀ m ∈ rest, m < g.size
  pending : (visits.filterMap Visit.entered?).filter (· ∈ rest) = stack
  reach : ∀ m ∈ stack, g.Reach start m
  claimed : ∀ m ∈ stack, m ≠ start → ∃ a, a ∉ rest ∧ g.Reach start a ∧ m ∈ g.succs a
  start_claimed : start ∉ unclaimed
  start_first : start ∉ stack.tail

theorem entered_agenda (g : Graph) (unclaimed : List Nat) (n : Nat) :
    (g.agenda unclaimed n).filterMap Visit.entered? = (g.succs n).filter (· ∈ unclaimed) := by
  rw [agenda, List.filterMap_append, List.filterMap_map]
  simp [Visit.entered?, Function.comp_def]

namespace Aligned
variable {start : Nat} {rest : List Nat} {visits : List Visit}

theorem initial (h : start < g.size) :
    g.Aligned start (List.range g.size) [.enter start] ((List.range g.size).erase start)
      [start] where
  nodup := by
    rw [List.nodup_middle, List.append_nil, List.nodup_cons]
    exact ⟨List.nodup_range.not_mem_erase, List.nodup_range.erase start⟩
  nodup_rest := List.nodup_range
  mem m := by
    rw [List.mem_append, List.nodup_range.mem_erase_iff, List.mem_singleton, List.mem_range]
    by_cases hm : m = start
    · simp [hm, h]
    · simp [hm]
  lt_size m hm := List.mem_range.mp hm
  pending := by simp [Visit.entered?, h]
  reach m hm := by
    rw [List.mem_singleton.mp hm]
    exact .refl
  claimed m hm hne := absurd (List.mem_singleton.mp hm) hne
  start_claimed := List.nodup_range.not_mem_erase
  start_first := List.not_mem_nil

/-- A visit that enters nothing leaves the two moments side by side. -/
theorem skip {v : Visit} (h : g.Aligned start rest (v :: visits) unclaimed stack)
    (hv : ∀ n ∈ v.entered?, n ∉ rest) : g.Aligned start rest visits unclaimed stack :=
  { h with
    pending := by
      rw [← h.pending, List.filterMap_cons]
      cases hn : v.entered? with
      | none => rfl
      | some n =>
        have hnot := hv n hn
        simp [hnot] }

/-- The node that the walk enters is on top of the stack. -/
theorem exists_stack (h : g.Aligned start rest (.enter n :: visits) unclaimed stack)
    (hn : n ∈ rest) : ∃ stack', stack = n :: stack' := by
  refine ⟨(visits.filterMap Visit.entered?).filter (· ∈ rest), ?_⟩
  rw [← h.pending]
  simp [Visit.entered?, hn]

theorem nodup_top (h : g.Aligned start rest visits unclaimed (n :: stack)) :
    n ∉ unclaimed ++ stack ∧ (unclaimed ++ stack).Nodup :=
  List.nodup_cons.mp (List.nodup_middle.mp h.nodup)

/-- No edge leads from the node that is entered to one that waits on the stack. -/
theorem not_mem_stack (h : g.Aligned start rest visits unclaimed (n :: stack))
    (htree : g.TreeLike start) (hm : m ∈ stack) : m ∉ g.succs n := by
  intro hedge
  have hne : m ≠ start := fun heq => h.start_first (heq ▸ hm)
  have hlt : m < g.size := h.lt_size m ((h.mem m).mpr (by simp [hm]))
  obtain ⟨a, ha, hreach, hedge'⟩ := h.claimed m (List.mem_cons_of_mem n hm) hne
  have heq := htree.source (h.reach n List.mem_cons_self) hreach ⟨hedge, hlt⟩ ⟨hedge', hlt⟩ hne
  exact ha (heq ▸ (h.mem n).mpr (by simp))

/-- The fresh successors of the node that is entered, none of them repeated. -/
theorem fresh_eq (h : g.Aligned start rest visits unclaimed (n :: stack))
    (htree : g.TreeLike start) :
    g.fresh unclaimed n = (g.succs n).filter (· ∈ unclaimed) := by
  refine List.Nodup.dedup (List.nodup_iff_count_le_one.mpr fun m => ?_)
  by_cases hm : m ∈ unclaimed ∧ m ∈ g.succs n
  · have hlt : m < g.size := h.lt_size m ((h.mem m).mpr (List.mem_append_left _ hm.1))
    have hne : m ≠ start := fun heq => h.start_claimed (heq ▸ hm.1)
    rw [List.count_filter (by simpa using hm.1)]
    exact htree.once (h.reach n List.mem_cons_self) ⟨hm.2, hlt⟩ hne
  · rw [List.count_eq_zero_of_not_mem (by simpa [and_comm] using hm)]
    exact Nat.zero_le 1

theorem mem_erase (h : g.Aligned start rest visits unclaimed (n :: stack)) :
    m ∈ rest.erase n ↔ m ∈ unclaimed ++ stack := by
  have hne : m ∈ unclaimed ++ stack → m ≠ n := fun hm heq => h.nodup_top.1 (heq ▸ hm)
  rw [h.nodup_rest.mem_erase_iff, h.mem]
  rw [List.mem_append] at hne
  rw [List.mem_append, List.mem_append, List.mem_cons]
  tauto

/-- When the walk has entered the top of the stack, it still has to enter its fresh successors and
then what is left of the stack. -/
theorem pending_entered (h : g.Aligned start rest (.enter n :: visits) unclaimed (n :: stack))
    (htree : g.TreeLike start) (hn : n ∈ rest) :
    ((g.agenda (rest.erase n) n ++ visits).filterMap Visit.entered?).filter (· ∈ rest.erase n) =
      g.fresh unclaimed n ++ stack := by
  have hpending : (visits.filterMap Visit.entered?).filter (· ∈ rest) = stack := by
    simpa [Visit.entered?, hn] using h.pending
  have hnew : n ∉ stack := fun hmem => h.nodup_top.1 (List.mem_append_right _ hmem)
  rw [List.filterMap_append, entered_agenda, List.filter_append, List.filter_filter,
    h.fresh_eq htree]
  congr 1
  · simp only [Bool.and_self]
    refine List.filter_congr fun m hm => ?_
    have hnot : m ∉ stack := fun hmem => h.not_mem_stack htree hmem hm
    simp [h.mem_erase, hnot]
  · calc (visits.filterMap Visit.entered?).filter (· ∈ rest.erase n)
      _ = ((visits.filterMap Visit.entered?).filter (· ∈ rest)).filter (· ≠ n) := by
        rw [List.filter_filter]
        exact List.filter_congr fun m _ => by simp [h.nodup_rest.mem_erase_iff]
      _ = stack := by
        rw [hpending, List.filter_eq_self]
        exact fun m hm => decide_eq_true fun heq => hnew (heq ▸ hm)

/-- The two take the same node, and stay side by side. -/
theorem enter (h : g.Aligned start rest (.enter n :: visits) unclaimed (n :: stack))
    (htree : g.TreeLike start) (hn : n ∈ rest) :
    g.Aligned start (rest.erase n) (g.agenda (rest.erase n) n ++ visits)
      (claimAll (g.succs n) (unclaimed, stack)).1 (claimAll (g.succs n) (unclaimed, stack)).2 := by
  have hnodup := h.nodup_top.2
  have hperm := claimAll_perm (g.succs n) (unclaimed, stack)
  have hreach := h.reach n List.mem_cons_self
  have hclaim : claimAll (g.succs n) (unclaimed, stack) =
      (unclaimed.filter (· ∉ g.succs n), g.fresh unclaimed n ++ stack) :=
    claimAll_eq hnodup.of_append_left
  rw [hclaim] at hperm ⊢
  constructor
  case nodup => exact hperm.nodup_iff.mpr hnodup
  case nodup_rest => exact h.nodup_rest.erase n
  case mem => exact fun m => h.mem_erase.trans hperm.mem_iff.symm
  case lt_size => exact fun m hm => h.lt_size m (List.mem_of_mem_erase hm)
  case pending => exact h.pending_entered htree hn
  case reach =>
    intro m hm
    rcases List.mem_append.mp hm with hm | hm
    · obtain ⟨hmem, hedge⟩ := mem_fresh.mp hm
      exact hreach.tail ⟨hedge, h.lt_size m ((h.mem m).mpr (List.mem_append_left _ hmem))⟩
    · exact h.reach m (List.mem_cons_of_mem n hm)
  case claimed =>
    intro m hm hne
    rcases List.mem_append.mp hm with hm | hm
    · exact ⟨n, h.nodup_rest.not_mem_erase, hreach, (mem_fresh.mp hm).2⟩
    · obtain ⟨a, ha, hway, hedge⟩ := h.claimed m (List.mem_cons_of_mem n hm) hne
      exact ⟨a, fun hmem => ha (List.mem_of_mem_erase hmem), hway, hedge⟩
  case start_claimed => exact fun hmem => h.start_claimed (List.mem_of_mem_filter hmem)
  case start_first =>
    intro hmem
    rcases List.mem_append.mp (List.mem_of_mem_tail hmem) with hmem | hmem
    · exact h.start_claimed (mem_fresh.mp hmem).1
    · exact h.start_first hmem

/-- Side by side, the walk enters the nodes in the order of the preorder. -/
theorem entered_eq (h : g.Aligned start rest visits unclaimed stack) (htree : g.TreeLike start) :
    (g.walkFrom rest visits).filterMap Visit.entered? = g.preorderFrom unclaimed stack := by
  fun_induction walkFrom g rest visits generalizing unclaimed stack with
  | case1 rest =>
    rw [← h.pending]
    simp [preorderFrom]
  | case2 rest n visits ih =>
    rw [List.filterMap_cons_none rfl, ih (h.skip (by simp [Visit.entered?]))]
  | case3 rest n visits hn ih =>
    obtain ⟨stack, rfl⟩ := h.exists_stack hn
    rw [preorderFrom, ← ih (h.enter htree hn)]
    rfl
  | case4 rest n visits hn ih =>
    exact ih (h.skip (by simpa [Visit.entered?] using hn))

end Aligned

/-- Where at most one edge leads into each node, claiming first makes no difference. -/
theorem TreeLike.preorder_eq {start : Nat} (h : g.TreeLike start) :
    g.preorder start = g.searchOrder start := by
  rw [← entered_walk, walk]
  by_cases hstart : start < g.size
  · rw [preorder, if_pos hstart, (Aligned.initial hstart).entered_eq h]
  · rw [preorder, if_neg hstart, walkFrom, if_neg (by simpa using hstart), walkFrom]
    rfl

/-! ## The orders compared -/

/-- The walk enters the nodes in the order of the recursive search. The preorder is that of the
search that claims the successors of a node all at once. The two are the same where at most one
edge leads into each node, edges into the start apart. -/
theorem search_orders (g : Graph) (start : Nat) :
    (g.walk start).filterMap Visit.entered? = g.searchOrder start ∧
    g.preorder start = g.claimOrder start ∧
    (g.TreeLike start → g.preorder start = g.searchOrder start) :=
  ⟨entered_walk g start, preorder_eq_claimOrder g start, TreeLike.preorder_eq⟩

/-- The edges of a tree, and one from a leaf back to the root. -/
def returningEdges : List (Nat × Nat) :=
  [(0, 1), (0, 2), (1, 3), (1, 4), (4, 0)]

theorem returningEdges_treeLike : (ofEdges 5 returningEdges).TreeLike 0 where
  source {a b v} _ _ ha hb hv := by
    have hall : ∀ e ∈ returningEdges, ∀ e' ∈ returningEdges, e.2 = e'.2 → e.2 ≠ 0 →
        e.1 = e'.1 := by decide
    exact hall (a, v) (mem_succs_ofEdges.mp ha.1) (b, v) (mem_succs_ofEdges.mp hb.1) rfl hv
  once {a v} _ ha hv := by
    have hall : ∀ e ∈ returningEdges, e.2 ≠ 0 →
        ((ofEdges 5 returningEdges).succs e.1).count e.2 ≤ 1 := by decide
    exact hall (a, v) (mem_succs_ofEdges.mp ha.1) hv

theorem search_orders_returningEdges : (ofEdges 5 returningEdges).TreeLike 0 ∧
    (ofEdges 5 returningEdges).searchOrder 0 = [0, 1, 3, 4, 2] ∧
    ((ofEdges 5 returningEdges).walk 0).filterMap Visit.entered? = [0, 1, 3, 4, 2] ∧
    (ofEdges 5 returningEdges).claimOrder 0 = [0, 1, 3, 4, 2] ∧
    (ofEdges 5 returningEdges).preorder 0 = [0, 1, 3, 4, 2] := by
  obtain ⟨hwalk, hclaim, htree⟩ := search_orders (ofEdges 5 returningEdges) 0
  have hsearch : (ofEdges 5 returningEdges).searchOrder 0 = [0, 1, 3, 4, 2] := by decide +kernel
  have hpre := (htree returningEdges_treeLike).trans hsearch
  exact ⟨returningEdges_treeLike, hsearch, hwalk.trans hsearch, hclaim.symm.trans hpre, hpre⟩

/-- Three edges from the start, and a fourth from the first target to the last. -/
def crossEdge : Graph :=
  .ofEdges 4 [(0, 1), (0, 2), (0, 3), (1, 3)]

/-- The preorder need not be the order of the recursive search: a node that waits on the stack is
not taken when a search would come to it. -/
theorem crossEdge_not_searchOrder : ¬ ∀ (g : Graph) (start : Nat),
    g.preorder start = g.searchOrder start ∧
    (g.walk start).filterMap Visit.entered? = g.searchOrder start := by
  intro h
  have hpre : crossEdge.preorder 0 = [0, 1, 2, 3] := by decide +kernel
  have hsearch : crossEdge.searchOrder 0 = [0, 1, 3, 2] := by decide +kernel
  have heq := (h crossEdge 0).1
  rw [hpre, hsearch] at heq
  exact absurd heq (by decide)

end Graph

end ConstFlow
