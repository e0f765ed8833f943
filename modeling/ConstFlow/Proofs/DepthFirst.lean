import ConstFlow.Proofs.Traversal
import Mathlib.Data.List.Flatten
import Mathlib.Data.List.Nodup

/-!
# Depth-first search

`Graph.walk` keeps the nodes to be entered and the nodes to be left on one stack. The recursion
that it stands for is `Graph.search`: it enters a node, searches its successors one after the other
and leaves the node. What it finds is an ordered forest, and the walk is the tour of that forest
(`walk_eq_tour`), so its order of entering is the preorder of the forest and its order of leaving
the postorder.

A search finds what can be reached through nodes that nobody has claimed (`mem_search`). So all that
a node can still reach when it is entered is found below it. This gives both orders:

* `orders_visit_reachable` : each order lists what can be reached, once, and has the start at its
  own end;
* `reversePostorder_forward` : an edge runs forward in the reverse postorder, unless its source can
  be reached from its target.
-/

namespace ConstFlow

/-! ## Forests -/

/-- An ordered forest: a root, what is below it, and the trees that come next. -/
inductive Forest where
  | nil
  | tree (root : Nat) (below next : Forest)
deriving DecidableEq, Repr

namespace Forest

/-- The nodes, each before those below it. -/
def preorder : Forest → List Nat
  | .nil => []
  | .tree n below next => n :: (below.preorder ++ next.preorder)

/-- The nodes, each after those below it. -/
def postorder : Forest → List Nat
  | .nil => []
  | .tree n below next => below.postorder ++ n :: next.postorder

/-- The way around the forest: a node is entered, those below it are toured, and it is left. -/
def tour : Forest → List Graph.Visit
  | .nil => []
  | .tree n below next => .enter n :: (below.tour ++ .leave n :: next.tour)

theorem entered_tour (t : Forest) : t.tour.filterMap Graph.Visit.entered? = t.preorder := by
  induction t with
  | nil => rfl
  | tree n below next hbelow hnext =>
    simp only [tour, List.filterMap_cons, List.filterMap_append, Graph.Visit.entered?, hbelow,
      hnext, preorder]

theorem left_tour (t : Forest) : t.tour.filterMap Graph.Visit.left? = t.postorder := by
  induction t with
  | nil => rfl
  | tree n below next hbelow hnext =>
    simp only [tour, List.filterMap_cons, List.filterMap_append, Graph.Visit.left?, hbelow, hnext,
      postorder]

theorem postorder_perm (t : Forest) : t.postorder.Perm t.preorder := by
  induction t with
  | nil => exact .refl _
  | tree n below next hbelow hnext =>
    exact List.perm_middle.trans ((hbelow.append hnext).cons n)

end Forest

namespace Graph

variable {g : Graph} {unclaimed ns : List Nat} {n m k : Nat}

/-! ## The recursive search -/

/-- What a search brings: a forest of nodes it has claimed, and the nodes it leaves unclaimed. -/
structure Search (unclaimed : List Nat) where
  forest : Forest
  left : List Nat
  sublist : left.Sublist unclaimed

theorem visitsLeft_le (g : Graph) {ns ms : List Nat} (h : ns.Sublist ms) :
    g.visitsLeft ns ≤ g.visitsLeft ms :=
  Nat.add_le_add h.length_le (h.flatMap g.succs).length_le

/-- Searches from the nodes of a list, one after the other. A node that is claimed already or out
of range is passed over; any other is claimed and its successors are searched before the rest. -/
def search (g : Graph) (unclaimed : List Nat) : List Nat → Search unclaimed
  | [] => ⟨.nil, unclaimed, .refl _⟩
  | n :: ns =>
    if n ∈ unclaimed then
      let below := g.search (unclaimed.erase n) (g.succs n)
      let next := g.search below.left ns
      ⟨.tree n below.forest next.forest, next.left,
        next.sublist.trans (below.sublist.trans List.erase_sublist)⟩
    else g.search unclaimed ns
termination_by ns => g.visitsLeft unclaimed + ns.length
decreasing_by
  · next h =>
    have := g.visitsLeft_erase h
    simp only [List.length_cons]
    omega
  · exact Nat.add_lt_add_of_le_of_lt
      (g.visitsLeft_le ((Search.sublist _).trans List.erase_sublist)) (Nat.lt_succ_self _)
  · simp only [List.length_cons]
    omega

/-- The nodes in the order in which the recursive search from `start` enters them. -/
def searchOrder (g : Graph) (start : Nat) : List Nat :=
  (g.search (List.range g.size) [start]).forest.preorder

/-- Nodes that are claimed at the start of a walk may be left out of its stack. -/
theorem walkFrom_filter {p : Nat → Bool} (hp : ∀ m ∈ unclaimed, p m = true) (visits : List Visit) :
    g.walkFrom unclaimed (visits.filter (·.entered?.all p)) = g.walkFrom unclaimed visits := by
  fun_induction walkFrom g unclaimed visits with
  | case1 unclaimed => rw [List.filter_nil, walkFrom]
  | case2 unclaimed n rest ih =>
    rw [List.filter_cons_of_pos rfl, walkFrom, ih hp]
  | case3 unclaimed n rest h ih =>
    have hp' : ∀ m ∈ unclaimed.erase n, p m = true := fun m hm => hp m (List.mem_of_mem_erase hm)
    have hkept : (g.agenda (unclaimed.erase n) n).filter (·.entered?.all p) =
        g.agenda (unclaimed.erase n) n := by
      refine List.filter_eq_self.mpr fun v hv => ?_
      simp only [agenda, List.mem_append, List.mem_map, List.mem_filter, decide_eq_true_eq,
        List.mem_singleton] at hv
      rcases hv with ⟨m, ⟨-, hm⟩, rfl⟩ | rfl
      · exact hp' m hm
      · rfl
    rw [List.filter_cons_of_pos (by simpa [Visit.entered?] using hp n h), walkFrom, if_pos h,
      ← ih hp', List.filter_append, hkept]
  | case4 unclaimed n rest h ih =>
    rw [List.filter_cons]
    split
    · rw [walkFrom, if_neg h, ih hp]
    · exact ih hp

/-- It makes no difference that successors claimed already are not put on the stack. -/
theorem walkFrom_agenda (g : Graph) (unclaimed : List Nat) (n : Nat) (rest : List Visit) :
    g.walkFrom unclaimed (g.agenda unclaimed n ++ rest) =
      g.walkFrom unclaimed ((g.succs n).map .enter ++ .leave n :: rest) := by
  rw [← walkFrom_filter (p := (· ∈ unclaimed)) (by simp) (_ ++ rest),
    ← walkFrom_filter (p := (· ∈ unclaimed)) (by simp) (_ ++ _ :: rest)]
  congr 1
  simp [agenda, List.filter_map, Function.comp_def, Visit.entered?]

/-- The stack works off nodes to be entered as the recursive search does. -/
theorem walkFrom_eq_tour (g : Graph) (unclaimed ns : List Nat) (rest : List Visit) :
    g.walkFrom unclaimed (ns.map .enter ++ rest) =
      (g.search unclaimed ns).forest.tour ++ g.walkFrom (g.search unclaimed ns).left rest := by
  fun_induction search g unclaimed ns generalizing rest with
  | case1 unclaimed => rfl
  | case2 unclaimed n ns h below next hbelow hnext =>
    rw [List.map_cons, List.cons_append, walkFrom, if_pos h, walkFrom_agenda, hbelow, walkFrom,
      hnext]
    simp [Forest.tour, below, next]
  | case3 unclaimed n ns h ih =>
    rw [List.map_cons, List.cons_append, walkFrom, if_neg h, ih]

theorem walk_eq_tour (g : Graph) (start : Nat) :
    g.walk start = (g.search (List.range g.size) [start]).forest.tour := by
  have h := g.walkFrom_eq_tour (List.range g.size) [start] []
  rwa [walkFrom, List.append_nil, List.append_nil] at h

/-- The walk enters the nodes in the order of the recursive search. -/
theorem entered_walk (g : Graph) (start : Nat) :
    (g.walk start).filterMap Visit.entered? = g.searchOrder start := by
  rw [walk_eq_tour, Forest.entered_tour, searchOrder]

theorem postorder_eq (g : Graph) (start : Nat) :
    g.postorder start = (g.search (List.range g.size) [start]).forest.postorder := by
  rw [postorder, walk_eq_tour, Forest.left_tour]

/-! ## What a search finds -/

/-- Some way leads from `k` to `m` through the given nodes only, both ends included. -/
def Open (g : Graph) (nodes : List Nat) (k m : Nat) : Prop :=
  k ∈ nodes ∧ Relation.ReflTransGen (g.EdgeInto nodes) k m

theorem EdgeInto.mono {nodes nodes' : List Nat} (h : nodes ⊆ nodes') :
    g.EdgeInto nodes ≤ g.EdgeInto nodes' :=
  fun _ _ hedge => ⟨hedge.1, h hedge.2⟩

namespace Open
variable {nodes nodes' : List Nat}

theorem mono (h : g.Open nodes k m) (hsub : nodes ⊆ nodes') : g.Open nodes' k m :=
  ⟨hsub h.1, Relation.ReflTransGen.mono (EdgeInto.mono hsub) k m h.2⟩

theorem tail (h : g.Open nodes k n) (hedge : m ∈ g.succs n) (hm : m ∈ nodes) : g.Open nodes k m :=
  ⟨h.1, h.2.tail ⟨hedge, hm⟩⟩

theorem head (h : g.Open nodes k m) (hedge : k ∈ g.succs n) :
    Relation.ReflTransGen (g.EdgeInto nodes) n m :=
  .head ⟨hedge, h.1⟩ h.2

theorem target_mem (h : g.Open nodes k m) : m ∈ nodes := by
  obtain ⟨hk, hway⟩ := h
  cases hway with
  | refl => exact hk
  | tail _ hedge => exact hedge.2

end Open

/-- A search claims the nodes that it finds, and no others. -/
theorem mem_left (h : unclaimed.Nodup) : m ∈ (g.search unclaimed ns).left ↔
    m ∈ unclaimed ∧ m ∉ (g.search unclaimed ns).forest.preorder := by
  fun_induction search g unclaimed ns with
  | case1 unclaimed => simp [Forest.preorder]
  | case2 unclaimed n ns hn below next hbelow hnext =>
    show m ∈ next.left ↔ m ∈ unclaimed ∧ m ∉ n :: (below.forest.preorder ++ next.forest.preorder)
    rw [hnext (below.sublist.nodup (h.erase n)), hbelow (h.erase n), h.mem_erase_iff,
      List.mem_cons, List.mem_append, not_or, not_or, and_assoc, and_assoc, and_left_comm]
  | case3 unclaimed n ns hn ih => exact ih h

/-- Neither a node nor what a search from its successors found has an edge to what is left. -/
theorem not_mem_succs_of_left {nodes : List Nat} {below : Search nodes} {a b : Nat}
    (hfound : ∀ m, m ∈ below.forest.preorder ↔ ∃ k ∈ g.succs n, g.Open nodes k m)
    (hleft : ∀ m, m ∈ below.left ↔ m ∈ nodes ∧ m ∉ below.forest.preorder)
    (ha : a = n ∨ a ∈ below.forest.preorder) (hb : b ∈ below.left) : b ∉ g.succs a := by
  intro hedge
  obtain ⟨hmem, hnot⟩ := (hleft b).mp hb
  refine hnot ((hfound b).mpr ?_)
  rcases ha with rfl | ha
  · exact ⟨b, hedge, hmem, .refl⟩
  · obtain ⟨k, hk, hopen⟩ := (hfound a).mp ha
    exact ⟨k, hk, hopen.tail hedge hmem⟩

/-- What can be reached through unclaimed nodes is the node that is entered, what can be reached
from it through the others, and what can be reached from the rest of the list through those that
are left then. -/
theorem open_step {below : Search (unclaimed.erase n)} (h : unclaimed.Nodup) (hn : n ∈ unclaimed)
    (hfound : ∀ m, m ∈ below.forest.preorder ↔ ∃ k ∈ g.succs n, g.Open (unclaimed.erase n) k m)
    (hleft : ∀ m, m ∈ below.left ↔ m ∈ unclaimed.erase n ∧ m ∉ below.forest.preorder) :
    (∃ k ∈ n :: ns, g.Open unclaimed k m) ↔
      m = n ∨ m ∈ below.forest.preorder ∨ ∃ k ∈ ns, g.Open below.left k m := by
  constructor
  · rintro ⟨k, hk, hmem, hway⟩
    -- an unclaimed node is the root, or was found below it, or is left
    have hsplit : ∀ b ∈ unclaimed, b = n ∨ b ∈ below.forest.preorder ∨ b ∈ below.left := by
      intro b hb
      by_cases heq : b = n
      · exact .inl heq
      by_cases hbelow : b ∈ below.forest.preorder
      · exact .inr (.inl hbelow)
      · exact .inr (.inr ((hleft b).mpr ⟨h.mem_erase_iff.mpr ⟨heq, hb⟩, hbelow⟩))
    induction hway with
    | refl =>
      rcases List.mem_cons.mp hk with rfl | hk
      · exact .inl rfl
      · rcases hsplit k hmem with heq | hbelow | hb
        · exact .inl heq
        · exact .inr (.inl hbelow)
        · exact .inr (.inr ⟨k, hk, hb, .refl⟩)
    | @tail a b _ hedge ih =>
      obtain ⟨hsucc, hb⟩ := hedge
      rcases hsplit b hb with heq | hbelow | hb
      · exact .inl heq
      · exact .inr (.inl hbelow)
      · rcases ih with heq | hbelow | ⟨k', hk', hopen⟩
        · exact absurd hsucc (not_mem_succs_of_left hfound hleft (.inl heq) hb)
        · exact absurd hsucc (not_mem_succs_of_left hfound hleft (.inr hbelow) hb)
        · exact .inr (.inr ⟨k', hk', hopen.tail hsucc hb⟩)
  · rintro (rfl | hbelow | ⟨k, hk, hopen⟩)
    · exact ⟨m, List.mem_cons_self, hn, .refl⟩
    · obtain ⟨k, hk, hopen⟩ := (hfound m).mp hbelow
      exact ⟨n, List.mem_cons_self, hn, (hopen.mono List.erase_subset).head hk⟩
    · exact ⟨k, List.mem_cons_of_mem n hk,
        hopen.mono (below.sublist.trans List.erase_sublist).subset⟩

/-- A search finds what can be reached from its list through unclaimed nodes. -/
theorem mem_search (h : unclaimed.Nodup) : m ∈ (g.search unclaimed ns).forest.preorder ↔
    ∃ k ∈ ns, g.Open unclaimed k m := by
  fun_induction search g unclaimed ns generalizing m with
  | case1 unclaimed => simp [Forest.preorder]
  | case2 unclaimed n ns hn below next hbelow hnext =>
    show m ∈ n :: (below.forest.preorder ++ next.forest.preorder) ↔ _
    rw [List.mem_cons, List.mem_append, hnext (below.sublist.nodup (h.erase n)),
      open_step h hn (fun m => hbelow (h.erase n)) fun m => mem_left (h.erase n)]
  | case3 unclaimed n ns hn ih =>
    rw [ih h]
    constructor
    · rintro ⟨k, hk, hopen⟩
      exact ⟨k, List.mem_cons_of_mem n hk, hopen⟩
    · rintro ⟨k, hk, hopen⟩
      rcases List.mem_cons.mp hk with rfl | hk
      · exact absurd hopen.1 hn
      · exact ⟨k, hk, hopen⟩

theorem subset_search (h : unclaimed.Nodup) :
    (g.search unclaimed ns).forest.preorder ⊆ unclaimed := by
  intro m hm
  obtain ⟨k, -, hopen⟩ := (mem_search h).mp hm
  exact hopen.target_mem

theorem nodup_search (h : unclaimed.Nodup) : (g.search unclaimed ns).forest.preorder.Nodup := by
  fun_induction search g unclaimed ns with
  | case1 unclaimed => exact List.nodup_nil
  | case2 unclaimed n ns hn below next hbelow hnext =>
    have hleft : below.left.Nodup := below.sublist.nodup (h.erase n)
    show (n :: (below.forest.preorder ++ next.forest.preorder)).Nodup
    have hroot : n ∉ unclaimed.erase n := h.not_mem_erase
    rw [List.nodup_cons, List.mem_append, not_or, List.nodup_append']
    refine ⟨⟨fun hmem => ?_, fun hmem => ?_⟩, hbelow (h.erase n), hnext hleft, ?_⟩
    · exact hroot (subset_search (h.erase n) hmem)
    · exact hroot (below.sublist.subset (subset_search hleft hmem))
    · intro m hm hm'
      exact ((mem_left (h.erase n)).mp (subset_search hleft hm')).2 hm
  | case3 unclaimed n ns hn ih => exact ih h

/-! ## The order of leaving -/

/-- If a node is left before one of its successors, then it can be reached from that successor. -/
theorem pairwise_search (h : unclaimed.Nodup) :
    (g.search unclaimed ns).forest.postorder.Pairwise fun a b =>
      b ∈ g.succs a → Relation.ReflTransGen (g.EdgeInto unclaimed) b a := by
  fun_induction search g unclaimed ns with
  | case1 unclaimed => exact .nil
  | case2 unclaimed n ns hn below next hbelow hnext =>
    have hleft : below.left.Nodup := below.sublist.nodup (h.erase n)
    have hsub : below.left ⊆ unclaimed := (below.sublist.trans List.erase_sublist).subset
    have hfound : ∀ m, m ∈ below.forest.preorder ↔
        ∃ k ∈ g.succs n, g.Open (unclaimed.erase n) k m := fun m => mem_search (h.erase n)
    show (below.forest.postorder ++ n :: next.forest.postorder).Pairwise _
    rw [List.pairwise_append, List.pairwise_cons]
    have hnone : ∀ b ∈ next.forest.postorder, ∀ a, a = n ∨ a ∈ below.forest.preorder →
        b ∉ g.succs a := by
      intro b hb a ha
      have hb := subset_search hleft (next.forest.postorder_perm.subset hb)
      exact not_mem_succs_of_left hfound (fun m => mem_left (h.erase n)) ha hb
    refine ⟨(hbelow (h.erase n)).imp fun hab hedge => ?_, ⟨fun b hb hedge => ?_,
      (hnext hleft).imp fun hab hedge => ?_⟩, fun a ha b hb hedge => ?_⟩
    · exact Relation.ReflTransGen.mono (EdgeInto.mono List.erase_subset) _ _ (hab hedge)
    · exact absurd hedge (hnone b hb n (.inl rfl))
    · exact Relation.ReflTransGen.mono (EdgeInto.mono hsub) _ _ (hab hedge)
    · have ha := below.forest.postorder_perm.subset ha
      rcases List.mem_cons.mp hb with rfl | hb
      · obtain ⟨k, hk, hopen⟩ := (hfound a).mp ha
        exact (hopen.mono List.erase_subset).head hk
      · exact absurd hedge (hnone b hb a (.inr ha))
  | case3 unclaimed n ns hn ih => exact ih h

/-! ## Both orders from a start -/

theorem open_range_iff {start : Nat} :
    g.Open (List.range g.size) start m ↔ start < g.size ∧ g.Reach start m := by
  rw [Open, List.mem_range]
  refine and_congr_right fun _ => ?_
  have hedge : g.EdgeInto (List.range g.size) = g.Edge := by
    funext a b
    rw [EdgeInto, Edge, List.mem_range]
  rw [Reach, hedge]

theorem mem_searchOrder {start : Nat} :
    m ∈ g.searchOrder start ↔ start < g.size ∧ g.Reach start m := by
  rw [searchOrder, mem_search List.nodup_range]
  simp only [List.mem_singleton, exists_eq_left, open_range_iff]

theorem postorder_perm_searchOrder (g : Graph) (start : Nat) :
    (g.postorder start).Perm (g.searchOrder start) := by
  rw [postorder_eq]
  exact Forest.postorder_perm _

theorem mem_postorder {start : Nat} :
    m ∈ g.postorder start ↔ start < g.size ∧ g.Reach start m := by
  rw [(postorder_perm_searchOrder g start).mem_iff, mem_searchOrder]

theorem nodup_postorder (g : Graph) (start : Nat) : (g.postorder start).Nodup :=
  (postorder_perm_searchOrder g start).nodup_iff.mpr (nodup_search List.nodup_range)

theorem getLast?_postorder {start : Nat} (h : start < g.size) :
    (g.postorder start).getLast? = some start := by
  simp [postorder_eq, search, h, Forest.postorder]

/-- Both orders list the nodes that can be reached from the start by edges that stay in the graph,
each once. A start in range comes first in the preorder and last in the postorder; from a start out
of range there is nothing to list. -/
theorem orders_visit_reachable (g : Graph) (start : Nat) :
    ((g.preorder start).Nodup ∧
      ∀ n, n ∈ g.preorder start ↔ start < g.size ∧ g.Reach start n) ∧
    ((g.postorder start).Nodup ∧
      ∀ n, n ∈ g.postorder start ↔ start < g.size ∧ g.Reach start n) ∧
    (start < g.size →
      (g.preorder start).head? = some start ∧ (g.postorder start).getLast? = some start) ∧
    (g.size ≤ start → g.preorder start = [] ∧ g.postorder start = []) := by
  refine ⟨⟨nodup_preorder g start, fun n => mem_preorder⟩,
    ⟨nodup_postorder g start, fun n => mem_postorder⟩,
    fun h => ⟨head?_preorder h, getLast?_postorder h⟩, fun h => ?_⟩
  have hout : ∀ n, ¬ (start < g.size ∧ g.Reach start n) := fun n hn => Nat.not_lt_of_le h hn.1
  constructor
  · exact List.eq_nil_iff_forall_not_mem.mpr fun n hn => hout n (mem_preorder.mp hn)
  · exact List.eq_nil_iff_forall_not_mem.mpr fun n hn => hout n (mem_postorder.mp hn)

/-- A node with an edge to itself, edges that are repeated, that lead back and that lead out of the
graph, and a node that cannot be reached. -/
def tangle : Graph :=
  .ofEdges 5 [(0, 1), (0, 2), (0, 1), (1, 1), (1, 7), (2, 0), (2, 3), (3, 1)]

theorem orders_visit_reachable_tangle : tangle.Reach 0 3 ∧ ¬ tangle.Reach 0 4 ∧
    (tangle.preorder 0).head? = some 0 ∧ (tangle.postorder 0).getLast? = some 0 ∧
    tangle.preorder 7 = [] ∧ tangle.postorder 7 = [] := by
  obtain ⟨⟨-, hpre⟩, ⟨-, hpost⟩, hends, -⟩ := orders_visit_reachable tangle 0
  obtain ⟨-, -, -, hout⟩ := orders_visit_reachable tangle 7
  have hin : 3 ∈ tangle.postorder 0 := by decide +kernel
  have hnot : 4 ∉ tangle.preorder 0 := by decide +kernel
  exact ⟨((hpost 3).mp hin).2, fun hway => hnot ((hpre 4).mpr ⟨by decide, hway⟩),
    (hends (by decide)).1, (hends (by decide)).2, hout (by decide)⟩

/-! ## Edges in the reverse postorder -/

theorem pairwise_postorder (g : Graph) (start : Nat) :
    (g.postorder start).Pairwise fun a b => b ∈ g.succs a → g.Reach b a := by
  rw [postorder_eq]
  refine (pairwise_search List.nodup_range).imp fun hab hedge => ?_
  exact Relation.ReflTransGen.mono (fun _ _ h => ⟨h.1, List.mem_range.mp h.2⟩) _ _ (hab hedge)

/-- Of two members that a pairwise relation refuses in one order, the other comes first. -/
theorem idxOf_lt_of_pairwise {R : Nat → Nat → Prop} {l : List Nat} {a b : Nat} (h : l.Pairwise R)
    (ha : a ∈ l) (hb : b ∈ l) (hne : a ≠ b) (hab : ¬ R a b) : l.idxOf b < l.idxOf a := by
  by_contra hle
  have hidx : l.idxOf a ≠ l.idxOf b := fun heq => hne ((List.idxOf_inj ha).mp heq)
  have hlt : l.idxOf a < l.idxOf b := by omega
  have hR := List.pairwise_iff_getElem.mp h _ _ (List.idxOf_lt_length_of_mem ha)
    (List.idxOf_lt_length_of_mem hb) hlt
  rw [List.getElem_idxOf, List.getElem_idxOf] at hR
  exact hab hR

/-- An edge that no way leads back along runs forward in the reverse postorder. -/
theorem idxOf_lt_of_edge {start u v : Nat} (hu : u ∈ g.postorder start)
    (hv : v ∈ g.postorder start) (hedge : v ∈ g.succs u) (hback : ¬ g.Reach v u) :
    (g.reversePostorder start).idxOf u < (g.reversePostorder start).idxOf v ∧
      (g.postorder start).idxOf v < (g.postorder start).idxOf u := by
  have hne : u ≠ v := fun heq => hback (heq ▸ .refl)
  have hpairs := pairwise_postorder g start
  constructor
  · exact idxOf_lt_of_pairwise (List.pairwise_reverse.mpr hpairs) (List.mem_reverse.mpr hv)
      (List.mem_reverse.mpr hu) hne.symm fun h => hback (h hedge)
  · exact idxOf_lt_of_pairwise hpairs hu hv hne fun h => hback (h hedge)

/-- The list holds what can be reached from `start`, each node once, and edges run forward in it. -/
structure Topological (g : Graph) (start : Nat) (ns : List Nat) : Prop where
  nodup : ns.Nodup
  mem : ∀ n, n ∈ ns ↔ g.Reach start n
  forward : ∀ u v, u ∈ ns → g.Edge u v → ns.idxOf u < ns.idxOf v

/-- An edge between nodes that can be reached, whose source cannot be reached from its target, runs
forward in the reverse postorder and backward in the postorder. If no node that can be reached lies
on a cycle, then the reverse postorder is topological. -/
theorem reversePostorder_forward (g : Graph) (start : Nat) (hstart : start < g.size) :
    (∀ u ∈ g.reversePostorder start, ∀ v ∈ g.reversePostorder start,
      v ∈ g.succs u → ¬ g.Reach v u →
        (g.reversePostorder start).idxOf u < (g.reversePostorder start).idxOf v ∧
        (g.postorder start).idxOf v < (g.postorder start).idxOf u) ∧
    ((∀ n, g.Reach start n → ¬ Relation.TransGen g.Edge n n) →
      g.Topological start (g.reversePostorder start)) := by
  have hmem : ∀ n, n ∈ g.reversePostorder start ↔ g.Reach start n := by
    intro n
    rw [reversePostorder, List.mem_reverse, mem_postorder, and_iff_right hstart]
  refine ⟨fun u hu v hv => idxOf_lt_of_edge (List.mem_reverse.mp hu) (List.mem_reverse.mp hv),
    fun hacyclic => ?_⟩
  constructor
  case nodup => exact List.nodup_reverse.mpr (nodup_postorder g start)
  case mem => exact hmem
  case forward =>
    intro u v hu hedge
    have hreach := (hmem u).mp hu
    have hv := (hmem v).mpr (hreach.tail hedge)
    have hback : ¬ g.Reach v u := fun hback =>
      hacyclic u hreach (Relation.TransGen.head' hedge hback)
    exact (idxOf_lt_of_edge (List.mem_reverse.mp hu) (List.mem_reverse.mp hv) hedge.1 hback).1

/-- A loop with a way out. -/
def loopWithExit : Graph :=
  .ofEdges 4 [(0, 1), (1, 2), (1, 3), (2, 1)]

/-- Two ways that meet again. -/
def meetingWays : Graph :=
  .ofEdges 4 [(0, 1), (0, 2), (1, 3), (2, 3)]

theorem reversePostorder_forward_examples :
    loopWithExit.reversePostorder 0 = [0, 1, 3, 2] ∧ ¬ loopWithExit.Reach 3 1 ∧
    (loopWithExit.reversePostorder 0).idxOf 1 < (loopWithExit.reversePostorder 0).idxOf 3 ∧
    (loopWithExit.postorder 0).idxOf 3 < (loopWithExit.postorder 0).idxOf 1 ∧
    meetingWays.Topological 0 [0, 2, 1, 3] := by
  have hback : ¬ loopWithExit.Reach 3 1 := by
    intro hway
    have hnot : 1 ∉ loopWithExit.preorder 3 := by decide +kernel
    exact hnot (mem_preorder.mpr ⟨by decide, hway⟩)
  have hedges := (reversePostorder_forward loopWithExit 0 (by decide)).1
    1 (by decide +kernel) 3 (by decide +kernel) (by decide) hback
  have hrising : ∀ a b, meetingWays.Edge a b → a < b := by
    intro a b hedge
    have hall : ∀ e ∈ [(0, 1), (0, 2), (1, 3), (2, 3)], e.1 < e.2 := by decide
    exact hall (a, b) (mem_succs_ofEdges.mp hedge.1)
  have hacyclic : ∀ n, meetingWays.Reach 0 n → ¬ Relation.TransGen meetingWays.Edge n n := by
    intro n _ hcycle
    have hlt : ∀ b, Relation.TransGen meetingWays.Edge n b → n < b := by
      intro b hway
      induction hway with
      | single hedge => exact hrising _ _ hedge
      | tail _ hedge ih => exact Nat.lt_trans ih (hrising _ _ hedge)
    exact Nat.lt_irrefl n (hlt n hcycle)
  have horder : meetingWays.reversePostorder 0 = [0, 2, 1, 3] := by decide +kernel
  refine ⟨by decide +kernel, hback, hedges.1, hedges.2, ?_⟩
  rw [← horder]
  exact (reversePostorder_forward meetingWays 0 (by decide)).2 hacyclic

end Graph

end ConstFlow
