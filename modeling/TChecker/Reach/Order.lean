import TChecker.Reach.Termination

namespace TChecker.Reach

open Graph

variable {St S T W : Type} (find : Graph.Find S T)

theorem seed_inserts (q : Waiting W (NodeSptr S)) (g : Graph S T) (w : W) (xs : List (St × S × T)) :
    ∃ hs : List (NodeSptr S), (seed find q g w xs).2 = hs.foldl q.insert w ∧
      hs.map NodeSptr.id = List.range' g.nodes.length hs.length := by
  induction xs generalizing g w with
  | nil => exact ⟨[], rfl, rfl⟩
  | cons x xs ih =>
    obtain ⟨st, s, t⟩ := x
    rw [seed_cons]
    rcases seedOne_cases find q g w st s t with ⟨i, -, he⟩ | ⟨-, he⟩ <;> rw [he] <;>
      obtain ⟨hs, hw, hid⟩ := ih _ _
    · exact ⟨hs, hw, by simpa using hid⟩
    · refine ⟨⟨g.nodes.length, s⟩ :: hs, hw, ?_⟩
      simp only [List.map_cons, hid, List.length_cons, List.range'_succ]
      simp

theorem expand_inserts (q : Waiting W (NodeSptr S)) (node : NodeSptr S) (c : Cfg S T W)
    (xs : List (St × S × T)) :
    ∃ hs : List (NodeSptr S), (expand find q node c xs).waiting = hs.foldl q.insert c.waiting ∧
      hs.map NodeSptr.id = List.range' c.graph.nodes.length hs.length := by
  induction xs generalizing c with
  | nil => exact ⟨[], rfl, rfl⟩
  | cons x xs ih =>
    obtain ⟨st, s, t⟩ := x
    rw [expand_cons]
    rcases expandOne_cases find q node c st s t with ⟨i, -, he⟩ | ⟨-, he⟩ <;> rw [he] <;>
      obtain ⟨hs, hw, hid⟩ := ih _
    · exact ⟨hs, hw, by simpa using hid⟩
    · refine ⟨⟨c.graph.nodes.length, s⟩ :: hs, hw, ?_⟩
      simp only [List.map_cons, hid, List.length_cons, List.range'_succ]
      simp

variable [Inhabited S]

def InOrder (c : Cfg S T (List (NodeSptr S))) : Prop :=
  c.waiting.map NodeSptr.id = List.range' c.stats.visitedStates c.waiting.length

variable (ts : Ts St S T) {labels : Finset Nat}

theorem Step.pops_head {q : Waiting (List (NodeSptr S)) (NodeSptr S)} (he : q.empty = List.isEmpty)
    (hf : q.first = List.headI) (hr : q.removeFirst = List.tail) {c c' : Cfg S T (List (NodeSptr S))}
    {node : NodeSptr S} (hs : Step ts find labels q c node c') :
    ∃ rest, c.waiting = node :: rest ∧ (pop q c).waiting = rest ∧
      c' = expand find q node (pop q c) (ts.next node.state) := by
  obtain ⟨hne, rfl, -, rfl⟩ := hs
  cases hcw : c.waiting with
  | nil => simp [he, hcw] at hne
  | cons n rest => exact ⟨rest, by simp [hf], by simp [pop, hr, hcw], rfl⟩

theorem inOrder_start : InOrder (start ts find fifo Graph.empty) := by
  obtain ⟨hs, hw, hid⟩ := seed_inserts find fifo Graph.empty [] ts.initial
  rw [foldl_insert_fifo] at hw
  show (seed find fifo Graph.empty [] ts.initial).2.map NodeSptr.id =
    List.range' 0 (seed find fifo Graph.empty [] ts.initial).2.length
  simpa [hw] using hid

theorem InOrder.step {c c' : Cfg S T (List (NodeSptr S))} {node : NodeSptr S} (ht : Tidy (↑) c)
    (hc : InOrder c) (hs : Step ts find labels fifo c node c') :
    node.id = c.stats.visitedStates ∧ InOrder c' := by
  obtain ⟨rest, hcw, hrest, rfl⟩ := hs.pops_head find ts rfl rfl rfl
  obtain ⟨hs, hw, hid⟩ := expand_inserts find fifo node (pop fifo c) (ts.next node.state)
  rw [foldl_insert_fifo] at hw
  have hcount := ht.count
  simp only [InOrder, hcw, List.map_cons, List.length_cons, List.range'_succ, List.cons.injEq] at hc
  simp only [hcw, Multiset.coe_card, List.length_cons] at hcount
  refine ⟨hc.1, ?_⟩
  simp only [InOrder, hw, hrest, expand_stats, pop_stats, List.map_append, hc.2, hid, pop_graph,
    ← hcount, List.length_append]
  rw [show c.stats.visitedStates + (rest.length + 1) = c.stats.visitedStates + 1 + rest.length by omega,
    List.range'_append_1]
  ac_rfl

theorem Trace.inOrder {c₀ c : Cfg S T (List (NodeSptr S))} {nodes : List (NodeSptr S)}
    (h : Trace ts find labels fifo c₀ nodes c) (ht : Tidy (↑) c₀) (hc : InOrder c₀) :
    nodes.map NodeSptr.id = List.range' c₀.stats.visitedStates nodes.length ∧ InOrder c := by
  induction h with
  | nil => exact ⟨rfl, hc⟩
  | cons hs _ ih =>
    obtain ⟨hid, hc'⟩ := hc.step find ts ht hs
    obtain ⟨hids, hend⟩ := ih (ht.step fifo_lawful hs) hc'
    obtain ⟨_, _, _, hp⟩ := hs.spec find fifo fifo_lawful (fun _ => trivial) (interns_true find)
    refine ⟨?_, hend⟩
    rw [List.map_cons, hids, hid, List.length_cons, List.range'_succ, hp.stats]

theorem run_fifo_order (nodes : List (NodeSptr S)) (c : Cfg S T (List (NodeSptr S)))
    (h : Trace ts find labels fifo (start ts find fifo Graph.empty) nodes c) :
    nodes.map NodeSptr.id = List.range nodes.length ∧
      c.waiting.map NodeSptr.id = List.range' nodes.length (c.graph.nodes.length - nodes.length) := by
  obtain ⟨hids, hc⟩ := h.inOrder find ts (tidy_start fifo_lawful) (inOrder_start find ts)
  have hv := h.visited ts fifo_lawful
  have hcount := (h.invariant ts find labels fifo (fun _ _ _ hc hs => hc.step fifo_lawful hs)
    (tidy_start fifo_lawful)).count
  simp only [start_stats, Stats.init, zero_add, Multiset.coe_card] at hv hids hcount
  unfold InOrder at hc
  refine ⟨by rw [hids, List.range_eq_range'], ?_⟩
  rw [hc, hv]
  congr 1
  omega

theorem run_fifo_order_counter :
    ([⟨0, 0⟩, ⟨1, 1⟩] : List (NodeSptr Nat)).map NodeSptr.id = List.range 2 :=
  (run_fifo_order findEq (counter 2) [⟨0, 0⟩, ⟨1, 1⟩] _
    (show Trace (counter 2) findEq {0} fifo (start (counter 2) findEq fifo Graph.empty)
        [⟨0, 0⟩, ⟨1, 1⟩] _ from
      .cons ⟨by decide, by decide, by decide, rfl⟩ (.cons ⟨by decide, by decide, by decide, rfl⟩
        (.nil _)))).1

def Stacked (c : Cfg S T (List (NodeSptr S))) : Prop :=
  (c.waiting.map NodeSptr.id).Pairwise (· > ·)

theorem sorted_range'_reverse (k n : Nat) : (List.range' k n).reverse.Pairwise (· > ·) :=
  List.pairwise_reverse.mpr (List.pairwise_lt_range' k n)

theorem stacked_start : Stacked (start ts find lifo Graph.empty) := by
  obtain ⟨hs, hw, hid⟩ := seed_inserts find lifo Graph.empty [] ts.initial
  rw [foldl_insert_lifo] at hw
  show ((seed find lifo Graph.empty [] ts.initial).2.map NodeSptr.id).Pairwise (· > ·)
  rw [hw, List.append_nil, List.map_reverse, hid]
  exact sorted_range'_reverse _ _

theorem Stacked.step {c c' : Cfg S T (List (NodeSptr S))} {node : NodeSptr S} (ht : Tidy (↑) c)
    (hc : Stacked c) (hs : Step ts find labels lifo c node c') : Stacked c' := by
  obtain ⟨rest, hcw, hrest, rfl⟩ := hs.pops_head find ts rfl rfl rfl
  have hold : ∀ h ∈ rest, h.id < c.graph.nodes.length :=
    fun h hm => (ht.holds h (by simp [hcw, hm])).lt_length
  obtain ⟨hs, hw, hid⟩ := expand_inserts find lifo node (pop lifo c) (ts.next node.state)
  rw [foldl_insert_lifo] at hw
  simp only [Stacked, hcw, List.map_cons, List.pairwise_cons] at hc
  simp only [Stacked, hw, hrest, pop_graph, List.map_append, List.map_reverse, hid]
  refine List.pairwise_append.mpr ⟨sorted_range'_reverse _ _, hc.2, fun a ha b hb => ?_⟩
  obtain ⟨h, hm, rfl⟩ := List.mem_map.mp hb
  have := hold h hm
  have := (List.mem_range'_1.mp (List.mem_reverse.mp ha)).1
  omega

theorem Stacked.first_newest {c : Cfg S T (List (NodeSptr S))} (hc : Stacked c) :
    ∀ n ∈ c.waiting, n.id ≤ (lifo.first c.waiting).id := by
  unfold Stacked at hc
  cases hcw : c.waiting with
  | nil => simp
  | cons h rest =>
    simp only [hcw, List.map_cons, List.pairwise_cons, List.mem_map] at hc
    intro n hn
    rcases List.mem_cons.mp hn with rfl | hn
    · exact le_rfl
    · exact (hc.1 _ ⟨n, hn, rfl⟩).le

theorem Trace.stacked {c₀ c : Cfg S T (List (NodeSptr S))} {nodes : List (NodeSptr S)}
    (h : Trace ts find labels lifo c₀ nodes c) (ht : Tidy (↑) c₀) (hc : Stacked c₀) : Stacked c := by
  induction h with
  | nil => exact hc
  | cons hs _ ih => exact ih (ht.step lifo_lawful hs) (hc.step find ts ht hs)

theorem run_lifo_order (nodes : List (NodeSptr S)) (c : Cfg S T (List (NodeSptr S)))
    (h : Trace ts find labels lifo (start ts find lifo Graph.empty) nodes c) :
    (c.waiting.map NodeSptr.id).Pairwise (· > ·) ∧ ∀ n ∈ c.waiting, n.id ≤ (lifo.first c.waiting).id :=
  have hc := h.stacked find ts (tidy_start lifo_lawful) (stacked_start find ts)
  ⟨hc, hc.first_newest⟩

def fork : Ts Unit Nat Unit where
  initial := [((), 0, ())]
  next s := if s = 0 then [((), 1, ()), ((), 2, ())] else []
  labels s := if s = 2 then {0} else ∅
  isValidFinal _ := true

theorem run_lifo_order_fork :
    (([⟨2, 2⟩, ⟨1, 1⟩] : List (NodeSptr Nat)).map NodeSptr.id).Pairwise (· > ·) ∧
      accepting fork {0} (lifo.first ([⟨2, 2⟩, ⟨1, 1⟩] : List (NodeSptr Nat))).state = true :=
  ⟨(run_lifo_order findEq fork [⟨0, 0⟩] _
    (show Trace fork findEq {0} lifo (start fork findEq lifo Graph.empty) [⟨0, 0⟩] _ from
      .cons ⟨by decide, by decide, by decide, rfl⟩ (.nil _))).1, by decide⟩

end TChecker.Reach
