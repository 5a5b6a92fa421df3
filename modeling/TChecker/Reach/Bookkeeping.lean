import TChecker.Reach.Expand

namespace TChecker.Reach

open Graph

variable {St S T W : Type} (ts : Ts St S T) (find : Graph.Find S T) (labels : Finset Nat)
  (q : Waiting W (NodeSptr S)) (content : W → Multiset (NodeSptr S))

structure Tidy (c : Cfg S T W) : Prop where
  holds : ∀ h ∈ content c.waiting, c.graph.Holds h
  nodup : ((content c.waiting).map NodeSptr.id).Nodup
  count : c.stats.visitedStates + Multiset.card (content c.waiting) = c.graph.nodes.length
  transitions : c.stats.visitedTransitions = c.graph.edges.length
  edges : ∀ e ∈ c.graph.edges, c.graph.Holds e.src ∧ c.graph.Holds e.tgt
  final : ∀ x ∈ c.graph.nodes, x.final = false
  reachable : c.stats.reachable = false

variable {ts find labels q content}

theorem id_mem_range' {hs : List (NodeSptr S)} {k : Nat}
    (hid : hs.map NodeSptr.id = List.range' k hs.length) {h : NodeSptr S} (hm : h ∈ hs) :
    k ≤ h.id ∧ h.id < k + hs.length :=
  List.mem_range'_1.mp (hid ▸ List.mem_map_of_mem _ hm)

theorem exists_id_of_range' {hs : List (NodeSptr S)} {k : Nat}
    (hid : hs.map NodeSptr.id = List.range' k hs.length) {i : Nat} (h₁ : k ≤ i)
    (h₂ : i < k + hs.length) : ∃ h ∈ hs, h.id = i :=
  List.mem_map.mp (hid ▸ List.mem_range'_1.mpr ⟨h₁, h₂⟩)

theorem tidy_start (hq : q.Lawful content) : Tidy content (start ts find q Graph.empty) := by
  obtain ⟨hs, hc, hid, hlen, hh⟩ := seed_waiting find q content hq.insert Graph.empty q.fresh ts.initial
  simp only [Graph.empty_nodes, List.length_nil, Nat.zero_add, hq.fresh, zero_add] at hc hid hlen
  refine ⟨?_, ?_, ?_, ?_, ?_, ?_, rfl⟩ <;> simp only [start]
  · intro h hm; rw [hc] at hm; exact hh h hm
  · rw [hc, Multiset.map_coe, Multiset.coe_nodup, hid]; exact List.nodup_range' _ _
  · rw [hc, Multiset.coe_card, ← hlen]; simp [Stats.init]
  · simp [seed_edges, Stats.init]
  · simp [seed_edges]
  · intro x hx
    exact (seed_flags find q Graph.empty q.fresh ts.initial (by simp) x hx).2

theorem Tidy.step (hq : q.Lawful content) {c c' : Cfg S T W} {node : NodeSptr S}
    (hc : Tidy content c) (hs : Step ts find labels q c node c') : Tidy content c' := by
  obtain ⟨new, es, added, hp⟩ := hs.spec find q hq (fun _ => trivial) (interns_true find)
  have hmono : ∀ {h}, c.graph.Holds h → c'.graph.Holds h :=
    fun h => h.of_append (by simp [hp.nodes, Function.comp_def] :
      c'.graph.nodes.map Node.state = c.graph.nodes.map Node.state ++ new)
  have hrest : ∀ h ∈ content (q.removeFirst c.waiting), c.graph.Holds h :=
    fun h hm => hc.holds h (by rw [hp.pop]; exact Multiset.mem_cons_of_mem hm)
  have hnodup := hc.nodup
  rw [hp.pop, Multiset.map_cons, Multiset.nodup_cons] at hnodup
  have hcount := hc.count
  rw [hp.pop, Multiset.card_cons] at hcount
  refine ⟨?_, ?_, ?_, ?_, ?_, ?_, ?_⟩
  · intro h hm
    rcases Multiset.mem_add.mp (hp.waiting ▸ hm) with hm | hm
    · exact hmono (hrest h hm)
    · exact hp.holds h hm
  · rw [hp.waiting, Multiset.map_add, Multiset.nodup_add, Multiset.map_coe, Multiset.coe_nodup, hp.ids]
    refine ⟨hnodup.2, List.nodup_range' _ _, Multiset.disjoint_left.mpr fun hi hi' => ?_⟩
    obtain ⟨h, hm, rfl⟩ := Multiset.mem_map.mp hi
    have := (hrest h hm).lt_length
    simp only [Multiset.mem_coe, List.mem_range'_1] at hi'
    omega
  · rw [hp.stats, hp.waiting, Multiset.card_add, Multiset.coe_card, ← hp.length]
    simp only
    omega
  · rw [hp.stats, hp.edges, List.length_append, ← hp.edges_next.length_eq, hc.transitions]
  · intro e he
    rcases List.mem_append.mp (hp.edges ▸ he) with he | he
    · exact ⟨hmono (hc.edges e he).1, hmono (hc.edges e he).2⟩
    · obtain ⟨x, -, hsrc, -, htgt, -⟩ := forall₂_mem_right hp.edges_next he
      exact ⟨hsrc ▸ hmono (hc.holds node (by rw [hp.pop]; exact Multiset.mem_cons_self _ _)), htgt⟩
  · intro x hx
    rcases List.mem_append.mp (hp.nodes ▸ hx) with hx | hx
    · exact hc.final x hx
    · obtain ⟨s, -, rfl⟩ := List.mem_map.mp hx; rfl
  · rw [hp.stats]; exact hc.reachable

theorem waiting_start (hq : q.Lawful content) {i : Nat}
    (hi : i < (start ts find q Graph.empty).graph.nodes.length) :
    ∃ h ∈ content (start ts find q Graph.empty).waiting, h.id = i := by
  obtain ⟨hs, hc, hid, hlen, -⟩ := seed_waiting find q content hq.insert Graph.empty q.fresh ts.initial
  simp only [empty_nodes, List.length_nil, hq.fresh, zero_add] at hc hid hlen
  obtain ⟨h, hm, rfl⟩ := exists_id_of_range' hid (Nat.zero_le i) (by simp only [start_graph] at hi; omega)
  exact ⟨h, by simp [hc, hm], rfl⟩

theorem Tidy.popped (hq : q.Lawful content) {c c' : Cfg S T W} {node : NodeSptr S}
    (ht : Tidy content c) (hs : Step ts find labels q c node c') :
    c.graph.Holds node ∧ ∀ h ∈ content (q.removeFirst c.waiting), h.id ≠ node.id := by
  have hpop : content c.waiting = node ::ₘ content (q.removeFirst c.waiting) :=
    hs.2.1 ▸ hq.first_cons _ hs.1
  have hnd := ht.nodup
  rw [hpop, Multiset.map_cons, Multiset.nodup_cons] at hnd
  exact ⟨ht.holds node (hpop ▸ Multiset.mem_cons_self _ _),
    fun h hm heq => hnd.1 (heq ▸ Multiset.mem_map_of_mem _ hm)⟩

theorem Step.waiting (hq : q.Lawful content) {c c' : Cfg S T W} {node : NodeSptr S}
    (hs : Step ts find labels q c node c') :
    (∀ h ∈ content (q.removeFirst c.waiting), h ∈ content c'.waiting) ∧
      (∀ h ∈ content c'.waiting, h ∈ content (q.removeFirst c.waiting) ∨ c.graph.nodes.length ≤ h.id) ∧
      ∀ i, c.graph.nodes.length ≤ i → i < c'.graph.nodes.length → ∃ h ∈ content c'.waiting, h.id = i := by
  obtain ⟨_, _, added, hp⟩ := hs.spec find q hq (fun _ => trivial) (interns_true find)
  have hlen := hp.length
  rw [hp.waiting]
  refine ⟨fun h hm => Multiset.mem_add.mpr (.inl hm), fun h hm => ?_, fun i h₁ h₂ => ?_⟩
  · rcases Multiset.mem_add.mp hm with hm | hm
    · exact .inl hm
    · exact .inr (id_mem_range' hp.ids hm).1
  · obtain ⟨h, hm, rfl⟩ := exists_id_of_range' hp.ids h₁ (by omega)
    exact ⟨h, Multiset.mem_add.mpr (.inr hm), rfl⟩

end TChecker.Reach
