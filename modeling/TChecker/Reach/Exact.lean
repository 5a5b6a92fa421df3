import TChecker.Reach.Simulation
import TChecker.Reach.Soundness

namespace TChecker.Reach

open Graph

variable {St S T W : Type} (ts : Ts St S T) {find : Graph.Find S T} {labels : Finset Nat}
  {q : Waiting W (NodeSptr S)} {content : W → Multiset (NodeSptr S)}

def outgoing (g : Graph S T) (i : Nat) : List (S × T) :=
  (g.edges.filter fun e => e.src.id == i).map fun e => (e.tgt.state, e.transition)

def successors (s : S) : List (S × T) := (ts.next s).map fun y => (y.2.1, y.2.2)

theorem map_eq_map_iff_forall₂ {l : List (St × S × T)} {es : List (Edge S T)} :
    es.map (fun e => (e.tgt.state, e.transition)) = l.map (fun y => (y.2.1, y.2.2)) ↔
      List.Forall₂ (fun y e => e.transition = y.2.2 ∧ y.2.1 = e.tgt.state) l es := by
  induction l generalizing es with
  | nil => cases es <;> simp
  | cons y l ih =>
    cases es with
    | nil => simp
    | cons e es =>
      simp only [List.map_cons, List.cons.injEq, List.forall₂_cons, ih, Prod.mk.injEq]
      exact and_congr_left' (and_comm.trans (and_congr_right' eq_comm))

theorem out_iff_expanded {g : Graph S T} {i : Nat} {s : S} {A B : Prop} :
    (A ∧ outgoing g i = [] ∨ B ∧ outgoing g i = successors ts s) ↔
      (A ∧ g.out i = [] ∨
        B ∧ List.Forall₂ (fun y e => e.transition = y.2.2 ∧ y.2.1 = e.tgt.state) (ts.next s) (g.out i)) := by
  rw [show outgoing g i = (g.out i).map fun e => (e.tgt.state, e.transition) from rfl,
    List.map_eq_nil_iff, successors, map_eq_map_iff_forall₂]

structure Exact (content : W → Multiset (NodeSptr S)) (c : Cfg S T W) : Prop where
  nodup : (c.graph.nodes.map Node.state).Nodup
  seeded : ∀ x ∈ ts.initial, x.2.1 ∈ c.graph.nodes.map Node.state
  initial : ∀ x ∈ c.graph.nodes, x.initial = true ↔ ∃ y ∈ ts.initial, y.2.1 = x.state
  out : ∀ i x, c.graph.nodes[i]? = some x →
    (∃ h ∈ content c.waiting, h.id = i) ∧ outgoing c.graph i = [] ∨
      (∀ h ∈ content c.waiting, h.id ≠ i) ∧ outgoing c.graph i = successors ts x.state

variable (find q) in
theorem exact_start (hq : q.Lawful content) (hI : Interns find Eq) (hF : Fresh find) :
    Exact ts content (start ts find q Graph.empty) := by
  obtain ⟨new, hn, hm⟩ := seed_states find q Graph.empty q.fresh ts.initial
  have hflags := seed_flags find q Graph.empty q.fresh ts.initial (by simp)
  simp only [empty_nodes, List.map_nil, List.nil_append] at hn
  refine ⟨seed_nodup find q hF _ _ _ (by simp), fun x hx => ?_, fun x hx => ?_,
    fun i x hx => (out_iff_expanded ts).mpr (expanded_start ts find q hq i x hx)⟩
  · obtain ⟨s', hs', rfl⟩ := seed_covers find q (fun _ => rfl) hI Graph.empty q.fresh ts.initial x hx
    exact hs'
  · simp only [start_graph] at hx
    simp only [(hflags x hx).1, true_iff]
    exact hm _ (hn ▸ List.mem_map_of_mem _ hx)

theorem Exact.step (hq : q.Lawful content) (hI : Interns find Eq) (hF : Fresh find)
    {c c' : Cfg S T W} {node : NodeSptr S} (ht : Tidy content c) (hc : Exact ts content c)
    (hs : Step ts find labels q c node c') : Exact ts content c' := by
  obtain ⟨new, _, _, hp⟩ := hs.spec find q hq (fun _ => rfl) hI
  have hnodup := hs.nodup find q hF hc.nodup
  have hstates : c'.graph.nodes.map Node.state = c.graph.nodes.map Node.state ++ new := by
    simp [hp.nodes, Function.comp_def]
  have hexp : Expanded ts Eq content c' := Expanded.step ts hq (fun _ => rfl) hI ht
    (fun i x hx => (out_iff_expanded ts).mp (hc.out i x hx)) hs
  refine ⟨hnodup, fun x hx => hstates ▸ List.mem_append_left _ (hc.seeded x hx), fun x hx => ?_,
    fun i x hx => (out_iff_expanded ts).mpr (hexp i x hx)⟩
  rcases List.mem_append.mp (hp.nodes ▸ hx) with hx | hx
  · exact hc.initial x hx
  · obtain ⟨s, hs, rfl⟩ := List.mem_map.mp hx
    simp only [Bool.false_eq_true, false_iff]
    rintro ⟨y, hy, rfl⟩
    exact List.disjoint_of_nodup_append (hstates ▸ hnodup) (hc.seeded y hy) hs

theorem Exact.reachable {c : Cfg S T W} (hc : Exact ts content c) (ht : Tidy content c)
    (hempty : content c.waiting = 0) {s : S} (hs : Reachable ts s) :
    s ∈ c.graph.nodes.map Node.state := by
  induction hs with
  | initial h => exact hc.seeded _ h
  | @next s st s' t _ h ih =>
    obtain ⟨x, hx, rfl⟩ := List.mem_map.mp ih
    obtain ⟨i, hi⟩ := List.mem_iff_getElem?.mp hx
    rcases hc.out i x hi with ⟨⟨h, hm, -⟩, -⟩ | ⟨-, hsucc⟩
    · simp [hempty] at hm
    · have hmem : (s', t) ∈ outgoing c.graph i :=
        hsucc ▸ List.mem_map_of_mem (fun y : St × S × T => (y.2.1, y.2.2)) h
      obtain ⟨e, he, heq⟩ := List.mem_map.mp hmem
      have hst : e.tgt.state = s' := congrArg Prod.fst heq
      exact hst ▸ (ht.edges e (List.mem_filter.mp he).1).2.state_mem

theorem run_exact (hq : q.Lawful content) (hI : Interns find Eq) (hF : Fresh find) (fuel : Nat)
    (r : Cfg S T W) (hr : run ts find labels q fuel Graph.empty = .returned r) :
    (labels = ∅ → r.stats.reachable = false) ∧
      (r.stats.reachable = false →
        (r.graph.nodes.map Node.state).Nodup ∧
        (∀ s, s ∈ r.graph.nodes.map Node.state ↔ Reachable ts s) ∧
        (∀ x ∈ r.graph.nodes, x.initial = true ↔ ∃ y ∈ ts.initial, y.2.1 = x.state) ∧
        (∀ x ∈ r.graph.nodes, x.final = false) ∧
        (∀ e ∈ r.graph.edges, r.graph.Holds e.src ∧ r.graph.Holds e.tgt) ∧
        (∀ i x, r.graph.nodes[i]? = some x → outgoing r.graph i = successors ts x.state) ∧
        r.stats.visitedStates = r.graph.nodes.length ∧
        r.stats.visitedTransitions = r.graph.edges.length) := by
  obtain ⟨_, c, htr, hx⟩ := runFromWaiting_returned ts find labels q hr
  have hc : Tidy content c ∧ Sound ts c.graph ∧ Exact ts content c := htr.invariant ts find labels q
    (fun _ _ _ (hc : Tidy content _ ∧ Sound ts _ ∧ Exact ts content _) hs =>
      ⟨hc.1.step hq hs, hc.2.1.step ts hq hc.1 hs, hc.2.2.step ts hq hI hF hc.1 hs⟩)
    ⟨tidy_start hq, sound_start ts find q, exact_start ts find q hq hI hF⟩
  obtain ⟨ht, hsound, hexact⟩ := hc
  rcases hx with ⟨he, rfl⟩ | ⟨-, hacc, rfl⟩
  · have hempty := (hq.empty_iff _).mp he
    refine ⟨fun _ => ht.reachable, fun _ => ⟨hexact.nodup, fun s => ⟨fun hs => ?_,
      hexact.reachable ts ht hempty⟩, hexact.initial, ht.final, ht.edges, fun i x hx => ?_, ?_,
      ht.transitions⟩⟩
    · obtain ⟨x, hx, rfl⟩ := List.mem_map.mp hs
      exact hsound.reachable x hx
    · rcases hexact.out i x hx with ⟨⟨h, hm, -⟩, -⟩ | ⟨-, h⟩
      · simp [hempty] at hm
      · exact h
    · simpa [hempty] using ht.count
  · refine ⟨fun hl => ?_, fun h => by cases h⟩
    subst hl
    rw [accepting_empty] at hacc
    cases hacc

theorem run_exact_counter :
    ((run (counter 2) findEq ∅ fifo 4 Graph.empty).cfg.graph.nodes.map Node.state).Nodup ∧
      (run (counter 2) findEq ∅ fifo 4 Graph.empty).cfg.stats.visitedStates =
        (run (counter 2) findEq ∅ fifo 4 Graph.empty).cfg.graph.nodes.length :=
  have h := run_exact (counter 2) fifo_lawful findEq_interns findEq_fresh 4 _
    (show run (counter 2) findEq ∅ fifo 4 Graph.empty = .returned _ from rfl)
  ⟨(h.2 (h.1 rfl)).1, (h.2 (h.1 rfl)).2.2.2.2.2.2.1⟩

end TChecker.Reach
