import Mathlib.Data.Finset.Card
import TChecker.Reach.Completeness
import TChecker.Reach.Exact

namespace TChecker.Reach

open Graph

variable {St S T W : Type} (ts : Ts St S T) {find : Graph.Find S T} {labels : Finset Nat}
  {q : Waiting W (NodeSptr S)} {content : W → Multiset (NodeSptr S)}

theorem range_add_range' (a b : Nat) :
    Multiset.range (a + b) = Multiset.range a + ↑(List.range' a b) := by
  rw [Multiset.range_add, List.range'_eq_map_range, ← Multiset.map_coe]
  rfl

theorem length_le_card {g : Graph S T} {reach : Finset S} (hd : (g.nodes.map Node.state).Nodup)
    (hs : ∀ x ∈ g.nodes, x.state ∈ reach) : g.nodes.length ≤ reach.card := by
  have hle : (↑(g.nodes.map Node.state) : Multiset S) ≤ reach.val :=
    (Multiset.le_iff_subset (Multiset.coe_nodup.mpr hd)).mpr fun s hs' => by
      obtain ⟨x, hx, rfl⟩ := List.mem_map.mp hs'
      exact hs x hx
  simpa using Multiset.card_le_card hle

variable (find q) in
theorem ids_start (hq : q.Lawful content) :
    (content (start ts find q Graph.empty).waiting).map NodeSptr.id =
      Multiset.range (start ts find q Graph.empty).graph.nodes.length := by
  obtain ⟨hs, hc, hid, hlen, -⟩ := seed_waiting find q content hq.insert Graph.empty q.fresh ts.initial
  simp only [empty_nodes, List.length_nil, hq.fresh, zero_add] at hc hid hlen
  rw [start_waiting, start_graph, hc, Multiset.map_coe, hid, ← hlen, ← zero_add hs.length,
    range_add_range']
  simp

theorem Trace.ids (hq : q.Lawful content) {c c' : Cfg S T W} {nodes : List (NodeSptr S)}
    (h : Trace ts find labels q c nodes c') (hc : Tidy content c) (popped : List Nat)
    (hp : ↑popped + (content c.waiting).map NodeSptr.id = Multiset.range c.graph.nodes.length) :
    ↑(popped ++ nodes.map NodeSptr.id) + (content c'.waiting).map NodeSptr.id =
      Multiset.range c'.graph.nodes.length := by
  induction h generalizing popped with
  | nil => simpa using hp
  | @cons c c₁ c₂ node nodes hs _ ih =>
    obtain ⟨_, _, _, hpass⟩ := hs.spec find q hq (fun _ => trivial) (interns_true find)
    have hp₁ : ↑(popped ++ [node.id]) + (content c₁.waiting).map NodeSptr.id =
        Multiset.range c₁.graph.nodes.length := by
      rw [← hpass.length, range_add_range', ← hp, ← hpass.ids, hpass.waiting, hpass.pop, Multiset.map_add,
        Multiset.map_cons,
        Multiset.map_coe, ← Multiset.coe_add, ← Multiset.singleton_add, Multiset.coe_singleton]
      simp only [add_assoc]
    simpa using ih (hc.step hq hs) _ hp₁

theorem Trace.visited (hq : q.Lawful content) {c c' : Cfg S T W} {nodes : List (NodeSptr S)}
    (h : Trace ts find labels q c nodes c') :
    c'.stats.visitedStates = c.stats.visitedStates + nodes.length := by
  induction h with
  | nil => rfl
  | cons hs _ ih =>
    obtain ⟨_, _, _, hp⟩ := hs.spec find q hq (fun _ => trivial) (interns_true find)
    simp only [ih, hp.stats, List.length_cons]
    omega

theorem run_keeps_books (hq : q.Lawful content) (nodes : List (NodeSptr S)) (c : Cfg S T W)
    (h : Trace ts find labels q (start ts find q Graph.empty) nodes c) :
    (∀ n ∈ content c.waiting, c.graph.Holds n) ∧ ((content c.waiting).map NodeSptr.id).Nodup ∧
      c.stats.visitedStates + Multiset.card (content c.waiting) = c.graph.nodes.length ∧
      c.stats.visitedStates = nodes.length ∧
      c.stats.visitedTransitions = c.graph.edges.length ∧
      (∀ e ∈ c.graph.edges, c.graph.Holds e.src ∧ c.graph.Holds e.tgt) ∧
      (∀ x ∈ c.graph.nodes, x.final = false) ∧ c.stats.reachable = false :=
  have ht : Tidy content c := h.invariant ts find labels q (fun _ _ _ hc hs => hc.step hq hs) (tidy_start hq)
  ⟨ht.holds, ht.nodup, ht.count, by simpa [Stats.init] using h.visited ts hq, ht.transitions, ht.edges,
    ht.final, ht.reachable⟩

theorem run_keeps_books_counter :
    (expand findEq fifo ⟨0, 0⟩ (pop fifo (start (counter 2) findEq fifo Graph.empty))
        ((counter 2).next 0)).stats.visitedStates +
      Multiset.card (↑(expand findEq fifo ⟨0, 0⟩ (pop fifo (start (counter 2) findEq fifo Graph.empty))
        ((counter 2).next 0)).waiting : Multiset (NodeSptr Nat)) =
      (expand findEq fifo ⟨0, 0⟩ (pop fifo (start (counter 2) findEq fifo Graph.empty))
        ((counter 2).next 0)).graph.nodes.length :=
  (run_keeps_books (counter 2) fifo_lawful [⟨0, 0⟩] _
    (show Trace (counter 2) findEq {0} fifo (start (counter 2) findEq fifo Graph.empty) [⟨0, 0⟩] _ from
      .cons ⟨by decide, by decide, by decide, rfl⟩ (.nil _))).2.2.1

theorem runFromWaiting_returns (hq : q.Lawful content) (I : Cfg S T W → Prop)
    (hstep : ∀ c node c', I c → Step ts find labels q c node c' → I c') {n : Nat}
    (hI : ∀ c, I c → Tidy content c ∧ c.graph.nodes.length ≤ n) {c : Cfg S T W} (hc : I c)
    (hv : c.stats.visitedStates = 0) : ∃ r, runFromWaiting ts find labels q (n + 1) c = .returned r := by
  cases h : runFromWaiting ts find labels q (n + 1) c with
  | returned r => exact ⟨r, rfl⟩
  | running c' =>
    obtain ⟨nodes, hlen, htr⟩ := runFromWaiting_running ts find labels q h
    obtain ⟨ht, hb⟩ := hI c' (htr.invariant ts find labels q hstep hc)
    have hvis := htr.visited ts hq
    have := ht.count
    omega

theorem runFromWaiting_bounded (hq : q.Lawful content) (I : Cfg S T W → Prop)
    (hstep : ∀ c node c', I c → Step ts find labels q c node c' → I c') {n : Nat}
    (hI : ∀ c, I c → Tidy content c ∧ c.graph.nodes.length ≤ n) (fuel : Nat) {c : Cfg S T W}
    (hc : I c) :
    (runFromWaiting ts find labels q fuel c).cfg.stats.visitedStates ≤
        (runFromWaiting ts find labels q fuel c).cfg.graph.nodes.length ∧
      (runFromWaiting ts find labels q fuel c).cfg.graph.nodes.length ≤ n := by
  refine runFromWaiting_induction ts find labels q I
    (fun r => r.stats.visitedStates ≤ r.graph.nodes.length ∧ r.graph.nodes.length ≤ n) hstep
    (fun c hc => ⟨by have := (hI c hc).1.count; omega, (hI c hc).2⟩) ?_ fuel hc
  rintro c r hc (⟨-, rfl⟩ | ⟨hne, -, rfl⟩) <;> have := (hI c hc).1.count
  · exact ⟨by dsimp only; omega, (hI c hc).2⟩
  · have hcard : 0 < Multiset.card (content c.waiting) := by
      rw [hq.first_cons _ hne, Multiset.card_cons]
      omega
    exact ⟨by simp only [pop_graph, pop_stats, length_setFinal]; omega, by simpa using (hI c hc).2⟩

theorem runFromWaiting_returns_exit (hq : q.Lawful content) (I : Cfg S T W → Prop)
    (hstep : ∀ c node c', I c → Step ts find labels q c node c' → I c') {n : Nat}
    (hI : ∀ c, I c → Tidy content c ∧ c.graph.nodes.length ≤ n) {c : Cfg S T W} (hc : I c)
    (hv : c.stats.visitedStates = 0) :
    ∃ r, runFromWaiting ts find labels q (n + 1) c = .returned r ∧
      ∃ c', I c' ∧ Exit ts labels q c' r :=
  let ⟨r, hr⟩ := runFromWaiting_returns ts hq I hstep hI hc hv
  let ⟨_, c', htr, hx⟩ := runFromWaiting_returned ts find labels q hr
  ⟨r, hr, c', htr.invariant ts find labels q hstep hc, hx⟩

structure Bounded (content : W → Multiset (NodeSptr S)) (c : Cfg S T W) : Prop where
  tidy : Tidy content c
  sound : Sound ts c.graph
  nodup : (c.graph.nodes.map Node.state).Nodup

variable (find q) in
theorem bounded_start (hq : q.Lawful content) (hF : Fresh find) :
    Bounded ts content (start ts find q Graph.empty) :=
  ⟨tidy_start hq, sound_start ts find q, seed_nodup find q hF _ _ _ (by simp)⟩

theorem Bounded.step (hq : q.Lawful content) (hF : Fresh find) {c c' : Cfg S T W} {node : NodeSptr S}
    (hc : Bounded ts content c) (hs : Step ts find labels q c node c') : Bounded ts content c' :=
  ⟨hc.tidy.step hq hs, hc.sound.step ts hq hc.tidy hs, hs.nodup find q hF hc.nodup⟩

theorem Bounded.length_le {c : Cfg S T W} (hc : Bounded ts content c) {reach : Finset S}
    (hreach : ∀ s, s ∈ reach ↔ Reachable ts s) : c.graph.nodes.length ≤ reach.card :=
  length_le_card hc.nodup fun x hx => (hreach _).mpr (hc.sound.reachable x hx)

theorem run_terminates (hq : q.Lawful content) (hF : Fresh find) (reach : Finset S)
    (hreach : ∀ s, s ∈ reach ↔ Reachable ts s) :
    (∃ r, run ts find labels q (reach.card + 1) Graph.empty = .returned r) ∧
      (∀ fuel, (run ts find labels q fuel Graph.empty).cfg.stats.visitedStates ≤
          (run ts find labels q fuel Graph.empty).cfg.graph.nodes.length ∧
        (run ts find labels q fuel Graph.empty).cfg.graph.nodes.length ≤ reach.card) ∧
      ∀ nodes c, Trace ts find labels q (start ts find q Graph.empty) nodes c →
        ↑(nodes.map NodeSptr.id) + (content c.waiting).map NodeSptr.id =
          Multiset.range c.graph.nodes.length := by
  have hstep : ∀ c node c', Bounded ts content c → Step ts find labels q c node c' →
      Bounded ts content c' := fun _ _ _ hc hs => hc.step ts hq hF hs
  have hI : ∀ c, Bounded ts content c → Tidy content c ∧ c.graph.nodes.length ≤ reach.card :=
    fun _ hc => ⟨hc.tidy, hc.length_le ts hreach⟩
  exact ⟨runFromWaiting_returns ts hq _ hstep hI (bounded_start ts find q hq hF) rfl,
    fun fuel => runFromWaiting_bounded ts hq _ hstep hI fuel (bounded_start ts find q hq hF),
    fun nodes c h => by simpa using h.ids ts hq (tidy_start hq) [] (by simpa using ids_start ts find q hq)⟩

theorem run_terminates_counter :
    ∃ r, run (counter 2) findEq {0} fifo ((Finset.range 3).card + 1) Graph.empty = .returned r :=
  (run_terminates (counter 2) fifo_lawful findEq_fresh (Finset.range 3)
    fun s => by rw [Finset.mem_range, reachable_counter]; omega).1

structure Building (content : W → Multiset (NodeSptr S)) (c : Cfg S T W)
    extends Bounded ts content c : Prop where
  exact : Exact ts content c

variable (find q) in
theorem building_start (hq : q.Lawful content) (hI : Interns find Eq) (hF : Fresh find) :
    Building ts content (start ts find q Graph.empty) :=
  ⟨bounded_start ts find q hq hF, exact_start ts find q hq hI hF⟩

theorem Building.step (hq : q.Lawful content) (hI : Interns find Eq) (hF : Fresh find)
    {c c' : Cfg S T W} {node : NodeSptr S} (hc : Building ts content c)
    (hs : Step ts find labels q c node c') : Building ts content c' :=
  ⟨hc.toBounded.step ts hq hF hs, hc.exact.step ts hq hI hF hc.tidy hs⟩

theorem run_full_graph (hq : q.Lawful content) (hI : Interns find Eq) (hF : Fresh find)
    (reach : Finset S) (hreach : ∀ s, s ∈ reach ↔ Reachable ts s) :
    ∃ r, run ts find ∅ q (reach.card + 1) Graph.empty = .returned r ∧ r.stats.reachable = false ∧
      (r.graph.nodes.map Node.state).Nodup ∧ (∀ s, s ∈ r.graph.nodes.map Node.state ↔ s ∈ reach) ∧
      r.graph.nodes.length = reach.card ∧ r.stats.visitedStates = reach.card := by
  obtain ⟨r, hr, c, hc, hx⟩ := runFromWaiting_returns_exit ts hq (Building ts content)
    (fun _ _ _ hc hs => hc.step ts hq hI hF hs) (fun _ hc => ⟨hc.tidy, hc.length_le ts hreach⟩)
    (building_start ts find q hq hI hF) rfl
  rcases hx with ⟨he, rfl⟩ | ⟨-, hacc, -⟩
  · have hempty := (hq.empty_iff _).mp he
    have hiff : ∀ s, s ∈ c.graph.nodes.map Node.state ↔ s ∈ reach := fun s =>
      ⟨fun hs => by
        obtain ⟨x, hx, rfl⟩ := List.mem_map.mp hs
        exact (hreach _).mpr (hc.sound.reachable x hx),
        fun hs => hc.exact.reachable ts hc.tidy hempty ((hreach s).mp hs)⟩
    have hlen : c.graph.nodes.length = reach.card := by
      have hm : (↑(c.graph.nodes.map Node.state) : Multiset S) = reach.val :=
        (Multiset.Nodup.ext (Multiset.coe_nodup.mpr hc.nodup) reach.nodup).mpr fun s => by
          simpa using hiff s
      simpa using congrArg Multiset.card hm
    exact ⟨_, hr, hc.tidy.reachable, hc.nodup, hiff, hlen, by simpa [hempty, hlen] using hc.tidy.count⟩
  · rw [accepting_empty] at hacc
    cases hacc

theorem run_full_graph_counter :
    ∃ r, run (counter 2) findEq ∅ fifo ((Finset.range 3).card + 1) Graph.empty = .returned r ∧
      r.graph.nodes.length = (Finset.range 3).card :=
  let ⟨r, hr, _, _, _, hlen, _⟩ := run_full_graph (counter 2) fifo_lawful findEq_interns findEq_fresh
    (Finset.range 3) fun s => by rw [Finset.mem_range, reachable_counter]; omega
  ⟨r, hr, hlen⟩

structure Deciding (labels : Finset Nat) (content : W → Multiset (NodeSptr S)) (R : S → S → Prop)
    (c : Cfg S T W) extends Bounded ts content c : Prop where
  explored : Explored ts labels content R c

section

variable {R : S → S → Prop} (hrefl : ∀ s, R s s)
  (htrans : ∀ s₁ s₂ s₃, R s₁ s₂ → R s₂ s₃ → R s₁ s₃)
  (hsim : ∀ s s', R s s' → ∀ x ∈ ts.next s, ∃ x' ∈ ts.next s', R x.2.1 x'.2.1)
  (hacc : ∀ s s', R s s' → accepting ts labels s = true → accepting ts labels s' = true)

variable (find q) in
include hrefl in
theorem deciding_start (hq : q.Lawful content) (hI : Interns find R) (hF : Fresh find) :
    Deciding ts labels content R (start ts find q Graph.empty) :=
  ⟨bounded_start ts find q hq hF, explored_start ts find q hq hrefl hI⟩

include hrefl in
theorem Deciding.step (hq : q.Lawful content) (hI : Interns find R) (hF : Fresh find)
    {c c' : Cfg S T W} {node : NodeSptr S} (hc : Deciding ts labels content R c)
    (hs : Step ts find labels q c node c') : Deciding ts labels content R c' :=
  ⟨hc.toBounded.step ts hq hF hs, hc.explored.step ts hq hrefl hI hc.tidy hs⟩

include hrefl htrans hsim hacc in
theorem run_decides (hq : q.Lawful content) (hI : Interns find R) (hF : Fresh find)
    (reach : Finset S) (hreach : ∀ s, s ∈ reach ↔ Reachable ts s) :
    ∃ r, run ts find labels q (reach.card + 1) Graph.empty = .returned r ∧
      (r.stats.reachable = true ↔ ∃ s, Reachable ts s ∧ accepting ts labels s = true) := by
  obtain ⟨r, hr, c, hc, hx⟩ := runFromWaiting_returns_exit ts hq (Deciding ts labels content R)
    (fun _ _ _ hc hs => hc.step ts hrefl hq hI hF hs) (fun _ hc => ⟨hc.tidy, hc.length_le ts hreach⟩)
    (deciding_start ts find q hrefl hq hI hF) rfl
  refine ⟨r, hr, ?_⟩
  rcases hx with ⟨he, rfl⟩ | ⟨hne, hfirst, rfl⟩
  · have hempty := (hq.empty_iff _).mp he
    refine ⟨fun h => absurd hc.tidy.reachable (by simpa using h), fun ⟨s, hs, h⟩ => ?_⟩
    rw [hc.explored.not_accepting ts htrans hsim hacc hempty hs] at h
    cases h
  · obtain ⟨x, hx, hxs⟩ := (hc.tidy.holds _ ((hq.first_cons _ hne) ▸ Multiset.mem_cons_self _ _)).mem
    exact ⟨fun _ => ⟨_, hxs ▸ hc.sound.reachable x hx, hfirst⟩, fun _ => rfl⟩

end

theorem run_decides_counter :
    ∃ r, run (counter 2) findEq {0} fifo ((Finset.range 3).card + 1) Graph.empty = .returned r ∧
      r.stats.reachable = true :=
  let ⟨r, hr, hiff⟩ := run_decides (counter 2) (fun _ => rfl) (fun _ _ _ h₁ h₂ => h₁.trans h₂)
    (fun _ _ h x hx => ⟨x, h ▸ hx, rfl⟩)
    (fun _ _ h ha => h ▸ ha : ∀ s s' : Nat, s = s' → accepting (counter 2) {0} s = true →
      accepting (counter 2) {0} s' = true)
    fifo_lawful findEq_interns findEq_fresh (Finset.range 3)
    fun s => by rw [Finset.mem_range, reachable_counter]; omega
  ⟨r, hr, hiff.mpr ⟨2, reachable_counter.mpr le_rfl, by decide⟩⟩

end TChecker.Reach
