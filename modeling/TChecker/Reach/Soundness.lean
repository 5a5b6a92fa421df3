import TChecker.Reach.Bookkeeping

namespace TChecker.Reach

open Graph

variable {St S T W : Type} (ts : Ts St S T) {find : Graph.Find S T} {labels : Finset Nat}
  {q : Waiting W (NodeSptr S)} {content : W → Multiset (NodeSptr S)}

structure Sound (g : Graph S T) : Prop where
  reachable : ∀ x ∈ g.nodes, Reachable ts x.state
  rooted : ∀ i < g.nodes.length, g.Rooted i

def Reported (labels : Finset Nat) (r : Cfg S T W) : Prop :=
  r.stats.reachable = true →
    r.graph.nodes.countP Node.final = 1 ∧ ∀ x ∈ r.graph.nodes, x.final = true → accepting ts labels x.state = true

variable (find q) in
theorem sound_start : Sound ts (start ts find q Graph.empty).graph := by
  obtain ⟨new, hn, hm⟩ := seed_states find q Graph.empty q.fresh ts.initial
  have hflags := seed_flags find q Graph.empty q.fresh ts.initial (by simp)
  simp only [start_graph, empty_nodes, List.map_nil, List.nil_append] at hn ⊢
  refine ⟨fun x hx => ?_, fun i hi => ⟨i, ?_, .refl⟩⟩
  · obtain ⟨⟨st, s, t⟩, hy, hs⟩ := hm x.state (hn ▸ List.mem_map_of_mem _ hx)
    exact hs ▸ .initial hy
  · simp [List.getElem?_eq_getElem hi, (hflags _ (List.getElem_mem hi)).1]

theorem Sound.step (hq : q.Lawful content) {c c' : Cfg S T W} {node : NodeSptr S}
    (ht : Tidy content c) (hc : Sound ts c.graph) (hs : Step ts find labels q c node c') :
    Sound ts c'.graph := by
  obtain ⟨new, es, _, hp⟩ := hs.spec find q hq (fun _ => trivial) (interns_true find)
  have hh := (ht.popped hq hs).1
  have hnode : Reachable ts node.state := by
    obtain ⟨x, hx, hxs⟩ := hh.mem
    exact hxs ▸ hc.reachable x hx
  refine ⟨fun x hx => ?_, fun i hi => ?_⟩
  · rcases List.mem_append.mp (hp.nodes ▸ hx) with hx | hx
    · exact hc.reachable x hx
    · obtain ⟨s, hs, rfl⟩ := List.mem_map.mp hx
      obtain ⟨⟨st, s', t⟩, hy, rfl⟩ := hp.new_succ s hs
      exact .next hnode hy
  · by_cases hold : i < c.graph.nodes.length
    · exact (hc.rooted i hold).of_append hp.nodes hp.edges
    · obtain ⟨e, he, hsrc, htgt⟩ := hp.linked i (by omega) hi
      obtain ⟨j, hj, hr⟩ := (hc.rooted node.id hh.lt_length).of_append hp.nodes hp.edges
      exact ⟨j, hj, hr.tail ⟨e, he, hsrc ▸ rfl, htgt⟩⟩

theorem reported_exit (hq : q.Lawful content) {c r : Cfg S T W} (ht : Tidy content c)
    (hx : Exit ts labels q c r) : Reported ts labels r := by
  rcases hx with ⟨-, rfl⟩ | ⟨hne, hacc, rfl⟩
  · exact fun h => absurd ht.reachable (by simpa using h)
  · have hh := ht.holds _ ((hq.first_cons _ hne) ▸ Multiset.mem_cons_self _ _)
    exact fun _ => ⟨countP_final_setFinal ht.final hh.lt_length,
      fun x hx hfx => by rwa [state_of_final_setFinal ht.final hh hx hfx]⟩

theorem Sound.exit (hq : q.Lawful content) {c r : Cfg S T W} (ht : Tidy content c)
    (hc : Sound ts c.graph) (hx : Exit ts labels q c r) : Sound ts r.graph ∧ Reported ts labels r := by
  refine ⟨?_, reported_exit ts hq ht hx⟩
  rcases hx with ⟨-, rfl⟩ | ⟨-, -, rfl⟩
  · exact hc
  · refine ⟨fun x hx => ?_, fun i hi => (hc.rooted i (by simpa using hi)).setFinal _⟩
    obtain ⟨y, hy, hs⟩ := state_mem_setFinal hx
    exact hs ▸ hc.reachable y hy

theorem run_sound (hq : q.Lawful content) (fuel : Nat) (r : Cfg S T W)
    (hr : (run ts find labels q fuel Graph.empty).cfg = r) :
    (∀ x ∈ r.graph.nodes, Reachable ts x.state) ∧ (∀ i < r.graph.nodes.length, r.graph.Rooted i) ∧
      (r.stats.reachable = true → r.graph.nodes.countP Node.final = 1 ∧
        ∀ x ∈ r.graph.nodes, x.final = true → accepting ts labels x.state = true) := by
  subst hr
  have h := runFromWaiting_induction ts find labels q (fun c => Tidy content c ∧ Sound ts c.graph)
    (fun r => Sound ts r.graph ∧ Reported ts labels r)
    (fun _ _ _ hc hs => ⟨hc.1.step hq hs, hc.2.step ts hq hc.1 hs⟩)
    (fun _ hc => ⟨hc.2, fun h => absurd hc.1.reachable (by simpa using h)⟩)
    (fun _ _ hc hx => hc.2.exit ts hq hc.1 hx) fuel ⟨tidy_start hq, sound_start ts find q⟩
  exact ⟨h.1.reachable, h.1.rooted, h.2⟩

theorem run_sound_counter :
    (run (counter 2) findEq {0} fifo 3 Graph.empty).cfg.stats.reachable = true ∧
      (run (counter 2) findEq {0} fifo 3 Graph.empty).cfg.graph.nodes.countP Node.final = 1 :=
  have hreach : (run (counter 2) findEq {0} fifo 3 Graph.empty).cfg.stats.reachable = true := by decide
  ⟨hreach, ((run_sound (counter 2) fifo_lawful 3
    (run (counter 2) findEq {0} fifo 3 Graph.empty).cfg rfl).2.2 hreach).1⟩

end TChecker.Reach
