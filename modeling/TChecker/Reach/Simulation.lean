import TChecker.Reach.Bookkeeping

namespace TChecker.Reach

open Graph

variable {St S T W : Type} (ts : Ts St S T) {find : Graph.Find S T} {labels : Finset Nat}
  {q : Waiting W (NodeSptr S)} {content : W → Multiset (NodeSptr S)} {R : S → S → Prop}

theorem filter_expanded {node : NodeSptr S} {xs : List (St × S × T)} {es : List (Edge S T)}
    {P : St × S × T → Edge S T → Prop} (hf : List.Forall₂ (fun x e => e.src = node ∧ P x e) xs es)
    (i : Nat) : (es.filter fun e => e.src.id == i) = if node.id = i then es else [] := by
  induction hf with
  | nil => split_ifs <;> rfl
  | cons h _ ih =>
    by_cases hi : node.id = i <;> simp_all [List.filter_cons]

def Expanded (R : S → S → Prop) (content : W → Multiset (NodeSptr S)) (c : Cfg S T W) : Prop :=
  ∀ i x, c.graph.nodes[i]? = some x →
    (∃ h ∈ content c.waiting, h.id = i) ∧ c.graph.out i = [] ∨
      (∀ h ∈ content c.waiting, h.id ≠ i) ∧
        List.Forall₂ (fun y e => e.transition = y.2.2 ∧ R y.2.1 e.tgt.state) (ts.next x.state)
          (c.graph.out i)

variable (find q) in
theorem expanded_start (hq : q.Lawful content) :
    Expanded ts R content (start ts find q Graph.empty) := fun _ _ hx =>
  .inl ⟨waiting_start hq (List.getElem?_eq_some_iff.mp hx).1, out_eq_nil (by simp [seed_edges])⟩

theorem Expanded.step (hq : q.Lawful content) (hR : ∀ s, R s s) (hI : Interns find R)
    {c c' : Cfg S T W} {node : NodeSptr S} (ht : Tidy content c) (hc : Expanded ts R content c)
    (hs : Step ts find labels q c node c') : Expanded ts R content c' := by
  obtain ⟨new, es, _, hp⟩ := hs.spec find q hq hR hI
  obtain ⟨hh, hne⟩ := ht.popped hq hs
  obtain ⟨hkeep, hback, hnew⟩ := hs.waiting hq
  have hn' : c'.graph.nodes = c.graph.nodes ++ new.map fun s => ⟨s, false, false⟩ := hp.nodes
  have hlt := hh.lt_length
  intro i x hx
  rw [out_append hp.edges, filter_expanded hp.edges_next]
  by_cases hold : i < c.graph.nodes.length
  · rw [hn', List.getElem?_append_left hold] at hx
    rcases hc i x hx with ⟨⟨h, hm, rfl⟩, hnil⟩ | ⟨hnw, hsim⟩
    · rw [hp.pop, Multiset.mem_cons] at hm
      rcases hm with rfl | hm
      · refine .inr ⟨fun h' hm' => ?_, ?_⟩
        · rcases hback h' hm' with hm' | hge
          · exact hne h' hm'
          · omega
        · rw [hnil, if_pos rfl, List.nil_append, hh.state_eq hx]
          exact hp.edges_next.imp fun _ _ ⟨_, htr, _, hr⟩ => ⟨htr, hr⟩
      · exact .inl ⟨⟨h, hkeep h hm, rfl⟩, by rw [hnil, if_neg (Ne.symm (hne h hm))]; rfl⟩
    · have hni : node.id ≠ i := hnw node (hp.pop ▸ Multiset.mem_cons_self _ _)
      refine .inr ⟨fun h' hm' => ?_, by rwa [if_neg hni, List.append_nil]⟩
      rcases hback h' hm' with hm' | hge
      · exact hnw h' (hp.pop ▸ Multiset.mem_cons_of_mem hm')
      · omega
  · have hi := (List.getElem?_eq_some_iff.mp hx).1
    refine .inl ⟨hnew i (by omega) hi, ?_⟩
    rw [out_eq_nil fun e he => ?_, if_neg (by omega)]
    · rfl
    · have := (ht.edges e he).1.lt_length
      omega

theorem run_simulates (hq : q.Lawful content) (hR : ∀ s, R s s) (hI : Interns find R) (fuel : Nat)
    (r : Cfg S T W) (hr : run ts find labels q fuel Graph.empty = .returned r)
    (hf : r.stats.reachable = false) :
    (∀ i x, r.graph.nodes[i]? = some x →
      List.Forall₂ (fun y e => e.transition = y.2.2 ∧ R y.2.1 e.tgt.state) (ts.next x.state)
        (r.graph.out i)) ∧
      (∀ e ∈ r.graph.edges, r.graph.Holds e.src ∧ r.graph.Holds e.tgt) ∧
      r.stats.visitedStates = r.graph.nodes.length ∧
      r.stats.visitedTransitions = r.graph.edges.length := by
  obtain ⟨_, c, htr, hx⟩ := runFromWaiting_returned ts find labels q hr
  have hc : Tidy content c ∧ Expanded ts R content c := htr.invariant ts find labels q
    (fun _ _ _ (hc : Tidy content _ ∧ Expanded ts R content _) hs =>
      ⟨hc.1.step hq hs, hc.2.step ts hq hR hI hc.1 hs⟩)
    ⟨tidy_start hq, expanded_start ts find q hq⟩
  rcases hx with ⟨he, rfl⟩ | ⟨-, -, rfl⟩
  · have hempty := (hq.empty_iff _).mp he
    refine ⟨fun i x hx => ?_, hc.1.edges, by simpa [hempty] using hc.1.count, hc.1.transitions⟩
    rcases hc.2 i x hx with ⟨⟨h, hm, -⟩, -⟩ | ⟨-, hsim⟩
    · simp [hempty] at hm
    · exact hsim
  · cases hf

theorem run_simulates_subsumed :
    (run { counter 2 with initial := [((), 2, ()), ((), 0, ())] } findLe {1} fifo 2
        Graph.empty).cfg.graph.nodes.length = 1 ∧
      (run { counter 2 with initial := [((), 2, ()), ((), 0, ())] } findLe {1} fifo 2
        Graph.empty).cfg.stats.visitedStates = 1 :=
  have h := run_simulates { counter 2 with initial := [((), 2, ()), ((), 0, ())] } fifo_lawful
    (le_refl : ∀ s : Nat, s ≤ s) findLe_interns 2 _
    (show run { counter 2 with initial := [((), 2, ()), ((), 0, ())] } findLe {1} fifo 2
      Graph.empty = .returned _ from rfl) rfl
  ⟨by decide, h.2.2.1.trans (by decide)⟩

def Flagged (R : S → S → Prop) (xs : List (St × S × T)) (g : Graph S T) : Prop :=
  (∀ y ∈ xs, ∃ x ∈ g.nodes, x.initial = true ∧ R y.2.1 x.state) ∧
    ∀ x ∈ g.nodes, x.initial = true → ∃ y ∈ xs, R y.2.1 x.state

theorem Flagged.mono {xs : List (St × S × T)} {g g' : Graph S T} (h : Flagged R xs g)
    (hext : g.Extends g')
    (hback : ∀ x' ∈ g'.nodes, x'.initial = true → ∃ x ∈ g.nodes, x.state = x'.state ∧ x.initial = true) :
    Flagged R xs g' := by
  refine ⟨fun y hy => ?_, fun x' hx' hi => ?_⟩
  · obtain ⟨x, hx, hi, hr⟩ := h.1 y hy
    obtain ⟨x', hx', hi', hs⟩ := hext.initial_mem hx hi
    exact ⟨x', hx', hi', hs ▸ hr⟩
  · obtain ⟨x, hx, hs, hi⟩ := hback x' hx' hi
    exact hs ▸ h.2 x hx hi

variable (find q) in
theorem flagged_start (hR : ∀ s, R s s) (hI : Interns find R) :
    Flagged R ts.initial (start ts find q Graph.empty).graph := by
  obtain ⟨h₁, h₂⟩ := seed_initial_flags find q hR hI Graph.empty q.fresh ts.initial
  refine ⟨h₁, fun x hx hi => ?_⟩
  rcases h₂ x hx hi with ⟨_, hx₀, -⟩ | h
  · cases hx₀
  · exact h

theorem Flagged.step {xs : List (St × S × T)} {c c' : Cfg S T W} {node : NodeSptr S}
    (hc : Flagged R xs c.graph) (hs : Step ts find labels q c node c') : Flagged R xs c'.graph := by
  obtain ⟨new, hn, -⟩ := expand_nodes find q node (pop q c) (ts.next node.state)
  rw [← hs.2.2.2, pop_graph] at hn
  refine hc.mono (hs.extends find q) fun x hx hi => ?_
  rcases List.mem_append.mp (hn ▸ hx) with hx | hx
  · exact ⟨x, hx, rfl, hi⟩
  · obtain ⟨s, -, rfl⟩ := List.mem_map.mp hx
    cases hi

theorem Flagged.exit {xs : List (St × S × T)} {c r : Cfg S T W} (hc : Flagged R xs c.graph)
    (hx : Exit ts labels q c r) : Flagged R xs r.graph := by
  refine hc.mono (hx.extends q) fun x' hx' hi => ?_
  rcases hx with ⟨-, rfl⟩ | ⟨-, -, rfl⟩
  · exact ⟨x', hx', rfl, hi⟩
  · obtain ⟨x, hx, rfl | rfl⟩ := mem_setFinal hx' <;> exact ⟨_, hx, rfl, hi⟩

theorem run_initial_flags (hR : ∀ s, R s s) (hI : Interns find R) (fuel : Nat) :
    (∀ y ∈ ts.initial, ∃ x ∈ (run ts find labels q fuel Graph.empty).cfg.graph.nodes,
        x.initial = true ∧ R y.2.1 x.state) ∧
      ∀ x ∈ (run ts find labels q fuel Graph.empty).cfg.graph.nodes, x.initial = true →
        ∃ y ∈ ts.initial, R y.2.1 x.state :=
  runFromWaiting_induction ts find labels q (fun c => Flagged R ts.initial c.graph)
    (fun c => Flagged R ts.initial c.graph) (fun _ _ _ hc hs => hc.step ts hs) (fun _ => id)
    (fun _ _ hc hx => hc.exit ts hx) fuel (flagged_start ts find q hR hI)

theorem run_initial_flags_subsumed :
    (run { counter 2 with initial := [((), 2, ()), ((), 0, ())] } findLe {1} fifo 2
        Graph.empty).cfg.graph.nodes = [⟨2, true, false⟩] ∧
      ∃ x ∈ (run { counter 2 with initial := [((), 2, ()), ((), 0, ())] } findLe {1} fifo 2
        Graph.empty).cfg.graph.nodes, x.initial = true ∧ 0 ≤ x.state :=
  ⟨by decide, (run_initial_flags { counter 2 with initial := [((), 2, ()), ((), 0, ())] }
    (le_refl : ∀ s : Nat, s ≤ s) findLe_interns 2).1 ((), 0, ()) (by simp)⟩

theorem run_unsubsumed (hU : Uncovered find R) (fuel : Nat) :
    ((run ts find labels q fuel Graph.empty).cfg.graph.nodes.map Node.state).Pairwise
      fun a b => ¬ R b a :=
  runFromWaiting_induction ts find labels q
    (fun c => (c.graph.nodes.map Node.state).Pairwise fun a b => ¬ R b a)
    (fun c => (c.graph.nodes.map Node.state).Pairwise fun a b => ¬ R b a)
    (fun _ _ _ hc hs => by rw [hs.2.2.2]; exact expand_pairwise find q hU _ _ _ hc) (fun _ => id)
    (fun _ _ hc hx => by rcases hx with ⟨-, rfl⟩ | ⟨-, -, rfl⟩ <;> simpa using hc) fuel
    (seed_pairwise find q hU _ _ _ (by simp))

theorem run_unsubsumed_counter :
    (run (counter 2) findLe ∅ fifo 4 Graph.empty).cfg.graph.nodes.map Node.state = [0, 1, 2] ∧
      ((run (counter 2) findLe ∅ fifo 4 Graph.empty).cfg.graph.nodes.map Node.state).Pairwise
        fun a b => ¬ b ≤ a :=
  ⟨by decide, run_unsubsumed (counter 2) findLe_uncovered 4⟩

end TChecker.Reach
