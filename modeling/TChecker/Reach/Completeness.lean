import TChecker.Reach.Bookkeeping

namespace TChecker.Reach

open Graph

variable {St S T W : Type} (ts : Ts St S T) {find : Graph.Find S T} {labels : Finset Nat}
  {q : Waiting W (NodeSptr S)} {content : W → Multiset (NodeSptr S)} {R : S → S → Prop}

def Covered (R : S → S → Prop) (g : Graph S T) (s : S) : Prop := ∃ s' ∈ g.nodes.map Node.state, R s s'

theorem Covered.of_append {g g' : Graph S T} {s : S} (h : Covered R g s) {l : List (Node S)}
    (hn : g'.nodes = g.nodes ++ l) : Covered R g' s :=
  let ⟨s', hs', hr⟩ := h
  ⟨s', by rw [hn, List.map_append]; exact List.mem_append_left _ hs', hr⟩

structure Explored (labels : Finset Nat) (content : W → Multiset (NodeSptr S)) (R : S → S → Prop)
    (c : Cfg S T W) : Prop where
  seeded : ∀ x ∈ ts.initial, Covered R c.graph x.2.1
  closed : ∀ i x, c.graph.nodes[i]? = some x → (∃ h ∈ content c.waiting, h.id = i) ∨
    (accepting ts labels x.state = false ∧ ∀ y ∈ ts.next x.state, Covered R c.graph y.2.1)

variable (find q) in
theorem explored_start (hq : q.Lawful content) (hR : ∀ s, R s s) (hI : Interns find R) :
    Explored ts labels content R (start ts find q Graph.empty) :=
  ⟨seed_covers find q hR hI Graph.empty q.fresh ts.initial,
    fun _ _ hx => .inl (waiting_start hq (List.getElem?_eq_some_iff.mp hx).1)⟩

theorem Explored.step (hq : q.Lawful content) (hR : ∀ s, R s s) (hI : Interns find R)
    {c c' : Cfg S T W} {node : NodeSptr S} (ht : Tidy content c)
    (hc : Explored ts labels content R c) (hs : Step ts find labels q c node c') :
    Explored ts labels content R c' := by
  obtain ⟨new, es, _, hp⟩ := hs.spec find q hq hR hI
  have hh := (ht.popped hq hs).1
  obtain ⟨hkeep, -, hnew⟩ := hs.waiting hq
  have hn' : c'.graph.nodes = c.graph.nodes ++ new.map fun s => ⟨s, false, false⟩ := hp.nodes
  refine ⟨fun x hx => (hc.seeded x hx).of_append hn', fun i x hx => ?_⟩
  by_cases hold : i < c.graph.nodes.length
  · rw [hn', List.getElem?_append_left hold] at hx
    rcases hc.closed i x hx with ⟨h, hm, rfl⟩ | ⟨hxacc, hcov⟩
    · rw [hp.pop, Multiset.mem_cons] at hm
      rcases hm with rfl | hm
      · rw [hh.state_eq hx]
        refine .inr ⟨hp.not_accepting, fun y hy => ?_⟩
        obtain ⟨e, -, -, -, hholds, hr⟩ := forall₂_mem_left hp.edges_next hy
        exact ⟨e.tgt.state, hholds.state_mem, hr⟩
      · exact .inl ⟨h, hkeep h hm, rfl⟩
    · exact .inr ⟨hxacc, fun y hy => (hcov y hy).of_append hn'⟩
  · exact .inl (hnew i (by omega) (List.getElem?_eq_some_iff.mp hx).1)

section

variable (hrefl : ∀ s, R s s) (htrans : ∀ s₁ s₂ s₃, R s₁ s₂ → R s₂ s₃ → R s₁ s₃)
  (hsim : ∀ s s', R s s' → ∀ x ∈ ts.next s, ∃ x' ∈ ts.next s', R x.2.1 x'.2.1)
  (hacc : ∀ s s', R s s' → accepting ts labels s = true → accepting ts labels s' = true)

theorem Explored.expanded {c : Cfg S T W} (hc : Explored ts labels content R c)
    (hempty : content c.waiting = 0) {x : Node S} (hx : x ∈ c.graph.nodes) :
    accepting ts labels x.state = false ∧ ∀ y ∈ ts.next x.state, Covered R c.graph y.2.1 := by
  obtain ⟨i, hi⟩ := List.mem_iff_getElem?.mp hx
  rcases hc.closed i x hi with ⟨h, hm, -⟩ | hexp
  · simp [hempty] at hm
  · exact hexp

include htrans hsim in
theorem Explored.covered_next {c : Cfg S T W} (hc : Explored ts labels content R c)
    (hempty : content c.waiting = 0) {s s' : S} (hs : Covered R c.graph s) (h : Succ ts s s') :
    Covered R c.graph s' := by
  obtain ⟨s₁, hs₁, hr⟩ := hs
  obtain ⟨y, hy, rfl⟩ := h
  obtain ⟨x', hx', hr'⟩ := hsim _ _ hr _ hy
  obtain ⟨x, hx, rfl⟩ := List.mem_map.mp hs₁
  obtain ⟨s₂, hs₂, hr''⟩ := (hc.expanded ts hempty hx).2 x' hx'
  exact ⟨s₂, hs₂, htrans _ _ _ hr' hr''⟩

include htrans hsim in
theorem Explored.covered {c : Cfg S T W} (hc : Explored ts labels content R c)
    (hempty : content c.waiting = 0) {s : S} (hs : Reachable ts s) : Covered R c.graph s := by
  induction hs with
  | initial h => exact hc.seeded _ h
  | next _ h ih => exact hc.covered_next ts htrans hsim hempty ih ⟨_, h, rfl⟩

include hacc in
theorem Explored.accepting_covered {c : Cfg S T W} (hc : Explored ts labels content R c)
    (hempty : content c.waiting = 0) {s : S} (hs : Covered R c.graph s) :
    accepting ts labels s = false := by
  obtain ⟨s', hs', hr⟩ := hs
  obtain ⟨x, hx, rfl⟩ := List.mem_map.mp hs'
  have hx' := (hc.expanded ts hempty hx).1
  exact Bool.eq_false_iff.mpr fun h => by rw [hacc _ _ hr h] at hx'; cases hx'

include htrans hsim hacc in
theorem Explored.not_accepting {c : Cfg S T W} (hc : Explored ts labels content R c)
    (hempty : content c.waiting = 0) {s : S} (hs : Reachable ts s) :
    accepting ts labels s = false :=
  hc.accepting_covered ts hacc hempty (hc.covered ts htrans hsim hempty hs)

include hrefl htrans hsim hacc in
theorem run_complete (hq : q.Lawful content) (hI : Interns find R) (fuel : Nat) (r : Cfg S T W)
    (hr : run ts find labels q fuel Graph.empty = .returned r) (hf : r.stats.reachable = false) :
    ∀ s, Reachable ts s → accepting ts labels s = false := by
  obtain ⟨_, c, htr, hx⟩ := runFromWaiting_returned ts find labels q hr
  have hc : Tidy content c ∧ Explored ts labels content R c := htr.invariant ts find labels q
    (fun _ _ _ (hc : Tidy content _ ∧ Explored ts labels content R _) hs =>
      ⟨hc.1.step hq hs, hc.2.step ts hq hrefl hI hc.1 hs⟩)
    ⟨tidy_start hq, explored_start ts find q hq hrefl hI⟩
  rcases hx with ⟨he, -⟩ | ⟨-, -, rfl⟩
  · exact fun s => hc.2.not_accepting ts htrans hsim hacc ((hq.empty_iff _).mp he)
  · cases hf

end

theorem run_complete_counter : Reachable (counter 2) 2 ∧ accepting (counter 2) {1} 2 = false :=
  have h : Reachable (counter 2) 2 := reachable_counter.mpr le_rfl
  ⟨h, run_complete (counter 2) (fun _ => rfl) (fun _ _ _ h₁ h₂ => h₁.trans h₂)
    (fun _ _ h x hx => ⟨x, h ▸ hx, rfl⟩) (fun _ _ h ha => h ▸ ha) fifo_lawful findEq_interns 4 _
    (show run (counter 2) findEq {1} fifo 4 Graph.empty = .returned _ from rfl) rfl 2 h⟩

end TChecker.Reach
