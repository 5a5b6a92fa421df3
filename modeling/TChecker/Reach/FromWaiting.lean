import TChecker.Reach.Completeness
import TChecker.Reach.Termination

namespace TChecker.Reach

open Graph

variable {St S T W : Type} (ts : Ts St S T) {find : Graph.Find S T} {labels : Finset Nat}
  {q : Waiting W (NodeSptr S)} {content : W → Multiset (NodeSptr S)} {R : S → S → Prop}

structure Preseeded (content : W → Multiset (NodeSptr S)) (g : Graph S T) (w : W) : Prop where
  holds : ∀ h ∈ content w, g.Holds h
  ids : (content w).map NodeSptr.id = Multiset.range g.nodes.length
  edges : g.edges = []
  final : ∀ x ∈ g.nodes, x.final = false

theorem Preseeded.tidy {g : Graph S T} {w : W} (hg : Preseeded content g w) :
    Tidy content (⟨g, w, Stats.init⟩ : Cfg S T W) where
  holds := hg.holds
  nodup := hg.ids ▸ Multiset.nodup_range _
  count := by simpa [Stats.init] using congrArg Multiset.card hg.ids
  transitions := by simp [Stats.init, hg.edges]
  edges := by simp [hg.edges]
  final := hg.final
  reachable := rfl

theorem Preseeded.waits {g : Graph S T} {w : W} (hg : Preseeded content g w) {i : Nat}
    (hi : i < g.nodes.length) : ∃ h ∈ content w, h.id = i :=
  Multiset.mem_map.mp (hg.ids ▸ Multiset.mem_range.mpr hi)

def ReachableFrom (g₀ : Graph S T) (s : S) : Prop :=
  ∃ x ∈ g₀.nodes, Relation.ReflTransGen (Succ ts) x.state s

structure Descends (g₀ g : Graph S T) : Prop where
  start : ∃ l, g.nodes.map Node.state = g₀.nodes.map Node.state ++ l
  reachable : ∀ x ∈ g.nodes, ReachableFrom ts g₀ x.state
  linked : ∀ i < g.nodes.length, ∃ j < g₀.nodes.length, Relation.ReflTransGen g.Linked j i

theorem descends_self (g₀ : Graph S T) : Descends ts g₀ g₀ :=
  ⟨⟨[], by simp⟩, fun x hx => ⟨x, hx, .refl⟩, fun i hi => ⟨i, hi, .refl⟩⟩

theorem Descends.step (hq : q.Lawful content) {g₀ : Graph S T} {c c' : Cfg S T W}
    {node : NodeSptr S} (ht : Tidy content c) (hc : Descends ts g₀ c.graph)
    (hs : Step ts find labels q c node c') : Descends ts g₀ c'.graph := by
  obtain ⟨new, es, _, hp⟩ := hs.spec find q hq (fun _ => trivial) (interns_true find)
  have hh := (ht.popped hq hs).1
  obtain ⟨x₀, hx₀, hr₀⟩ : ReachableFrom ts g₀ node.state := by
    obtain ⟨x, hx, hxs⟩ := hh.mem
    exact hxs ▸ hc.reachable x hx
  obtain ⟨l, hl⟩ := hc.start
  have hmono {i j : Nat} : Relation.ReflTransGen c.graph.Linked i j → Relation.ReflTransGen c'.graph.Linked i j :=
    linked_mono (hp.edges ▸ List.subset_append_left c.graph.edges es)
  refine ⟨⟨l ++ new, by simp [hp.nodes, hl, Function.comp_def]⟩, fun x hx => ?_, fun i hi => ?_⟩
  · rcases List.mem_append.mp (hp.nodes ▸ hx) with hx | hx
    · exact hc.reachable x hx
    · obtain ⟨s, hs, rfl⟩ := List.mem_map.mp hx
      exact ⟨x₀, hx₀, hr₀.tail (hp.new_succ s hs)⟩
  · by_cases hold : i < c.graph.nodes.length
    · obtain ⟨j, hj, hr⟩ := hc.linked i hold
      exact ⟨j, hj, hmono hr⟩
    · obtain ⟨e, he, hsrc, htgt⟩ := hp.linked i (by omega) hi
      obtain ⟨j, hj, hr⟩ := hc.linked node.id hh.lt_length
      exact ⟨j, hj, (hmono hr).tail ⟨e, he, hsrc ▸ rfl, htgt⟩⟩

theorem Descends.exit {g₀ : Graph S T} {c r : Cfg S T W} (hc : Descends ts g₀ c.graph)
    (hx : Exit ts labels q c r) : Descends ts g₀ r.graph := by
  rcases hx with ⟨-, rfl⟩ | ⟨-, -, rfl⟩
  · exact hc
  · obtain ⟨l, hl⟩ := hc.start
    refine ⟨⟨l, by simpa using hl⟩, fun x hx => ?_, fun i hi => ?_⟩
    · obtain ⟨y, hy, hs⟩ := state_mem_setFinal hx
      exact hs ▸ hc.reachable y hy
    · obtain ⟨j, hj, hr⟩ := hc.linked i (by simpa using hi)
      exact ⟨j, hj, linked_mono (by simp) hr⟩

structure Grows (content : W → Multiset (NodeSptr S)) (g : Graph S T) (c : Cfg S T W) : Prop where
  tidy : Tidy content c
  descends : Descends ts g c.graph

theorem Grows.step (hq : q.Lawful content) {g : Graph S T} {c c' : Cfg S T W} {node : NodeSptr S}
    (hc : Grows ts content g c) (hs : Step ts find labels q c node c') : Grows ts content g c' :=
  ⟨hc.tidy.step hq hs, hc.descends.step ts hq hc.tidy hs⟩

theorem Preseeded.grows {g : Graph S T} {w : W} (hg : Preseeded content g w) :
    Grows ts content g (⟨g, w, Stats.init⟩ : Cfg S T W) :=
  ⟨hg.tidy, descends_self ts g⟩

theorem run_waiting_sound (hq : q.Lawful content) {g : Graph S T} {w : W}
    (hg : Preseeded content g w) (fuel : Nat) (r : Cfg S T W)
    (hr : (runWaiting ts find labels q fuel g w).cfg = r) :
    (∃ l, r.graph.nodes.map Node.state = g.nodes.map Node.state ++ l) ∧
      (∀ x ∈ r.graph.nodes, ReachableFrom ts g x.state) ∧
      (∀ i < r.graph.nodes.length, ∃ j < g.nodes.length, Relation.ReflTransGen r.graph.Linked j i) ∧
      (r.stats.reachable = true → r.graph.nodes.countP Node.final = 1 ∧
        ∀ x ∈ r.graph.nodes, x.final = true → accepting ts labels x.state = true) := by
  subst hr
  have h := runFromWaiting_induction ts find labels q (Grows ts content g)
    (fun r => Descends ts g r.graph ∧ Reported ts labels r)
    (fun _ _ _ hc hs => hc.step ts hq hs)
    (fun _ hc => ⟨hc.descends, fun h => absurd hc.tidy.reachable (by simpa using h)⟩)
    (fun _ _ hc hx => ⟨hc.descends.exit ts hx, reported_exit ts hq hc.tidy hx⟩) fuel (hg.grows ts)
  exact ⟨h.1.start, h.1.reachable, h.1.linked, h.2⟩

theorem preseeded_one :
    Preseeded (↑) (⟨[⟨1, false, false⟩], []⟩ : Graph Nat Unit) [(⟨0, 1⟩ : NodeSptr Nat)] :=
  ⟨by simp [Holds, stateAt], rfl, rfl, by simp⟩

theorem run_waiting_sound_counter :
    (⟨2, false, true⟩ : Node Nat) ∈
        (runWaiting (counter 2) findEq {0} fifo 3 ⟨[⟨1, false, false⟩], []⟩ [⟨0, 1⟩]).cfg.graph.nodes ∧
      ReachableFrom (counter 2) ⟨[⟨1, false, false⟩], []⟩ 2 :=
  have h : (⟨2, false, true⟩ : Node Nat) ∈
      (runWaiting (counter 2) findEq {0} fifo 3 ⟨[⟨1, false, false⟩], []⟩ [⟨0, 1⟩]).cfg.graph.nodes := by
    decide
  ⟨h, (run_waiting_sound (counter 2) fifo_lawful preseeded_one 3 _ rfl).2.1 _ h⟩

def Ts.unseeded (ts : Ts St S T) : Ts St S T := { ts with initial := [] }

theorem Preseeded.explored {g : Graph S T} {w : W} (hg : Preseeded content g w) :
    Explored ts.unseeded labels content R (⟨g, w, Stats.init⟩ : Cfg S T W) :=
  ⟨fun _ h => (List.not_mem_nil _ h).elim,
    fun _ _ hx => .inl (hg.waits (List.getElem?_eq_some_iff.mp hx).1)⟩

section

variable (hrefl : ∀ s, R s s) (htrans : ∀ s₁ s₂ s₃, R s₁ s₂ → R s₂ s₃ → R s₁ s₃)
  (hsim : ∀ s s', R s s' → ∀ x ∈ ts.next s, ∃ x' ∈ ts.next s', R x.2.1 x'.2.1)
  (hacc : ∀ s s', R s s' → accepting ts labels s = true → accepting ts labels s' = true)

include hrefl htrans hsim hacc in
theorem run_waiting_complete (hq : q.Lawful content) (hI : Interns find R) {g : Graph S T} {w : W}
    (hg : Preseeded content g w) (fuel : Nat) (r : Cfg S T W)
    (hr : runWaiting ts find labels q fuel g w = .returned r) (hf : r.stats.reachable = false) :
    ∀ s, ReachableFrom ts g s → Covered R r.graph s ∧ accepting ts labels s = false := by
  obtain ⟨_, c, htr, hx⟩ := runFromWaiting_returned ts find labels q hr
  have hc : Grows ts content g c ∧ Explored ts.unseeded labels content R c :=
    htr.invariant ts find labels q
      (fun _ _ _ (hc : Grows ts content g _ ∧ Explored ts.unseeded labels content R _) hs =>
        ⟨hc.1.step ts hq hs, hc.2.step ts.unseeded hq hrefl hI hc.1.tidy hs⟩)
      ⟨hg.grows ts, hg.explored ts⟩
  rcases hx with ⟨he, rfl⟩ | ⟨-, -, rfl⟩
  · have hempty := (hq.empty_iff _).mp he
    rintro s ⟨x, hx, hxs⟩
    obtain ⟨l, hl⟩ := hc.1.descends.start
    have hcov : Covered R c.graph s := by
      induction hxs with
      | refl => exact ⟨x.state, hl ▸ List.mem_append_left _ (List.mem_map_of_mem _ hx), hrefl _⟩
      | tail _ h ih => exact hc.2.covered_next ts.unseeded htrans hsim hempty ih h
    exact ⟨hcov, hc.2.accepting_covered ts.unseeded hacc hempty hcov⟩
  · cases hf

end

theorem run_waiting_complete_counter :
    ReachableFrom (counter 2) ⟨[⟨1, false, false⟩], []⟩ 2 ∧ accepting (counter 2) {1} 2 = false :=
  have h : ReachableFrom (counter 2) ⟨[⟨1, false, false⟩], []⟩ 2 :=
    ⟨_, List.mem_singleton_self _, .single ⟨((), 2, ()), by decide, rfl⟩⟩
  ⟨h, (run_waiting_complete (counter 2) (fun _ => rfl) (fun _ _ _ h₁ h₂ => h₁.trans h₂)
    (fun _ _ h x hx => ⟨x, h ▸ hx, rfl⟩) (fun _ _ h ha => h ▸ ha) fifo_lawful findEq_interns
    preseeded_one 3 _ (show runWaiting (counter 2) findEq {1} fifo 3 _ _ = .returned _ from rfl)
    rfl 2 h).2⟩

structure GrowsBounded (content : W → Multiset (NodeSptr S)) (g : Graph S T) (c : Cfg S T W)
    extends Grows ts content g c : Prop where
  nodup : (c.graph.nodes.map Node.state).Nodup

theorem GrowsBounded.step (hq : q.Lawful content) (hF : Fresh find) {g : Graph S T}
    {c c' : Cfg S T W} {node : NodeSptr S} (hc : GrowsBounded ts content g c)
    (hs : Step ts find labels q c node c') : GrowsBounded ts content g c' :=
  ⟨hc.toGrows.step ts hq hs, hs.nodup find q hF hc.nodup⟩

theorem GrowsBounded.length_le {g : Graph S T} {c : Cfg S T W} (hc : GrowsBounded ts content g c)
    {reach : Finset S} (hreach : ∀ s, ReachableFrom ts g s → s ∈ reach) :
    c.graph.nodes.length ≤ reach.card :=
  length_le_card hc.nodup fun x hx => hreach _ (hc.descends.reachable x hx)

theorem run_waiting_terminates (hq : q.Lawful content) (hF : Fresh find) {g : Graph S T} {w : W}
    (hg : Preseeded content g w) (hd : (g.nodes.map Node.state).Nodup) (reach : Finset S)
    (hreach : ∀ s, ReachableFrom ts g s → s ∈ reach) :
    (∃ r, runWaiting ts find labels q (reach.card + 1) g w = .returned r) ∧
      ∀ fuel, (runWaiting ts find labels q fuel g w).cfg.stats.visitedStates ≤
          (runWaiting ts find labels q fuel g w).cfg.graph.nodes.length ∧
        (runWaiting ts find labels q fuel g w).cfg.graph.nodes.length ≤ reach.card := by
  have hstep : ∀ c node c', GrowsBounded ts content g c → Step ts find labels q c node c' →
      GrowsBounded ts content g c' := fun _ _ _ hc hs => hc.step ts hq hF hs
  have hI : ∀ c, GrowsBounded ts content g c → Tidy content c ∧ c.graph.nodes.length ≤ reach.card :=
    fun _ hc => ⟨hc.tidy, hc.length_le ts hreach⟩
  have hstart : GrowsBounded ts content g ⟨g, w, Stats.init⟩ := ⟨hg.grows ts, hd⟩
  exact ⟨runFromWaiting_returns ts hq _ hstep hI hstart rfl,
    fun fuel => runFromWaiting_bounded ts hq _ hstep hI fuel hstart⟩

theorem run_waiting_terminates_counter :
    ∃ r, runWaiting (counter 2) findEq {0} fifo ((Finset.range 3).card + 1)
      ⟨[⟨1, false, false⟩], []⟩ [⟨0, 1⟩] = .returned r :=
  (run_waiting_terminates (counter 2) fifo_lawful findEq_fresh preseeded_one (by decide)
    (Finset.range 3) fun s ⟨x, hx, hxs⟩ => by
      rw [List.mem_singleton.mp hx] at hxs
      induction hxs with
      | refl => decide
      | tail _ h ih =>
        obtain ⟨⟨_, s', _⟩, hy, rfl⟩ := h
        simp only [counter, Finset.mem_range] at ih hy ⊢
        split_ifs at hy <;> simp at hy
        omega).1

end TChecker.Reach
