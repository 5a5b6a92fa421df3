import TChecker.Reach.Seed

namespace TChecker.Reach

open Graph

variable {St S T W : Type} (find : Graph.Find S T) (q : Waiting W (NodeSptr S))

theorem expandOne_cases (node : NodeSptr S) (c : Cfg S T W) (st : St) (s : S) (t : T) :
    (∃ i : Fin c.graph.nodes.length, find c.graph s = some i ∧
      expandOne find q node c (st, s, t) =
        ⟨c.graph.addEdge node ⟨i, (c.graph.nodes.get i).state⟩ t, c.waiting,
          { c.stats with visitedTransitions := c.stats.visitedTransitions + 1 }⟩) ∨
    (find c.graph s = none ∧
      expandOne find q node c (st, s, t) =
        ⟨(c.graph.push s).addEdge node ⟨c.graph.nodes.length, s⟩ t,
          q.insert c.waiting ⟨c.graph.nodes.length, s⟩,
          { c.stats with visitedTransitions := c.stats.visitedTransitions + 1 }⟩) := by
  rcases addNode_cases find c.graph s with ⟨i, hi, he⟩ | ⟨hn, he⟩
  · exact .inl ⟨i, hi, by simp [expandOne, he]⟩
  · exact .inr ⟨hn, by simp [expandOne, he]⟩

@[simp] theorem expand_nil (node : NodeSptr S) (c : Cfg S T W) :
    expand find q node c ([] : List (St × S × T)) = c := rfl

theorem expand_cons (node : NodeSptr S) (c : Cfg S T W) (x : St × S × T) (xs : List (St × S × T)) :
    expand find q node c (x :: xs) = expand find q node (expandOne find q node c x) xs := rfl

theorem expand_nodes (node : NodeSptr S) (c : Cfg S T W) (xs : List (St × S × T)) :
    ∃ new : List S, (expand find q node c xs).graph.nodes =
        c.graph.nodes ++ new.map (fun s => ⟨s, false, false⟩) ∧ ∀ s ∈ new, ∃ x ∈ xs, x.2.1 = s := by
  induction xs generalizing c with
  | nil => exact ⟨[], by simp, by simp⟩
  | cons x xs ih =>
    obtain ⟨st, s, t⟩ := x
    obtain ⟨new, hn, hm⟩ := ih (expandOne find q node c (st, s, t))
    have hm' : ∀ s' ∈ new, ∃ x ∈ (st, s, t) :: xs, x.2.1 = s' :=
      fun s' hs => (hm s' hs).imp fun x hx => ⟨List.mem_cons_of_mem _ hx.1, hx.2⟩
    rw [expand_cons, hn]
    rcases expandOne_cases find q node c st s t with ⟨i, -, he⟩ | ⟨-, he⟩ <;> rw [he]
    · exact ⟨new, rfl, hm'⟩
    · refine ⟨s :: new, by simp, ?_⟩
      rintro s' (_ | ⟨_, hs⟩)
      · exact ⟨_, List.mem_cons_self _ _, rfl⟩
      · exact hm' s' hs

theorem expand_states (node : NodeSptr S) (c : Cfg S T W) (xs : List (St × S × T)) :
    ∃ new : List S, (expand find q node c xs).graph.nodes.map Node.state =
      c.graph.nodes.map Node.state ++ new :=
  let ⟨new, hn, _⟩ := expand_nodes find q node c xs
  ⟨new, by simp [hn, Function.comp_def]⟩

theorem expand_holds {c : Cfg S T W} {n : NodeSptr S} (h : c.graph.Holds n) (node : NodeSptr S)
    (xs : List (St × S × T)) : (expand find q node c xs).graph.Holds n :=
  let ⟨_, hn⟩ := expand_states find q node c xs
  h.of_append hn

theorem expand_edges {R : S → S → Prop} (hR : ∀ s, R s s) (hI : Interns find R)
    (node : NodeSptr S) (c : Cfg S T W) (xs : List (St × S × T)) :
    ∃ es : List (Edge S T), (expand find q node c xs).graph.edges = c.graph.edges ++ es ∧
      List.Forall₂ (fun x e => e.src = node ∧ e.transition = x.2.2 ∧
        (expand find q node c xs).graph.Holds e.tgt ∧ R x.2.1 e.tgt.state) xs es := by
  induction xs generalizing c with
  | nil => exact ⟨[], by simp, .nil⟩
  | cons x xs ih =>
    obtain ⟨st, s, t⟩ := x
    obtain ⟨es, hes, hf⟩ := ih (expandOne find q node c (st, s, t))
    rw [expand_cons, hes]
    rcases expandOne_cases find q node c st s t with ⟨i, hi, he⟩ | ⟨-, he⟩
    · refine ⟨⟨node, ⟨i, (c.graph.nodes.get i).state⟩, t⟩ :: es, by rw [he]; simp,
        .cons ⟨rfl, rfl, ?_, hI _ _ _ hi⟩ hf⟩
      exact expand_holds find q (by rw [he]; exact holds_get c.graph i) node xs
    · refine ⟨⟨node, ⟨c.graph.nodes.length, s⟩, t⟩ :: es, by rw [he]; simp,
        .cons ⟨rfl, rfl, ?_, hR s⟩ hf⟩
      exact expand_holds find q (by rw [he]; exact holds_push_self c.graph s) node xs

theorem forall₂_mem_right {α β : Type} {R : α → β → Prop} {l₁ : List α} {l₂ : List β}
    (h : List.Forall₂ R l₁ l₂) {b : β} (hb : b ∈ l₂) : ∃ a ∈ l₁, R a b := by
  induction h with
  | nil => cases hb
  | cons hr _ ih =>
    rcases List.mem_cons.mp hb with rfl | hb
    · exact ⟨_, List.mem_cons_self _ _, hr⟩
    · obtain ⟨a, ha, h⟩ := ih hb
      exact ⟨a, List.mem_cons_of_mem _ ha, h⟩

theorem forall₂_mem_left {α β : Type} {R : α → β → Prop} {l₁ : List α} {l₂ : List β}
    (h : List.Forall₂ R l₁ l₂) {a : α} (ha : a ∈ l₁) : ∃ b ∈ l₂, R a b :=
  forall₂_mem_right (List.Forall₂.flip h : List.Forall₂ (flip R) l₂ l₁) ha

theorem expand_stats (node : NodeSptr S) (c : Cfg S T W) (xs : List (St × S × T)) :
    (expand find q node c xs).stats =
      { c.stats with visitedTransitions := c.stats.visitedTransitions + xs.length } := by
  induction xs generalizing c with
  | nil => rfl
  | cons x xs ih =>
    obtain ⟨st, s, t⟩ := x
    rw [expand_cons, ih]
    rcases expandOne_cases find q node c st s t with ⟨i, -, he⟩ | ⟨-, he⟩ <;>
      simp [he, Nat.add_assoc, Nat.add_comm 1]

theorem expand_waiting (content : W → Multiset (NodeSptr S))
    (hins : ∀ w e, content (q.insert w e) = e ::ₘ content w)
    (node : NodeSptr S) (c : Cfg S T W) (xs : List (St × S × T)) :
    ∃ hs : List (NodeSptr S), content (expand find q node c xs).waiting = content c.waiting + ↑hs ∧
      hs.map NodeSptr.id = List.range' c.graph.nodes.length hs.length ∧
      c.graph.nodes.length + hs.length = (expand find q node c xs).graph.nodes.length ∧
      ∀ h ∈ hs, (expand find q node c xs).graph.Holds h := by
  induction xs generalizing c with
  | nil => exact ⟨[], by simp, rfl, rfl, by simp⟩
  | cons x xs ih =>
    obtain ⟨st, s, t⟩ := x
    rw [expand_cons]
    rcases expandOne_cases find q node c st s t with ⟨i, -, he⟩ | ⟨-, he⟩ <;> rw [he] <;>
      obtain ⟨hs, hc, hid, hlen, hh⟩ := ih _
    · exact ⟨hs, hc, by simpa using hid, by simpa using hlen, hh⟩
    · refine ⟨⟨c.graph.nodes.length, s⟩ :: hs,
        by rw [hc, hins, ← Multiset.cons_coe, Multiset.add_cons, Multiset.cons_add], ?_, ?_, ?_⟩
      · simp only [List.map_cons, hid, List.length_cons, List.range'_succ]
        simp
      · simp only [addEdge_nodes, push_nodes, List.length_append, List.length_singleton] at hlen
        simp only [List.length_cons]
        omega
      · rintro h (_ | ⟨_, hm⟩)
        · exact expand_holds find q (holds_push_self c.graph s) node xs
        · exact hh h hm

theorem expand_linked (node : NodeSptr S) (c : Cfg S T W) (xs : List (St × S × T)) :
    ∀ j, c.graph.nodes.length ≤ j → j < (expand find q node c xs).graph.nodes.length →
      ∃ e ∈ (expand find q node c xs).graph.edges, e.src = node ∧ e.tgt.id = j := by
  induction xs generalizing c with
  | nil => intro j hj hj'; simp at hj'; omega
  | cons x xs ih =>
    obtain ⟨st, s, t⟩ := x
    intro j hj hj'
    rw [expand_cons] at hj' ⊢
    rcases expandOne_cases find q node c st s t with ⟨i, -, he⟩ | ⟨-, he⟩
    · exact ih _ j (by rw [he]; exact hj) hj'
    · rcases Nat.eq_or_lt_of_le hj with rfl | hj
      · obtain ⟨es, hes, -⟩ := expand_edges find q (fun _ => trivial) (interns_true find) node
          (expandOne find q node c (st, s, t)) xs
        exact ⟨⟨node, ⟨c.graph.nodes.length, s⟩, t⟩, by rw [hes, he]; simp, rfl, rfl⟩
      · exact ih _ j (by rw [he]; simpa using hj) hj'

theorem expand_pairwise {R : S → S → Prop} (hU : Uncovered find R) (node : NodeSptr S)
    (c : Cfg S T W) (xs : List (St × S × T))
    (hd : (c.graph.nodes.map Node.state).Pairwise fun a b => ¬ R b a) :
    ((expand find q node c xs).graph.nodes.map Node.state).Pairwise fun a b => ¬ R b a := by
  induction xs generalizing c with
  | nil => exact hd
  | cons x xs ih =>
    obtain ⟨st, s, t⟩ := x
    rw [expand_cons]
    refine ih _ ?_
    rcases expandOne_cases find q node c st s t with ⟨i, -, he⟩ | ⟨hn, he⟩ <;> rw [he]
    · exact hd
    · rw [addEdge_nodes, push_nodes]
      exact pairwise_append_state hd (hU c.graph s hn)

theorem expand_nodup (hF : Fresh find) (node : NodeSptr S) (c : Cfg S T W) (xs : List (St × S × T))
    (hd : (c.graph.nodes.map Node.state).Nodup) :
    ((expand find q node c xs).graph.nodes.map Node.state).Nodup :=
  (expand_pairwise find q hF.uncovered node c xs (hd.imp Ne.symm)).imp Ne.symm

theorem expand_extends (node : NodeSptr S) (c : Cfg S T W) (xs : List (St × S × T)) :
    c.graph.Extends (expand find q node c xs).graph := by
  induction xs generalizing c with
  | nil => exact .refl _
  | cons x xs ih =>
    obtain ⟨st, s, t⟩ := x
    rw [expand_cons]
    refine Extends.trans ?_ (ih _)
    simp only [expandOne]
    exact (c.graph.extends_addNode find s).trans (extends_addEdge _ _ _ _)

variable {ts : Ts St S T} {labels : Finset Nat} {content : W → Multiset (NodeSptr S)}

structure Pass (ts : Ts St S T) (labels : Finset Nat) (content : W → Multiset (NodeSptr S))
    (R : S → S → Prop) (c : Cfg S T W) (node : NodeSptr S) (c' : Cfg S T W) (new : List S)
    (es : List (Edge S T)) (hs : List (NodeSptr S)) : Prop where
  first : node = q.first c.waiting
  not_accepting : accepting ts labels node.state = false
  pop : content c.waiting = node ::ₘ content (q.removeFirst c.waiting)
  nodes : c'.graph.nodes = c.graph.nodes ++ new.map (fun s => ⟨s, false, false⟩)
  new_succ : ∀ s ∈ new, ∃ x ∈ ts.next node.state, x.2.1 = s
  edges : c'.graph.edges = c.graph.edges ++ es
  edges_next : List.Forall₂ (fun x e => e.src = node ∧ e.transition = x.2.2 ∧ c'.graph.Holds e.tgt ∧
    R x.2.1 e.tgt.state) (ts.next node.state) es
  waiting : content c'.waiting = content (q.removeFirst c.waiting) + ↑hs
  ids : hs.map NodeSptr.id = List.range' c.graph.nodes.length hs.length
  length : c.graph.nodes.length + hs.length = c'.graph.nodes.length
  holds : ∀ h ∈ hs, c'.graph.Holds h
  linked : ∀ j, c.graph.nodes.length ≤ j → j < c'.graph.nodes.length →
    ∃ e ∈ c'.graph.edges, e.src = node ∧ e.tgt.id = j
  stats : c'.stats = ⟨c.stats.visitedStates + 1,
    c.stats.visitedTransitions + (ts.next node.state).length, c.stats.reachable⟩

theorem Step.spec (hq : q.Lawful content) {R : S → S → Prop} (hR : ∀ s, R s s) (hI : Interns find R)
    {c c' : Cfg S T W} {node : NodeSptr S} (hs : Step ts find labels q c node c') :
    ∃ new es hs, Pass q ts labels content R c node c' new es hs := by
  obtain ⟨he, rfl, hacc, rfl⟩ := hs
  obtain ⟨new, hn, hm⟩ := expand_nodes find q (q.first c.waiting) (pop q c) (ts.next (q.first c.waiting).state)
  obtain ⟨es, hes, hf⟩ := expand_edges find q hR hI (q.first c.waiting) (pop q c)
    (ts.next (q.first c.waiting).state)
  obtain ⟨hs, hw, hid, hlen, hh⟩ := expand_waiting find q content hq.insert (q.first c.waiting) (pop q c)
    (ts.next (q.first c.waiting).state)
  exact ⟨new, es, hs, rfl, hacc, hq.first_cons _ he, hn, hm, hes, hf, hw, hid, hlen, hh,
    expand_linked find q _ (pop q c) _, by rw [expand_stats]; rfl⟩

theorem Step.nodup (hF : Fresh find) {c c' : Cfg S T W} {node : NodeSptr S}
    (hs : Step ts find labels q c node c') (hd : (c.graph.nodes.map Node.state).Nodup) :
    (c'.graph.nodes.map Node.state).Nodup := by
  rw [hs.2.2.2]
  exact expand_nodup find q hF node _ _ hd

theorem Step.extends {c c' : Cfg S T W} {node : NodeSptr S} (hs : Step ts find labels q c node c') :
    c.graph.Extends c'.graph := by
  obtain ⟨-, -, -, rfl⟩ := hs
  exact expand_extends find q node (pop q c) _

theorem Exit.extends {c r : Cfg S T W} (hx : Exit ts labels q c r) : c.graph.Extends r.graph := by
  rcases hx with ⟨-, rfl⟩ | ⟨-, -, rfl⟩
  exacts [.refl _, extends_setFinal _ _]

end TChecker.Reach
