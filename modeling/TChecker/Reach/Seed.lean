import TChecker.Reach.Algorithm

namespace TChecker.Reach

open Graph

variable {St S T W : Type} (find : Graph.Find S T) (q : Waiting W (NodeSptr S))

theorem seedOne_cases (g : Graph S T) (w : W) (st : St) (s : S) (t : T) :
    (∃ i : Fin g.nodes.length, find g s = some i ∧
      seedOne find q (g, w) (st, s, t) = (g.setInitial ⟨i, (g.nodes.get i).state⟩, w)) ∨
    (find g s = none ∧
      seedOne find q (g, w) (st, s, t) =
        (⟨g.nodes ++ [⟨s, true, false⟩], g.edges⟩, q.insert w ⟨g.nodes.length, s⟩)) := by
  rcases addNode_cases find g s with ⟨i, hi, he⟩ | ⟨hn, he⟩
  · exact .inl ⟨i, hi, by simp [seedOne, he]⟩
  · exact .inr ⟨hn, by simp [seedOne, he, push_setInitial]⟩

@[simp] theorem seed_nil (g : Graph S T) (w : W) : seed find q g w ([] : List (St × S × T)) = (g, w) :=
  rfl

theorem seed_cons (g : Graph S T) (w : W) (x : St × S × T) (xs : List (St × S × T)) :
    seed find q g w (x :: xs) =
      seed find q (seedOne find q (g, w) x).1 (seedOne find q (g, w) x).2 xs := rfl

theorem seed_edges (g : Graph S T) (w : W) (xs : List (St × S × T)) :
    (seed find q g w xs).1.edges = g.edges := by
  induction xs generalizing g w with
  | nil => rfl
  | cons x xs ih =>
    obtain ⟨st, s, t⟩ := x
    rcases seedOne_cases find q g w st s t with ⟨i, -, he⟩ | ⟨-, he⟩ <;> simp [seed_cons, he, ih]

theorem seed_extends (g : Graph S T) (w : W) (xs : List (St × S × T)) :
    g.Extends (seed find q g w xs).1 := by
  induction xs generalizing g w with
  | nil => exact .refl g
  | cons x xs ih =>
    obtain ⟨st, s, t⟩ := x
    rw [seed_cons]
    rcases seedOne_cases find q g w st s t with ⟨i, -, he⟩ | ⟨-, he⟩ <;> rw [he] <;>
      refine Extends.trans ?_ (ih _ _)
    · exact g.extends_setInitial _
    · exact extends_of_append rfl (List.prefix_refl _)

theorem seed_states (g : Graph S T) (w : W) (xs : List (St × S × T)) :
    ∃ new : List S, (seed find q g w xs).1.nodes.map Node.state = g.nodes.map Node.state ++ new ∧
      ∀ s ∈ new, ∃ x ∈ xs, x.2.1 = s := by
  induction xs generalizing g w with
  | nil => exact ⟨[], by simp, by simp⟩
  | cons x xs ih =>
    obtain ⟨st, s, t⟩ := x
    rcases seedOne_cases find q g w st s t with ⟨i, -, he⟩ | ⟨-, he⟩
    · obtain ⟨new, hn, hm⟩ := ih (g.setInitial ⟨i, (g.nodes.get i).state⟩) w
      simp only [seed_cons, he]
      exact ⟨new, by rw [hn, setInitial_states],
        fun s' hs => (hm s' hs).imp fun x hx => ⟨List.mem_cons_of_mem _ hx.1, hx.2⟩⟩
    · obtain ⟨new, hn, hm⟩ := ih ⟨g.nodes ++ [⟨s, true, false⟩], g.edges⟩ (q.insert w ⟨g.nodes.length, s⟩)
      simp only [seed_cons, he]
      refine ⟨s :: new, by simpa using hn, ?_⟩
      rintro s' (_ | ⟨_, hs⟩)
      · exact ⟨_, List.mem_cons_self _ _, rfl⟩
      · exact (hm s' hs).imp fun x hx => ⟨List.mem_cons_of_mem _ hx.1, hx.2⟩

theorem seed_holds {g : Graph S T} {n : NodeSptr S} (h : g.Holds n) (w : W) (xs : List (St × S × T)) :
    (seed find q g w xs).1.Holds n :=
  let ⟨_, hn, _⟩ := seed_states find q g w xs
  h.of_append hn

theorem seed_flags (g : Graph S T) (w : W) (xs : List (St × S × T))
    (hg : ∀ x ∈ g.nodes, x.initial = true ∧ x.final = false) :
    ∀ x ∈ (seed find q g w xs).1.nodes, x.initial = true ∧ x.final = false := by
  induction xs generalizing g w with
  | nil => exact hg
  | cons x xs ih =>
    obtain ⟨st, s, t⟩ := x
    rcases seedOne_cases find q g w st s t with ⟨i, -, he⟩ | ⟨-, he⟩
    · simp only [seed_cons, he]
      refine ih _ _ fun x hx => ?_
      obtain ⟨y, hy, rfl | rfl⟩ := mem_setInitial hx
      · exact ⟨rfl, (hg y hy).2⟩
      · exact hg x hy
    · simp only [seed_cons, he]
      refine ih _ _ fun x hx => ?_
      rcases List.mem_append.mp hx with hx | hx
      · exact hg x hx
      · simp at hx; simp [hx]

theorem seed_waiting (content : W → Multiset (NodeSptr S))
    (hins : ∀ w e, content (q.insert w e) = e ::ₘ content w)
    (g : Graph S T) (w : W) (xs : List (St × S × T)) :
    ∃ hs : List (NodeSptr S), content (seed find q g w xs).2 = content w + ↑hs ∧
      hs.map NodeSptr.id = List.range' g.nodes.length hs.length ∧
      g.nodes.length + hs.length = (seed find q g w xs).1.nodes.length ∧
      ∀ h ∈ hs, (seed find q g w xs).1.Holds h := by
  induction xs generalizing g w with
  | nil => exact ⟨[], by simp, rfl, rfl, by simp⟩
  | cons x xs ih =>
    obtain ⟨st, s, t⟩ := x
    rcases seedOne_cases find q g w st s t with ⟨i, -, he⟩ | ⟨-, he⟩
    · obtain ⟨hs, hc, hid, hlen, hh⟩ := ih (g.setInitial ⟨i, (g.nodes.get i).state⟩) w
      simp only [seed_cons, he]
      exact ⟨hs, hc, by simpa using hid, by simpa using hlen, hh⟩
    · obtain ⟨hs, hc, hid, hlen, hh⟩ := ih ⟨g.nodes ++ [⟨s, true, false⟩], g.edges⟩
        (q.insert w ⟨g.nodes.length, s⟩)
      simp only [seed_cons, he] at hc hlen hh ⊢
      refine ⟨⟨g.nodes.length, s⟩ :: hs, by rw [hc, hins, ← Multiset.cons_coe, Multiset.add_cons, Multiset.cons_add], ?_, ?_, ?_⟩
      · simp only [List.map_cons, hid, List.length_cons, List.range'_succ]
        simp
      · simp only [List.length_append, List.length_singleton] at hlen
        simp only [List.length_cons]
        omega
      · rintro h (_ | ⟨_, hm⟩)
        · exact seed_holds find q (by simp [Holds, stateAt]) _ _
        · exact hh h hm

theorem seed_covers {R : S → S → Prop} (hR : ∀ s, R s s) (hI : Interns find R)
    (g : Graph S T) (w : W) (xs : List (St × S × T)) :
    ∀ x ∈ xs, ∃ s' ∈ (seed find q g w xs).1.nodes.map Node.state, R x.2.1 s' := by
  induction xs generalizing g w with
  | nil => simp
  | cons x xs ih =>
    obtain ⟨st, s, t⟩ := x
    rintro y (_ | ⟨_, hy⟩)
    · rcases seedOne_cases find q g w st s t with ⟨i, hi, he⟩ | ⟨-, he⟩
      · obtain ⟨new, hn, -⟩ := seed_states find q (g.setInitial ⟨i, (g.nodes.get i).state⟩) w xs
        simp only [seed_cons, he, hn, setInitial_states]
        exact ⟨_, List.mem_append_left _ (List.mem_map_of_mem _ (List.get_mem _ _ _)), hI _ _ _ hi⟩
      · obtain ⟨new, hn, -⟩ := seed_states find q ⟨g.nodes ++ [⟨s, true, false⟩], g.edges⟩
          (q.insert w ⟨g.nodes.length, s⟩) xs
        simp only [seed_cons, he, hn]
        exact ⟨s, by simp, hR s⟩
    · rw [seed_cons]
      exact ih _ _ y hy

theorem seed_pairwise {R : S → S → Prop} (hU : Uncovered find R) (g : Graph S T) (w : W)
    (xs : List (St × S × T)) (hd : (g.nodes.map Node.state).Pairwise fun a b => ¬ R b a) :
    ((seed find q g w xs).1.nodes.map Node.state).Pairwise fun a b => ¬ R b a := by
  induction xs generalizing g w with
  | nil => exact hd
  | cons x xs ih =>
    obtain ⟨st, s, t⟩ := x
    rw [seed_cons]
    refine ih _ _ ?_
    rcases seedOne_cases find q g w st s t with ⟨i, -, he⟩ | ⟨hn, he⟩ <;> rw [he]
    · simpa using hd
    · exact pairwise_append_state hd (hU g s hn)

theorem seed_nodup (hF : Fresh find) (g : Graph S T) (w : W) (xs : List (St × S × T))
    (hd : (g.nodes.map Node.state).Nodup) : ((seed find q g w xs).1.nodes.map Node.state).Nodup :=
  (seed_pairwise find q hF.uncovered g w xs (hd.imp Ne.symm)).imp Ne.symm

theorem seedOne_initial_flags {R : S → S → Prop} (hR : ∀ s, R s s) (hI : Interns find R)
    (g : Graph S T) (w : W) (st : St) (s : S) (t : T) :
    (∃ x ∈ (seedOne find q (g, w) (st, s, t)).1.nodes, x.initial = true ∧ R s x.state) ∧
      ∀ x ∈ (seedOne find q (g, w) (st, s, t)).1.nodes, x.initial = true →
        (∃ x₀ ∈ g.nodes, x₀.initial = true ∧ x₀.state = x.state) ∨ R s x.state := by
  rcases seedOne_cases find q g w st s t with ⟨i, hi, he⟩ | ⟨-, he⟩ <;> rw [he]
  · refine ⟨⟨_, mem_setInitial_self i.2, rfl, by simpa using hI _ _ _ hi⟩, fun x hx hxi => ?_⟩
    rcases mem_setInitial_cases i.2 hx with hx | rfl
    · exact .inl ⟨x, hx, hxi, rfl⟩
    · exact .inr (by simpa using hI _ _ _ hi)
  · refine ⟨⟨_, List.mem_append_right _ (List.mem_singleton_self _), rfl, hR s⟩, fun x hx hxi => ?_⟩
    rcases List.mem_append.mp hx with hx | hx
    · exact .inl ⟨x, hx, hxi, rfl⟩
    · rw [List.mem_singleton.mp hx]
      exact .inr (hR s)

theorem seed_initial_flags {R : S → S → Prop} (hR : ∀ s, R s s) (hI : Interns find R)
    (g : Graph S T) (w : W) (xs : List (St × S × T)) :
    (∀ y ∈ xs, ∃ x ∈ (seed find q g w xs).1.nodes, x.initial = true ∧ R y.2.1 x.state) ∧
      ∀ x ∈ (seed find q g w xs).1.nodes, x.initial = true →
        (∃ x₀ ∈ g.nodes, x₀.initial = true ∧ x₀.state = x.state) ∨ ∃ y ∈ xs, R y.2.1 x.state := by
  induction xs generalizing g w with
  | nil => exact ⟨by simp, fun x hx hi => .inl ⟨x, hx, hi, rfl⟩⟩
  | cons y xs ih =>
    obtain ⟨st, s, t⟩ := y
    obtain ⟨⟨x, hx, hxi, hxs⟩, hback⟩ := seedOne_initial_flags find q hR hI g w st s t
    obtain ⟨h₁, h₂⟩ := ih (seedOne find q (g, w) (st, s, t)).1 (seedOne find q (g, w) (st, s, t)).2
    rw [seed_cons]
    refine ⟨?_, fun x' hx' hxi' => ?_⟩
    · rintro y (_ | ⟨_, hy⟩)
      · obtain ⟨x', hx', hxi', hs'⟩ := (seed_extends find q _ _ xs).initial_mem hx hxi
        exact ⟨x', hx', hxi', hs' ▸ hxs⟩
      · exact h₁ y hy
    · rcases h₂ x' hx' hxi' with ⟨x₁, hx₁, hxi₁, hs₁⟩ | ⟨y, hy, hr⟩
      · rcases hback x₁ hx₁ hxi₁ with ⟨x₀, hx₀, hxi₀, hs₀⟩ | hr
        · exact .inl ⟨x₀, hx₀, hxi₀, hs₀.trans hs₁⟩
        · exact .inr ⟨_, List.mem_cons_self _ _, hs₁ ▸ hr⟩
      · exact .inr ⟨y, List.mem_cons_of_mem _ hy, hr⟩

end TChecker.Reach
