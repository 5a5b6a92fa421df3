import Mathlib.Data.Fin.Tuple.Basic
import Mathlib.Logic.Relation
import TChecker.Reach.System

namespace TChecker.Reach

structure Node (S : Type) where
  state : S
  initial : Bool
  final : Bool
  deriving DecidableEq

def Node.Raises {S : Type} (x x' : Node S) : Prop :=
  x'.state = x.state ∧ (x.initial = true → x'.initial = true) ∧ (x.final = true → x'.final = true)

theorem Node.Raises.refl {S : Type} (x : Node S) : x.Raises x := ⟨rfl, id, id⟩

theorem Node.Raises.trans {S : Type} {x x' x'' : Node S} (h : x.Raises x') (h' : x'.Raises x'') :
    x.Raises x'' :=
  ⟨h'.1.trans h.1, h'.2.1 ∘ h.2.1, h'.2.2 ∘ h.2.2⟩

structure NodeSptr (S : Type) where
  id : Nat
  state : S
  deriving DecidableEq, Inhabited

structure Edge (S T : Type) where
  src : NodeSptr S
  tgt : NodeSptr S
  transition : T
  deriving DecidableEq

structure Graph (S T : Type) where
  nodes : List (Node S)
  edges : List (Edge S T)
  deriving DecidableEq

namespace Graph

variable {S T : Type}

def empty : Graph S T := ⟨[], []⟩

@[simp] theorem empty_nodes : (empty : Graph S T).nodes = [] := rfl

@[simp] theorem empty_edges : (empty : Graph S T).edges = [] := rfl

abbrev Find (S T : Type) := (g : Graph S T) → S → Option (Fin g.nodes.length)

def push (g : Graph S T) (s : S) : Graph S T := ⟨g.nodes ++ [⟨s, false, false⟩], g.edges⟩

def addNode (find : Find S T) (g : Graph S T) (s : S) : Bool × NodeSptr S × Graph S T :=
  match find g s with
  | some i => (false, ⟨i, (g.nodes.get i).state⟩, g)
  | none => (true, ⟨g.nodes.length, s⟩, g.push s)

def addEdge (g : Graph S T) (src tgt : NodeSptr S) (t : T) : Graph S T :=
  ⟨g.nodes, g.edges ++ [⟨src, tgt, t⟩]⟩

def setInitial (g : Graph S T) (n : NodeSptr S) : Graph S T :=
  ⟨g.nodes.modify (fun x => { x with initial := true }) n.id, g.edges⟩

def setFinal (g : Graph S T) (n : NodeSptr S) : Graph S T :=
  ⟨g.nodes.modify (fun x => { x with final := true }) n.id, g.edges⟩

def Interns (find : Find S T) (R : S → S → Prop) : Prop :=
  ∀ g s i, find g s = some i → R s (g.nodes.get i).state

def Fresh (find : Find S T) : Prop := ∀ g s, find g s = none → ∀ x ∈ g.nodes, x.state ≠ s

def Uncovered (find : Find S T) (R : S → S → Prop) : Prop :=
  ∀ g s, find g s = none → ∀ x ∈ g.nodes, ¬ R s x.state

theorem Fresh.uncovered {find : Find S T} (hF : Fresh find) : Uncovered find Eq :=
  fun g s h x hx hxs => hF g s h x hx hxs.symm

theorem interns_true (find : Find S T) : Interns find fun _ _ => True := fun _ _ _ _ => trivial

/-- Modelled from the spec: a graph that interns by state equality (the graph classes are not in
src) has `add_node(s)` return the first node that holds `s`. -/
def findEq [DecidableEq S] : Find S T := fun g s => Fin.find fun i => (g.nodes.get i).state = s

theorem findEq_interns [DecidableEq S] : Interns (findEq : Find S T) Eq :=
  fun _ _ _ h => (Fin.find_spec _ h).symm

theorem findEq_fresh [DecidableEq S] : Fresh (findEq : Find S T) := fun g _ h x hx hxs => by
  obtain ⟨i, rfl⟩ := List.get_of_mem hx
  exact Fin.find_eq_none_iff.mp h i hxs

/-- Modelled from the spec: a graph that interns by an inclusion `≤` coarser than equality has
`add_node(s)` return the first node whose state includes `s`. -/
def findLe [LE S] [DecidableRel (· ≤ · : S → S → Prop)] : Find S T :=
  fun g s => Fin.find fun i => s ≤ (g.nodes.get i).state

theorem findLe_interns [LE S] [DecidableRel (· ≤ · : S → S → Prop)] : Interns (findLe : Find S T) (· ≤ ·) :=
  fun _ _ _ h => Fin.find_spec _ h

theorem findLe_uncovered [LE S] [DecidableRel (· ≤ · : S → S → Prop)] :
    Uncovered (findLe : Find S T) (· ≤ ·) := fun g _ h x hx hle => by
  obtain ⟨i, rfl⟩ := List.get_of_mem hx
  exact Fin.find_eq_none_iff.mp h i hle

def stateAt (g : Graph S T) (i : Nat) : Option S := g.nodes[i]?.map Node.state

def Holds (g : Graph S T) (n : NodeSptr S) : Prop := g.stateAt n.id = some n.state

def Linked (g : Graph S T) (i j : Nat) : Prop := ∃ e ∈ g.edges, e.src.id = i ∧ e.tgt.id = j

def out (g : Graph S T) (i : Nat) : List (Edge S T) := g.edges.filter fun e => e.src.id == i

def Rooted (g : Graph S T) (i : Nat) : Prop :=
  ∃ j, g.nodes[j]?.map Node.initial = some true ∧ Relation.ReflTransGen g.Linked j i

@[simp] theorem push_nodes (g : Graph S T) (s : S) :
    (g.push s).nodes = g.nodes ++ [⟨s, false, false⟩] := rfl

@[simp] theorem push_edges (g : Graph S T) (s : S) : (g.push s).edges = g.edges := rfl

@[simp] theorem addEdge_nodes (g : Graph S T) (a b : NodeSptr S) (t : T) :
    (g.addEdge a b t).nodes = g.nodes := rfl

@[simp] theorem addEdge_edges (g : Graph S T) (a b : NodeSptr S) (t : T) :
    (g.addEdge a b t).edges = g.edges ++ [⟨a, b, t⟩] := rfl

@[simp] theorem setInitial_edges (g : Graph S T) (n : NodeSptr S) :
    (g.setInitial n).edges = g.edges := rfl

@[simp] theorem setFinal_edges (g : Graph S T) (n : NodeSptr S) :
    (g.setFinal n).edges = g.edges := rfl

@[simp] theorem length_setInitial (g : Graph S T) (n : NodeSptr S) :
    (g.setInitial n).nodes.length = g.nodes.length := List.length_modify _ _ _

@[simp] theorem length_setFinal (g : Graph S T) (n : NodeSptr S) :
    (g.setFinal n).nodes.length = g.nodes.length := List.length_modify _ _ _

@[simp] theorem stateAt_setInitial (g : Graph S T) (n : NodeSptr S) (i : Nat) :
    (g.setInitial n).stateAt i = g.stateAt i := by
  simp only [stateAt, setInitial, List.getElem?_modify]
  cases g.nodes[i]? <;> simp; split_ifs <;> rfl

@[simp] theorem stateAt_setFinal (g : Graph S T) (n : NodeSptr S) (i : Nat) :
    (g.setFinal n).stateAt i = g.stateAt i := by
  simp only [stateAt, setFinal, List.getElem?_modify]
  cases g.nodes[i]? <;> simp; split_ifs <;> rfl

@[simp] theorem stateAt_addEdge (g : Graph S T) (a b : NodeSptr S) (t : T) (i : Nat) :
    (g.addEdge a b t).stateAt i = g.stateAt i := rfl

theorem stateAt_push (g : Graph S T) (s : S) (i : Nat) :
    (g.push s).stateAt i =
      if i < g.nodes.length then g.stateAt i else if i = g.nodes.length then some s else none := by
  simp only [stateAt, push_nodes]
  split_ifs with h₁ h₂
  · rw [List.getElem?_append_left h₁]
  · subst h₂; simp
  · rw [List.getElem?_append_right (by omega)]
    rw [List.getElem?_eq_none (by simp; omega)]
    rfl

theorem Holds.push {g : Graph S T} {n : NodeSptr S} (h : g.Holds n) (s : S) : (g.push s).Holds n := by
  have hlt : n.id < g.nodes.length := by
    by_contra hc
    simp [Holds, stateAt, List.getElem?_eq_none (Nat.le_of_not_lt hc)] at h
  simpa [Holds, stateAt_push, hlt] using h

theorem holds_push_self (g : Graph S T) (s : S) : (g.push s).Holds ⟨g.nodes.length, s⟩ := by
  simp [Holds, stateAt_push]

theorem holds_get (g : Graph S T) (i : Fin g.nodes.length) : g.Holds ⟨i, (g.nodes.get i).state⟩ := by
  simp [Holds, stateAt]

theorem Holds.lt_length {g : Graph S T} {n : NodeSptr S} (h : g.Holds n) : n.id < g.nodes.length := by
  by_contra hc
  simp [Holds, stateAt, List.getElem?_eq_none (Nat.le_of_not_lt hc)] at h

theorem stateAt_eq (g : Graph S T) (i : Nat) : g.stateAt i = (g.nodes.map Node.state)[i]? := by
  simp [stateAt]

theorem Holds.of_append {g g' : Graph S T} {n : NodeSptr S} (h : g.Holds n) {l : List S}
    (hg : g'.nodes.map Node.state = g.nodes.map Node.state ++ l) : g'.Holds n := by
  have hlt : n.id < (g.nodes.map Node.state).length := by simpa using h.lt_length
  rw [Holds, stateAt_eq, hg, List.getElem?_append_left hlt, ← stateAt_eq]
  exact h

theorem mem_modify {f : Node S → Node S} {k : Nat} {l : List (Node S)} {x : Node S}
    (h : x ∈ l.modify f k) : ∃ y ∈ l, x = f y ∨ x = y := by
  obtain ⟨i, hi⟩ := List.mem_iff_getElem?.mp h
  rw [List.getElem?_modify] at hi
  cases hy : l[i]? with
  | none => simp [hy] at hi
  | some y =>
    simp only [hy, Option.map_eq_map, Option.map_some', Option.some.injEq] at hi
    exact ⟨y, List.getElem?_mem hy, by split_ifs at hi <;> simp [← hi]⟩

theorem mem_setInitial {g : Graph S T} {n : NodeSptr S} {x : Node S} (h : x ∈ (g.setInitial n).nodes) :
    ∃ y ∈ g.nodes, x = { y with initial := true } ∨ x = y := mem_modify h

theorem mem_setFinal {g : Graph S T} {n : NodeSptr S} {x : Node S} (h : x ∈ (g.setFinal n).nodes) :
    ∃ y ∈ g.nodes, x = { y with final := true } ∨ x = y := mem_modify h

@[simp] theorem setInitial_states (g : Graph S T) (n : NodeSptr S) :
    (g.setInitial n).nodes.map Node.state = g.nodes.map Node.state := by
  refine List.ext_getElem? fun i => ?_
  simpa [stateAt] using stateAt_setInitial g n i

@[simp] theorem setFinal_states (g : Graph S T) (n : NodeSptr S) :
    (g.setFinal n).nodes.map Node.state = g.nodes.map Node.state := by
  refine List.ext_getElem? fun i => ?_
  simpa [stateAt] using stateAt_setFinal g n i

theorem push_setInitial (g : Graph S T) (s : S) :
    (g.push s).setInitial ⟨g.nodes.length, s⟩ = ⟨g.nodes ++ [⟨s, true, false⟩], g.edges⟩ := by
  simp only [setInitial, push_nodes, push_edges, Graph.mk.injEq, and_true]
  refine List.ext_getElem? fun i => ?_
  rw [List.getElem?_modify]
  rcases Nat.lt_trichotomy i g.nodes.length with h | rfl | h
  · simp [List.getElem?_append_left h, Nat.ne_of_gt h]
  · simp
  · rw [List.getElem?_eq_none (by simp; omega), List.getElem?_eq_none (by simp; omega)]
    rfl

theorem Holds.mem {g : Graph S T} {n : NodeSptr S} (h : g.Holds n) : ∃ x ∈ g.nodes, x.state = n.state :=
  let ⟨x, hx, hxs⟩ := Option.map_eq_some'.mp (h : g.nodes[n.id]?.map Node.state = some n.state)
  ⟨x, List.getElem?_mem hx, hxs⟩

theorem Holds.state_mem {g : Graph S T} {n : NodeSptr S} (h : g.Holds n) :
    n.state ∈ g.nodes.map Node.state :=
  List.getElem?_mem (by rw [← stateAt_eq]; exact h)

theorem Holds.state_eq {g : Graph S T} {n : NodeSptr S} (h : g.Holds n) {x : Node S}
    (hx : g.nodes[n.id]? = some x) : x.state = n.state := by
  simpa [Holds, stateAt, hx] using h

theorem Rooted.mono {g g' : Graph S T} {i : Nat} (h : g.Rooted i)
    (hn : ∀ j : Nat, g.nodes[j]?.map Node.initial = some true →
      g'.nodes[j]?.map Node.initial = some true)
    (he : g.edges ⊆ g'.edges) : g'.Rooted i := by
  obtain ⟨j, hj, hr⟩ := h
  exact ⟨j, hn j hj, hr.mono fun _ _ ⟨e, hm, h₁, h₂⟩ => ⟨e, he hm, h₁, h₂⟩⟩

theorem Rooted.of_append {g g' : Graph S T} {i : Nat} (h : g.Rooted i) {l : List (Node S)}
    (hn : g'.nodes = g.nodes ++ l) {es : List (Edge S T)} (he : g'.edges = g.edges ++ es) :
    g'.Rooted i := by
  refine h.mono (fun j hj => ?_) (he ▸ List.subset_append_left _ _)
  have hlt : j < g.nodes.length := by
    by_contra hge
    rw [List.getElem?_eq_none (by omega)] at hj
    cases hj
  rwa [hn, List.getElem?_append_left hlt]

theorem initial_setFinal (g : Graph S T) (n : NodeSptr S) (j : Nat) :
    (g.setFinal n).nodes[j]?.map Node.initial = g.nodes[j]?.map Node.initial := by
  simp only [setFinal, List.getElem?_modify]
  split_ifs <;> cases g.nodes[j]? <;> rfl

theorem Rooted.setFinal {g : Graph S T} {i : Nat} (h : g.Rooted i) (n : NodeSptr S) :
    (g.setFinal n).Rooted i :=
  h.mono (fun j hj => by rwa [initial_setFinal]) (List.Subset.refl _)

theorem countP_final_setFinal {g : Graph S T} {n : NodeSptr S} (hf : ∀ x ∈ g.nodes, x.final = false)
    (h : n.id < g.nodes.length) : (g.setFinal n).nodes.countP Node.final = 1 := by
  have h₀ : ∀ l : List (Node S), (∀ x ∈ l, x ∈ g.nodes) → l.countP Node.final = 0 :=
    fun l hl => List.countP_eq_zero.mpr fun x hx => by simp [hf x (hl x hx)]
  simp only [setFinal, List.modify_eq_take_cons_drop h, List.countP_append, List.countP_cons,
    h₀ _ fun x => List.mem_of_mem_take, h₀ _ fun x => List.mem_of_mem_drop]
  rfl

theorem state_of_final_setFinal {g : Graph S T} {n : NodeSptr S} (hf : ∀ x ∈ g.nodes, x.final = false)
    (h : g.Holds n) {x : Node S} (hx : x ∈ (g.setFinal n).nodes) (hfx : x.final = true) :
    x.state = n.state := by
  have hlt := h.lt_length
  simp only [setFinal, List.modify_eq_take_cons_drop hlt, List.mem_append, List.mem_cons] at hx
  rcases hx with hx | rfl | hx
  · rw [hf x (List.mem_of_mem_take hx)] at hfx; cases hfx
  · simpa [Holds, stateAt, List.getElem?_eq_getElem hlt] using h
  · rw [hf x (List.mem_of_mem_drop hx)] at hfx; cases hfx

theorem out_append {g g' : Graph S T} {es : List (Edge S T)} (he : g'.edges = g.edges ++ es) (i : Nat) :
    g'.out i = g.out i ++ es.filter fun e => e.src.id == i := by
  simp only [out, he, List.filter_append]

theorem out_eq_nil {g : Graph S T} {i : Nat} (h : ∀ e ∈ g.edges, e.src.id ≠ i) : g.out i = [] := by
  simpa [out, List.filter_eq_nil_iff] using h

theorem mem_setInitial_self {g : Graph S T} {n : NodeSptr S} (h : n.id < g.nodes.length) :
    { g.nodes[n.id] with initial := true } ∈ (g.setInitial n).nodes := by
  simp [setInitial, List.modify_eq_take_cons_drop h]

theorem mem_setInitial_cases {g : Graph S T} {n : NodeSptr S} (h : n.id < g.nodes.length)
    {x : Node S} (hx : x ∈ (g.setInitial n).nodes) :
    x ∈ g.nodes ∨ x = { g.nodes[n.id] with initial := true } := by
  simp only [setInitial, List.modify_eq_take_cons_drop h, List.mem_append, List.mem_cons] at hx
  rcases hx with hx | hx | hx
  · exact .inl (List.mem_of_mem_take hx)
  · exact .inr hx
  · exact .inl (List.mem_of_mem_drop hx)

theorem state_mem_setFinal {g : Graph S T} {n : NodeSptr S} {x : Node S}
    (hx : x ∈ (g.setFinal n).nodes) : ∃ y ∈ g.nodes, y.state = x.state :=
  List.mem_map.mp (setFinal_states g n ▸ List.mem_map_of_mem Node.state hx)

theorem pairwise_append_state {R : S → S → Prop} {l : List (Node S)} {x : Node S}
    (hd : (l.map Node.state).Pairwise fun a b => ¬ R b a) (hx : ∀ y ∈ l, ¬ R x.state y.state) :
    ((l ++ [x]).map Node.state).Pairwise fun a b => ¬ R b a := by
  simp only [List.map_append, List.map_cons, List.map_nil, List.pairwise_append,
    List.pairwise_singleton, List.mem_singleton, true_and]
  refine ⟨hd, fun a ha b hb => ?_⟩
  obtain ⟨y, hy, rfl⟩ := List.mem_map.mp ha
  exact hb ▸ hx y hy

theorem linked_mono {g g' : Graph S T} (he : g.edges ⊆ g'.edges) {i j : Nat}
    (h : Relation.ReflTransGen g.Linked i j) : Relation.ReflTransGen g'.Linked i j :=
  h.mono fun _ _ ⟨e, hm, h₁, h₂⟩ => ⟨e, he hm, h₁, h₂⟩

theorem addNode_cases (find : Find S T) (g : Graph S T) (s : S) :
    (∃ i, find g s = some i ∧ g.addNode find s = (false, ⟨i, (g.nodes.get i).state⟩, g)) ∨
      (find g s = none ∧ g.addNode find s = (true, ⟨g.nodes.length, s⟩, g.push s)) := by
  cases h : find g s with
  | some i => exact .inl ⟨i, rfl, by simp [addNode, h]⟩
  | none => exact .inr ⟨rfl, by simp [addNode, h]⟩

structure Extends (g g' : Graph S T) : Prop where
  nodes : ∀ (j : Nat) (x : Node S), g.nodes[j]? = some x → ∃ x', g'.nodes[j]? = some x' ∧ x.Raises x'
  edges : g.edges <+: g'.edges

theorem Extends.refl (g : Graph S T) : g.Extends g :=
  ⟨fun _ x h => ⟨x, h, .refl x⟩, List.prefix_refl _⟩

theorem Extends.trans {g g' g'' : Graph S T} (h : g.Extends g') (h' : g'.Extends g'') :
    g.Extends g'' := by
  refine ⟨fun j x hx => ?_, h.edges.trans h'.edges⟩
  obtain ⟨x', hx', hr⟩ := h.nodes j x hx
  obtain ⟨x'', hx'', hr'⟩ := h'.nodes j x' hx'
  exact ⟨x'', hx'', hr.trans hr'⟩

theorem Extends.initial_mem {g g' : Graph S T} (h : g.Extends g') {x : Node S} (hx : x ∈ g.nodes)
    (hi : x.initial = true) : ∃ x' ∈ g'.nodes, x'.initial = true ∧ x'.state = x.state := by
  obtain ⟨j, hj⟩ := List.mem_iff_getElem?.mp hx
  obtain ⟨x', hx', hs, hi', -⟩ := h.nodes j x hj
  exact ⟨x', List.getElem?_mem hx', hi' hi, hs⟩

theorem extends_of_append {g g' : Graph S T} {l : List (Node S)} (hn : g'.nodes = g.nodes ++ l)
    (he : g.edges <+: g'.edges) : g.Extends g' := by
  refine ⟨fun j x hx => ⟨x, ?_, .refl x⟩, he⟩
  rw [hn, List.getElem?_append_left (List.getElem?_eq_some_iff.1 hx).1, hx]

theorem extends_modify (g : Graph S T) (f : Node S → Node S) (hf : ∀ x : Node S, x.Raises (f x)) (k : Nat) :
    g.Extends ⟨g.nodes.modify f k, g.edges⟩ := by
  refine ⟨fun j x hx => ⟨if k = j then f x else x, by simp [List.getElem?_modify, hx], ?_⟩,
    List.prefix_refl _⟩
  split_ifs
  exacts [hf x, .refl x]

theorem extends_push (g : Graph S T) (s : S) : g.Extends (g.push s) :=
  extends_of_append rfl (List.prefix_refl _)

theorem extends_addEdge (g : Graph S T) (a b : NodeSptr S) (t : T) : g.Extends (g.addEdge a b t) :=
  extends_of_append (List.append_nil _).symm (List.prefix_append _ _)

theorem extends_setInitial (g : Graph S T) (n : NodeSptr S) : g.Extends (g.setInitial n) :=
  g.extends_modify (fun x => { x with initial := true }) (fun _ => ⟨rfl, fun _ => rfl, id⟩) n.id

theorem extends_setFinal (g : Graph S T) (n : NodeSptr S) : g.Extends (g.setFinal n) :=
  g.extends_modify (fun x => { x with final := true }) (fun _ => ⟨rfl, id, fun _ => rfl⟩) n.id

theorem extends_addNode (find : Find S T) (g : Graph S T) (s : S) : g.Extends (g.addNode find s).2.2 := by
  rcases addNode_cases find g s with ⟨i, -, he⟩ | ⟨-, he⟩ <;> rw [he]
  exacts [.refl g, g.extends_push s]

end Graph

end TChecker.Reach
