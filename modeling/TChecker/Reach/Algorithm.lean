import TChecker.Reach.Graph
import TChecker.Reach.Waiting

/-!
`algorithm_t::run` and `run_from_waiting`. The `while` loop runs on fuel, one unit for each test
of its condition; the result says whether the loop returned or was still running when the fuel
ran out. `Step` is one pass of the loop body that stays in the loop, and `Trace` a sequence of
them, labelled with the nodes popped.
-/

namespace TChecker.Reach

inductive Outcome (α : Type) where
  | returned : α → Outcome α
  | running : α → Outcome α
  deriving DecidableEq

def Outcome.cfg {α : Type} : Outcome α → α
  | .returned a => a
  | .running a => a

structure Cfg (S T W : Type) where
  graph : Graph S T
  waiting : W
  stats : Stats
  deriving DecidableEq

section

variable {St S T W : Type} (ts : Ts St S T) (find : Graph.Find S T) (labels : Finset Nat)
  (q : Waiting W (NodeSptr S))

def seedOne (gw : Graph S T × W) (x : St × S × T) : Graph S T × W :=
  let (_, s, _) := x
  let (isNew, initialNode, g) := gw.1.addNode find s
  (g.setInitial initialNode, if isNew then q.insert gw.2 initialNode else gw.2)

def seed (graph : Graph S T) (waiting : W) (sst : List (St × S × T)) : Graph S T × W :=
  sst.foldl (seedOne find q) (graph, waiting)

def expandOne (node : NodeSptr S) (c : Cfg S T W) (x : St × S × T) : Cfg S T W :=
  let (_, s, t) := x
  let (isNew, nextNode, g) := c.graph.addNode find s
  ⟨g.addEdge node nextNode t, if isNew then q.insert c.waiting nextNode else c.waiting,
    { c.stats with visitedTransitions := c.stats.visitedTransitions + 1 }⟩

def expand (node : NodeSptr S) (c : Cfg S T W) (sst : List (St × S × T)) : Cfg S T W :=
  sst.foldl (expandOne find q node) c

def pop (c : Cfg S T W) : Cfg S T W :=
  ⟨c.graph, q.removeFirst c.waiting, { c.stats with visitedStates := c.stats.visitedStates + 1 }⟩

@[simp] theorem pop_graph (c : Cfg S T W) : (pop q c).graph = c.graph := rfl

@[simp] theorem pop_stats (c : Cfg S T W) :
    (pop q c).stats = { c.stats with visitedStates := c.stats.visitedStates + 1 } := rfl

def runFromWaiting : Nat → Cfg S T W → Outcome (Cfg S T W)
  | 0, c => .running c
  | fuel + 1, c =>
    if q.empty c.waiting then .returned { c with waiting := q.clear c.waiting }
    else
      let node := q.first c.waiting
      let c := pop q c
      if accepting ts labels node.state then
        .returned ⟨c.graph.setFinal node, q.clear c.waiting, { c.stats with reachable := true }⟩
      else runFromWaiting fuel (expand find q node c (ts.next node.state))

def start (graph : Graph S T) : Cfg S T W :=
  let (g, w) := seed find q graph q.fresh ts.initial
  ⟨g, w, Stats.init⟩

@[simp] theorem start_graph (graph : Graph S T) :
    (start ts find q graph).graph = (seed find q graph q.fresh ts.initial).1 := rfl

@[simp] theorem start_waiting (graph : Graph S T) :
    (start ts find q graph).waiting = (seed find q graph q.fresh ts.initial).2 := rfl

@[simp] theorem start_stats (graph : Graph S T) : (start ts find q graph).stats = Stats.init := rfl

def run (fuel : Nat) (graph : Graph S T) : Outcome (Cfg S T W) :=
  runFromWaiting ts find labels q fuel (start ts find q graph)

example : (run (counter 2) Graph.findEq {0} fifo 3 Graph.empty).cfg.graph.nodes =
    [⟨0, true, false⟩, ⟨1, false, false⟩, ⟨2, false, true⟩] := by decide

def runWaiting (fuel : Nat) (graph : Graph S T) (waiting : W) : Outcome (Cfg S T W) :=
  runFromWaiting ts find labels q fuel ⟨graph, waiting, Stats.init⟩

def Step (c : Cfg S T W) (node : NodeSptr S) (c' : Cfg S T W) : Prop :=
  q.empty c.waiting = false ∧ q.first c.waiting = node ∧ accepting ts labels node.state = false ∧
    c' = expand find q node (pop q c) (ts.next node.state)

inductive Trace : Cfg S T W → List (NodeSptr S) → Cfg S T W → Prop
  | nil (c : Cfg S T W) : Trace c [] c
  | cons {c c' c'' : Cfg S T W} {node : NodeSptr S} {nodes : List (NodeSptr S)} :
      Step ts find labels q c node c' → Trace c' nodes c'' → Trace c (node :: nodes) c''

def Exit (c r : Cfg S T W) : Prop :=
  (q.empty c.waiting = true ∧ r = { c with waiting := q.clear c.waiting }) ∨
    (q.empty c.waiting = false ∧ accepting ts labels (q.first c.waiting).state = true ∧
      r = ⟨(pop q c).graph.setFinal (q.first c.waiting), q.clear (pop q c).waiting,
        { (pop q c).stats with reachable := true }⟩)

theorem runFromWaiting_running {fuel : Nat} {c r : Cfg S T W}
    (h : runFromWaiting ts find labels q fuel c = .running r) :
    ∃ nodes, nodes.length = fuel ∧ Trace ts find labels q c nodes r := by
  induction fuel generalizing c with
  | zero => cases h; exact ⟨[], rfl, .nil _⟩
  | succ fuel ih =>
    simp only [runFromWaiting] at h
    split_ifs at h with he ha
    obtain ⟨nodes, hlen, hn⟩ := ih h
    exact ⟨_, by simp [hlen], .cons ⟨by simpa using he, rfl, by simpa using ha, rfl⟩ hn⟩

theorem runFromWaiting_returned {fuel : Nat} {c r : Cfg S T W}
    (h : runFromWaiting ts find labels q fuel c = .returned r) :
    ∃ nodes c', Trace ts find labels q c nodes c' ∧ Exit ts labels q c' r := by
  induction fuel generalizing c with
  | zero => cases h
  | succ fuel ih =>
    simp only [runFromWaiting] at h
    split_ifs at h with he ha
    · cases h; exact ⟨[], c, .nil _, .inl ⟨he, rfl⟩⟩
    · cases h; exact ⟨[], c, .nil _, .inr ⟨by simpa using he, ha, rfl⟩⟩
    · obtain ⟨nodes, c', hn, hx⟩ := ih h
      exact ⟨_, c', .cons ⟨by simpa using he, rfl, by simpa using ha, rfl⟩ hn, hx⟩

theorem Trace.invariant {I : Cfg S T W → Prop}
    (hstep : ∀ c node c', I c → Step ts find labels q c node c' → I c')
    {c c' : Cfg S T W} {nodes : List (NodeSptr S)} (h : Trace ts find labels q c nodes c')
    (hc : I c) : I c' := by
  induction h with
  | nil => exact hc
  | cons hs _ ih => exact ih (hstep _ _ _ hc hs)

theorem runFromWaiting_induction (I J : Cfg S T W → Prop)
    (hstep : ∀ c node c', I c → Step ts find labels q c node c' → I c')
    (hrun : ∀ c, I c → J c) (hexit : ∀ c r, I c → Exit ts labels q c r → J r)
    (fuel : Nat) {c : Cfg S T W} (hc : I c) : J (runFromWaiting ts find labels q fuel c).cfg := by
  cases h : runFromWaiting ts find labels q fuel c with
  | returned r =>
    obtain ⟨_, c', ht, hx⟩ := runFromWaiting_returned ts find labels q h
    exact hexit c' r (ht.invariant ts find labels q hstep hc) hx
  | running r =>
    obtain ⟨_, -, ht⟩ := runFromWaiting_running ts find labels q h
    exact hrun r (ht.invariant ts find labels q hstep hc)

end

end TChecker.Reach
