import TChecker.Reach.Expand

namespace TChecker.Reach

open Graph

variable {St S T W : Type} (ts : Ts St S T) (find : Graph.Find S T) (labels : Finset Nat)
  (q : Waiting W (NodeSptr S))

theorem runFromWaiting_extends (fuel : Nat) (c : Cfg S T W) :
    c.graph.Extends (runFromWaiting ts find labels q fuel c).cfg.graph :=
  runFromWaiting_induction ts find labels q (fun c' => c.graph.Extends c'.graph) _
    (fun _ _ _ h hs => h.trans (hs.extends find q)) (fun _ h => h)
    (fun _ _ h hx => h.trans (hx.extends q)) fuel (.refl _)

theorem run_extends (fuel : Nat) (g : Graph S T) (w : W) :
    g.Extends (run ts find labels q fuel g).cfg.graph ∧
      g.Extends (runWaiting ts find labels q fuel g w).cfg.graph :=
  ⟨(seed_extends find q g q.fresh ts.initial).trans
      (runFromWaiting_extends ts find labels q fuel (start ts find q g)),
    runFromWaiting_extends ts find labels q fuel ⟨g, w, Stats.init⟩⟩

def Ts.restatus {St' : Type} (ts : Ts St S T) (f : St → St') : Ts St' S T where
  initial := ts.initial.map fun x => (f x.1, x.2)
  next s := (ts.next s).map fun x => (f x.1, x.2)
  labels := ts.labels
  isValidFinal := ts.isValidFinal

section

variable {St' : Type} (f : St → St')

@[simp] theorem initial_restatus : (ts.restatus f).initial = ts.initial.map fun x => (f x.1, x.2) :=
  rfl

@[simp] theorem next_restatus (s : S) : (ts.restatus f).next s = (ts.next s).map fun x => (f x.1, x.2) :=
  rfl

@[simp] theorem accepting_restatus (s : S) : accepting (ts.restatus f) labels s = accepting ts labels s :=
  rfl

theorem seed_restatus (g : Graph S T) (w : W) (xs : List (St × S × T)) :
    seed find q g w (xs.map fun x => (f x.1, x.2)) = seed find q g w xs := by
  induction xs generalizing g w with
  | nil => rfl
  | cons x xs ih =>
    obtain ⟨st, s, t⟩ := x
    exact ih _ _

theorem expand_restatus (node : NodeSptr S) (c : Cfg S T W) (xs : List (St × S × T)) :
    expand find q node c (xs.map fun x => (f x.1, x.2)) = expand find q node c xs := by
  induction xs generalizing c with
  | nil => rfl
  | cons x xs ih =>
    obtain ⟨st, s, t⟩ := x
    exact ih _

theorem runFromWaiting_restatus (fuel : Nat) (c : Cfg S T W) :
    runFromWaiting (ts.restatus f) find labels q fuel c = runFromWaiting ts find labels q fuel c := by
  induction fuel generalizing c with
  | zero => rfl
  | succ fuel ih =>
    simp only [runFromWaiting, accepting_restatus, next_restatus, expand_restatus, ih]

theorem run_ignores_status (fuel : Nat) (g : Graph S T) (w : W) :
    run (ts.restatus f) find labels q fuel g = run ts find labels q fuel g ∧
      runWaiting (ts.restatus f) find labels q fuel g w = runWaiting ts find labels q fuel g w := by
  refine ⟨?_, runFromWaiting_restatus ts find labels q f fuel _⟩
  have hstart : start (ts.restatus f) find q g = start ts find q g := by
    simp only [start, initial_restatus, seed_restatus]
  simp only [run, hstart, runFromWaiting_restatus]

end

end TChecker.Reach
