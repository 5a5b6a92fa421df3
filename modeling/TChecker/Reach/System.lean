import Mathlib.Data.Finset.Basic

namespace TChecker.Reach

structure Ts (St S T : Type) where
  initial : List (St × S × T)
  next : S → List (St × S × T)
  labels : S → Finset Nat
  isValidFinal : S → Bool

variable {St S T : Type}

inductive Reachable (ts : Ts St S T) : S → Prop
  | initial {st : St} {s : S} {t : T} : (st, s, t) ∈ ts.initial → Reachable ts s
  | next {s : S} {st : St} {s' : S} {t : T} :
      Reachable ts s → (st, s', t) ∈ ts.next s → Reachable ts s'

def Succ (ts : Ts St S T) (s s' : S) : Prop := ∃ y ∈ ts.next s, y.2.1 = s'

def accepting (ts : Ts St S T) (labels : Finset Nat) (s : S) : Bool :=
  decide labels.Nonempty && decide (labels ⊆ ts.labels s) && ts.isValidFinal s

theorem accepting_empty (ts : Ts St S T) (s : S) : accepting ts ∅ s = false := by
  simp [accepting]

def counter (n : Nat) : Ts Unit Nat Unit where
  initial := [((), 0, ())]
  next s := if s < n then [((), s + 1, ())] else []
  labels s := if s = n then {0} else ∅
  isValidFinal _ := true

theorem reachable_counter {n s : Nat} : Reachable (counter n) s ↔ s ≤ n := by
  constructor
  · intro h
    induction h with
    | initial h => simp [counter] at h; omega
    | next _ h _ => simp only [counter] at h; split_ifs at h <;> simp at h; omega
  · intro h
    induction s with
    | zero => exact .initial (show ((), 0, ()) ∈ (counter n).initial from List.mem_singleton_self _)
    | succ s ih =>
      exact .next (ih (by omega)) (show ((), s + 1, ()) ∈ (counter n).next s by simp [counter]; omega)

structure Stats where
  visitedStates : Nat
  visitedTransitions : Nat
  reachable : Bool
  deriving DecidableEq

/-- Modelled from the spec: a new `reach::stats_t` (`reach/stats.hh`, not in src) counts no
visited state and no visited transition, and `reachable` is false. -/
def Stats.init : Stats := ⟨0, 0, false⟩

end TChecker.Reach
