import Mathlib.Data.Multiset.Basic

namespace TChecker.Reach

structure Waiting (W E : Type) where
  empty : W → Bool
  first : W → E
  removeFirst : W → W
  insert : W → E → W
  clear : W → W
  fresh : W

structure Waiting.Lawful {W E : Type} (q : Waiting W E) (content : W → Multiset E) : Prop where
  fresh : content q.fresh = 0
  empty_iff : ∀ w, q.empty w = true ↔ content w = 0
  first_cons : ∀ w, q.empty w = false → content w = q.first w ::ₘ content (q.removeFirst w)
  insert : ∀ w e, content (q.insert w e) = e ::ₘ content w

variable {E : Type} [Inhabited E]

/-- Modelled from the spec: the container of the BFS policy (the containers are not in src) pops
its elements in the order they were inserted. -/
def fifo : Waiting (List E) E := ⟨List.isEmpty, List.headI, List.tail, fun w e => w ++ [e], fun _ => [], []⟩

/-- Modelled from the spec: the container of the DFS policy pops the element inserted last. -/
def lifo : Waiting (List E) E := ⟨List.isEmpty, List.headI, List.tail, fun w e => e :: w, fun _ => [], []⟩

theorem fifo_lawful : (fifo : Waiting (List E) E).Lawful (↑) where
  fresh := rfl
  empty_iff w := by cases w <;> simp [fifo]
  first_cons w h := by cases w <;> simp_all [fifo]
  insert w e := by simp [fifo]

theorem lifo_lawful : (lifo : Waiting (List E) E).Lawful (↑) where
  fresh := rfl
  empty_iff w := by cases w <;> simp [lifo]
  first_cons w h := by cases w <;> simp_all [lifo]
  insert _ _ := rfl

theorem foldl_insert_fifo (w hs : List E) : hs.foldl fifo.insert w = w ++ hs := by
  induction hs generalizing w with
  | nil => simp
  | cons h hs ih => rw [List.foldl_cons, ih]; simp [fifo]

theorem foldl_insert_lifo (w hs : List E) : hs.foldl lifo.insert w = hs.reverse ++ w := by
  induction hs generalizing w with
  | nil => rfl
  | cons h hs ih => rw [List.foldl_cons, ih]; simp [lifo]

end TChecker.Reach
