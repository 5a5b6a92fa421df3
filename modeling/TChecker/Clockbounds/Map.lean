import Mathlib

/-!
Clock-bound maps (`clockbounds.cc`, `map_t`): a map holds one bound per clock id, and `update`
is the loop of `update(map, id, bound)` over every clock id of the map.
-/

namespace TChecker.Clockbounds

/-- Modelled from the spec: `bound_t` and `NO_BOUND` (`clockbounds.hh`, not in src), the integers
with `NO_BOUND` strictly below every one of them. -/
abbrev Bound := WithBot ℤ

def noBound : Bound := ⊥

/-- Modelled from the spec: `map_t` (`clockbounds.hh`, not in src), the bound of each clock id;
its capacity is its length. -/
abbrev Map := List Bound

def clear (map : Map) : Map := List.replicate map.length noBound

def allocateMap (clockNb : Nat) : Map := clear (List.replicate clockNb ((0 : ℤ) : Bound))

def cloneMap (m : Map) : Map :=
  (List.range m.length).foldl (fun clone id => clone.set id (m.getD id noBound))
    (allocateMap m.length)

def updateAt (map : Map) (id : Nat) (bound : Bound) : Bool × Map :=
  if bound ≤ map.getD id noBound then (false, map) else (true, map.set id bound)

def updateStep (upd : Map) (acc : Bool × Map) (id : Nat) : Bool × Map :=
  let r := updateAt acc.2 id (upd.getD id noBound)
  (acc.1 || r.1, r.2)

def update (map upd : Map) : Bool × Map :=
  (List.range map.length).foldl (updateStep upd) (false, map)

@[simp] theorem noBound_le (b : Bound) : noBound ≤ b := bot_le

@[simp] theorem max_noBound (b : Bound) : max b noBound = b := max_bot_right b

@[simp] theorem clear_eq (map : Map) : clear map = List.replicate map.length noBound := rfl

@[simp] theorem allocateMap_eq (clockNb : Nat) :
    allocateMap clockNb = List.replicate clockNb noBound := by
  simp [allocateMap]

theorem getD_eq (m : Map) (i : Nat) : m.getD i noBound = (m[i]?).getD noBound :=
  List.getD_eq_getElem?_getD _ _ _

theorem updateAt_fst (map : Map) (id : Nat) (bound : Bound) :
    (updateAt map id bound).1 = !decide (bound ≤ map.getD id noBound) := by
  unfold updateAt; split_ifs <;> simp_all

theorem getElem?_updateAt (map : Map) (id : Nat) (bound : Bound) (j : Nat) :
    (updateAt map id bound).2[j]? = if j = id then map[j]?.map (max · bound) else map[j]? := by
  unfold updateAt
  rcases Nat.lt_or_ge j map.length with hj | hj
  · split_ifs with hle hji <;> subst_vars
    · simp only [getD_eq, List.getElem?_eq_getElem hj, Option.getD_some] at hle
      simp [hj, hle]
    · rfl
    · simp only [getD_eq, List.getElem?_eq_getElem hj, Option.getD_some, not_le] at hle
      simp [List.getElem?_set, hj, le_of_lt hle]
    · simp [List.getElem?_set, Ne.symm ‹¬j = id›]
  · split_ifs <;> simp [List.getElem?_set, List.getElem?_eq_none hj] <;> omega

theorem update_loop (m upd : Map) (b : Bool) (n : Nat) :
    ((List.range n).foldl (updateStep upd) (b, m)).1 =
        (b || (List.range n).any fun i => !decide (upd.getD i noBound ≤ m.getD i noBound)) ∧
      ∀ j, ((List.range n).foldl (updateStep upd) (b, m)).2[j]? =
        if j < n then m[j]?.map (max · (upd.getD j noBound)) else m[j]? := by
  induction n with
  | zero => simp
  | succ n ih =>
    obtain ⟨h1, h2⟩ := ih
    have hn : ((List.range n).foldl (updateStep upd) (b, m)).2[n]? = m[n]? := by
      rw [h2, if_neg (lt_irrefl n)]
    rw [List.range_succ, List.foldl_append, List.foldl_cons, List.foldl_nil]
    refine ⟨?_, fun j => ?_⟩
    · simp [updateStep, updateAt_fst, h1, hn, List.any_append, Bool.or_assoc]
    · simp only [updateStep, getElem?_updateAt, h2]
      rcases Nat.lt_trichotomy j n with h | rfl | h
      · simp [h, Nat.lt_succ_of_lt h, Nat.ne_of_lt h]
      · simp
      · have h' : ¬j < n + 1 := by omega
        simp [Nat.ne_of_gt h, Nat.not_lt_of_gt h, h']

theorem getElem?_update (map upd : Map) (j : Nat) :
    (update map upd).2[j]? = map[j]?.map (max · (upd.getD j noBound)) := by
  rw [update, (update_loop map upd false map.length).2 j]
  split_ifs with h
  · rfl
  · simp [List.getElem?_eq_none (Nat.le_of_not_lt h)]

theorem update_eq_mapIdx (map upd : Map) :
    (update map upd).2 = map.mapIdx fun j a => max a (upd.getD j noBound) :=
  List.ext_getElem? fun j => by rw [getElem?_update, List.getElem?_mapIdx]

@[simp] theorem length_update (map upd : Map) : (update map upd).2.length = map.length := by
  simp [update_eq_mapIdx]

theorem update_fst (map upd : Map) :
    (update map upd).1 = true ↔ ∃ i < map.length, map.getD i noBound < upd.getD i noBound := by
  simp [update, (update_loop map upd false map.length).1, List.any_eq_true]

theorem getD_update (map upd : Map) {i : Nat} (hi : i < map.length) :
    (update map upd).2.getD i noBound = max (map.getD i noBound) (upd.getD i noBound) := by
  simp [getD_eq, getElem?_update, List.getElem?_eq_getElem hi]

theorem update_eq_zipWith (map upd : Map) (hcap : map.length ≤ upd.length) :
    (update map upd).2 = List.zipWith max map upd := by
  refine List.ext_getElem? fun j => ?_
  rw [getElem?_update, List.getElem?_zipWith']
  rcases Nat.lt_or_ge j map.length with hj | hj
  · simp [List.getElem?_eq_getElem hj, List.getElem?_eq_getElem (Nat.lt_of_lt_of_le hj hcap)]
  · simp [List.getElem?_eq_none hj]

theorem update_of_le (m upd : Map) (h : ∀ i < m.length, upd.getD i noBound ≤ m.getD i noBound) :
    update m upd = (false, m) := by
  refine Prod.ext (Bool.eq_false_iff.mpr fun ht => ?_) (List.ext_getElem? fun j => ?_)
  · obtain ⟨i, hi, hlt⟩ := (update_fst m upd).mp ht
    exact absurd (h i hi) (not_le.mpr hlt)
  · rw [getElem?_update]
    rcases Nat.lt_or_ge j m.length with hj | hj
    · simpa [List.getElem?_eq_getElem hj, getD_eq] using h j hj
    · simp [List.getElem?_eq_none hj]

theorem update_pointwise_max (map upd : Map) (hcap : map.length ≤ upd.length) :
    (update map upd).2 = List.zipWith max map upd ∧
      ((update map upd).1 = true ↔
        ∃ i < map.length, map.getD i noBound < (update map upd).2.getD i noBound) ∧
      (∀ i < map.length, map.getD i noBound ≤ (update map upd).2.getD i noBound) ∧
      update (update map upd).2 upd = (false, (update map upd).2) := by
  have hlen : (update map upd).2.length = map.length := by
    simp [update_eq_zipWith map upd hcap, Nat.min_eq_left hcap]
  refine ⟨update_eq_zipWith map upd hcap, ?_, fun i hi => ?_, update_of_le _ _ fun i hi => ?_⟩
  · rw [update_fst]
    refine exists_congr fun i => and_congr_right fun hi => ?_
    rw [getD_update map upd hi, lt_max_iff]
    simp
  · rw [getD_update map upd hi]
    exact le_max_left _ _
  · rw [getD_update map upd (hlen ▸ hi)]
    exact le_max_right _ _

theorem update_pointwise_max_example :
    ([noBound, ((3 : ℤ) : Bound)] : Map).length ≤ ([((2 : ℤ) : Bound), ((1 : ℤ) : Bound)] : Map).length ∧
      update [noBound, ((3 : ℤ) : Bound)] [((2 : ℤ) : Bound), ((1 : ℤ) : Bound)] =
        (true, [((2 : ℤ) : Bound), ((3 : ℤ) : Bound)]) :=
  ⟨by decide, by
    have h := (update_pointwise_max [noBound, ((3 : ℤ) : Bound)] [((2 : ℤ) : Bound), ((1 : ℤ) : Bound)]
      (by decide))
    refine Prod.ext (h.2.1.mpr ⟨0, by decide, ?_⟩) (h.1.trans (by decide))
    rw [h.1]; decide⟩

theorem cloneMap_loop (m : Map) (n : Nat) :
    ((List.range n).foldl (fun clone id => clone.set id (m.getD id noBound))
        (allocateMap m.length)).length = m.length ∧
      ∀ j, ((List.range n).foldl (fun clone id => clone.set id (m.getD id noBound))
        (allocateMap m.length))[j]? = if j < n then m[j]? else (allocateMap m.length)[j]? := by
  induction n with
  | zero => simp
  | succ n ih =>
    rw [List.range_succ, List.foldl_append, List.foldl_cons, List.foldl_nil, List.length_set]
    refine ⟨ih.1, fun j => ?_⟩
    rw [List.getElem?_set, ih.1, ih.2]
    rcases Nat.lt_trichotomy j n with h | rfl | h
    · simp [Nat.ne_of_gt h, h, Nat.lt_succ_of_lt h]
    · by_cases hj : j < m.length
      · simp [hj, getD_eq, List.getElem?_eq_getElem hj]
      · simp [hj, List.getElem?_eq_none (Nat.le_of_not_lt hj)]
    · have h' : ¬j < n + 1 := by omega
      simp [Nat.ne_of_lt h, Nat.not_lt_of_gt h, h']

@[simp] theorem cloneMap_eq (m : Map) : cloneMap m = m := by
  refine List.ext_getElem? fun j => ?_
  rw [cloneMap, (cloneMap_loop m m.length).2]
  split_ifs with hj
  · rfl
  · rw [List.getElem?_eq_none (Nat.le_of_not_lt hj), List.getElem?_eq_none (by simpa using Nat.le_of_not_lt hj)]

end TChecker.Clockbounds
