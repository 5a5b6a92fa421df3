import TChecker.Clockbounds.Map

namespace TChecker.Clockbounds

/-- `*t[id]`; a null or missing pointer reads as the map of no clock. -/
def deref (t : List (Option Map)) (id : Nat) : Map := (t.getD id none).getD []

def allocateTable (locNb clockNb : Nat) : List (Option Map) :=
  if 0 < clockNb then List.replicate locNb (some (clear (allocateMap clockNb)))
  else List.replicate locNb none

def cloneTable (locNb clockNb : Nat) (t : List (Option Map)) : List (Option Map) :=
  if 0 < clockNb then (List.range locNb).map fun id => some (cloneMap (deref t id))
  else List.replicate locNb none

def TableOk (locNb clockNb : Nat) (t : List (Option Map)) : Prop :=
  t.length = locNb ∧ (0 < clockNb → ∀ p ∈ t, ∃ m, p = some m ∧ m.length = clockNb)

def tableValue (locNb clockNb : Nat) (t : List (Option Map)) : List Map :=
  if 0 < clockNb then (List.range locNb).map (deref t) else []

theorem deref_map_range (f : Nat → Option Map) {n id : Nat} (h : id < n) :
    deref ((List.range n).map f) id = (f id).getD [] := by
  simp [deref, List.getElem?_range h]

theorem TableOk.deref_length {locNb clockNb id : Nat} {t : List (Option Map)}
    (ht : TableOk locNb clockNb t) (hk : 0 < clockNb) (hid : id < locNb) :
    (deref t id).length = clockNb := by
  have hid' : id < t.length := ht.1 ▸ hid
  obtain ⟨m, hm, hlen⟩ := ht.2 hk _ (List.getElem_mem hid')
  simp [deref, List.getElem?_eq_getElem hid', hm, hlen]

theorem TableOk.empty (clockNb : Nat) : TableOk 0 clockNb [] :=
  ⟨rfl, fun _ _ h => (List.not_mem_nil _ h).elim⟩

/-- The loop of `clear()` over `id < loc_nb` that calls `deallocate_map(t[id])` when there are
clocks stays inside the vector `t`. -/
def ReadsTable (locNb clockNb : Nat) (t : List (Option Map)) : Prop := 0 < clockNb → locNb ≤ t.length

instance (locNb clockNb : Nat) (t : List (Option Map)) : Decidable (ReadsTable locNb clockNb t) :=
  inferInstanceAs (Decidable (0 < clockNb → locNb ≤ t.length))

theorem TableOk.reads {locNb clockNb : Nat} {t : List (Option Map)} (ht : TableOk locNb clockNb t) :
    ReadsTable locNb clockNb t := fun _ => ht.1.ge

theorem allocateTable_ok (locNb clockNb : Nat) :
    TableOk locNb clockNb (allocateTable locNb clockNb) := by
  unfold allocateTable
  split_ifs with hk
  · exact ⟨List.length_replicate _ _, fun _ _ hp => ⟨_, List.eq_of_mem_replicate hp, by simp⟩⟩
  · exact ⟨List.length_replicate _ _, fun h => absurd h hk⟩

theorem cloneTable_ok {locNb clockNb : Nat} {t : List (Option Map)} (ht : TableOk locNb clockNb t) :
    TableOk locNb clockNb (cloneTable locNb clockNb t) := by
  unfold cloneTable
  split_ifs with hk
  · refine ⟨by simp, fun _ p hp => ?_⟩
    obtain ⟨id, hid, rfl⟩ := List.mem_map.mp hp
    exact ⟨_, rfl, by simpa using ht.deref_length hk (List.mem_range.mp hid)⟩
  · exact ⟨List.length_replicate _ _, fun h => absurd h hk⟩

theorem tableValue_cloneTable (locNb clockNb : Nat) (t : List (Option Map)) :
    tableValue locNb clockNb (cloneTable locNb clockNb t) = tableValue locNb clockNb t := by
  unfold tableValue cloneTable
  split_ifs with hk
  · refine List.map_congr_left fun id hid => ?_
    rw [deref_map_range _ (List.mem_range.mp hid)]
    simp
  · rfl

theorem tableValue_allocateTable (locNb clockNb : Nat) :
    tableValue locNb clockNb (allocateTable locNb clockNb) =
      if 0 < clockNb then List.replicate locNb (List.replicate clockNb noBound) else [] := by
  unfold tableValue allocateTable
  split_ifs with hk
  · refine List.ext_getElem (by simp) fun id h _ => ?_
    simp at h
    simp [deref, h]
  · rfl

def updateEntry (t : List (Option Map)) (id : Nat) (upd : Map) : List (Option Map) × Bool :=
  (t.set id (some (update (deref t id) upd).2), (update (deref t id) upd).1)

theorem updateEntry_ok {locNb clockNb id : Nat} {t : List (Option Map)} (ht : TableOk locNb clockNb t)
    (hid : id < locNb) (upd : Map) : TableOk locNb clockNb (updateEntry t id upd).1 := by
  refine ⟨by simp [updateEntry, ht.1], fun hk p hp => ?_⟩
  rcases List.mem_or_eq_of_mem_set hp with hp | rfl
  · exact ht.2 hk p hp
  · exact ⟨_, rfl, by simp [ht.deref_length hk hid]⟩

structure LocalLuMap where
  locNb : Nat
  clockNb : Nat
  L : List (Option Map)
  U : List (Option Map)

structure LocalMMap where
  locNb : Nat
  clockNb : Nat
  M : List (Option Map)

namespace LocalLuMap

def WellFormed (m : LocalLuMap) : Prop :=
  TableOk m.locNb m.clockNb m.L ∧ TableOk m.locNb m.clockNb m.U

def value (m : LocalLuMap) : Nat × Nat × List Map × List Map :=
  (m.locNb, m.clockNb, tableValue m.locNb m.clockNb m.L, tableValue m.locNb m.clockNb m.U)

def clear (m : LocalLuMap) : Option LocalLuMap :=
  if ReadsTable m.locNb m.clockNb m.L ∧ ReadsTable m.locNb m.clockNb m.U then some ⟨0, 0, [], []⟩
  else none

def resize (m : LocalLuMap) (locNb clockNb : Nat) : Option LocalLuMap :=
  m.clear.map fun c => { c with locNb := locNb, clockNb := clockNb, L := allocateTable locNb clockNb,
                                U := allocateTable locNb clockNb }

def make (locNb clockNb : Nat) : LocalLuMap :=
  ⟨locNb, clockNb, allocateTable locNb clockNb, allocateTable locNb clockNb⟩

def copy (m : LocalLuMap) : LocalLuMap :=
  ⟨m.locNb, m.clockNb, cloneTable m.locNb m.clockNb m.L, cloneTable m.locNb m.clockNb m.U⟩

def move (m : LocalLuMap) : LocalLuMap × LocalLuMap :=
  (⟨0, 0, m.L, m.U⟩, { m with L := [], U := [] })

def copyAssign (this m : LocalLuMap) : Option LocalLuMap :=
  this.clear.map fun c => { c with locNb := m.locNb, clockNb := m.clockNb,
                                   L := cloneTable m.locNb m.clockNb m.L,
                                   U := cloneTable m.locNb m.clockNb m.U }

def moveAssign (this m : LocalLuMap) : Option (LocalLuMap × LocalLuMap) :=
  this.clear.map fun c =>
    ({ c with locNb := m.locNb, clockNb := m.clockNb, L := m.L, U := m.U }, ⟨0, 0, [], []⟩)

def updateL (m : LocalLuMap) (id : Nat) (upd : Map) : LocalLuMap × Bool :=
  ({ m with L := (updateEntry m.L id upd).1 }, (updateEntry m.L id upd).2)

theorem resize_fresh (locNb clockNb : Nat) :
    (⟨0, 0, [], []⟩ : LocalLuMap).resize locNb clockNb = some (make locNb clockNb) := rfl

theorem clear_of_wellFormed {m : LocalLuMap} (hm : m.WellFormed) : m.clear = some ⟨0, 0, [], []⟩ :=
  if_pos ⟨hm.1.reads, hm.2.reads⟩

theorem resize_of_wellFormed {m : LocalLuMap} (hm : m.WellFormed) (locNb clockNb : Nat) :
    m.resize locNb clockNb = some (make locNb clockNb) := by
  rw [resize, clear_of_wellFormed hm]
  rfl

theorem undefined_of_clear {m : LocalLuMap} (h : m.clear = none) (locNb clockNb : Nat)
    (m' : LocalLuMap) :
    m.resize locNb clockNb = none ∧ m.copyAssign m' = none ∧ m.moveAssign m' = none := by
  simp [resize, copyAssign, moveAssign, h]

theorem make_spec (locNb clockNb : Nat) :
    (make locNb clockNb).WellFormed ∧
      (make locNb clockNb).value = (locNb, clockNb,
        if 0 < clockNb then List.replicate locNb (List.replicate clockNb noBound) else [],
        if 0 < clockNb then List.replicate locNb (List.replicate clockNb noBound) else []) :=
  ⟨⟨allocateTable_ok _ _, allocateTable_ok _ _⟩, by simp [make, value, tableValue_allocateTable]⟩

theorem lifecycle_local_lu (this m : LocalLuMap) (hthis : this.WellFormed) (hm : m.WellFormed)
    (locNb clockNb : Nat) :
    (make locNb clockNb).WellFormed ∧
      (make locNb clockNb).value = (locNb, clockNb,
        if 0 < clockNb then List.replicate locNb (List.replicate clockNb noBound) else [],
        if 0 < clockNb then List.replicate locNb (List.replicate clockNb noBound) else []) ∧
      this.resize locNb clockNb = some (make locNb clockNb) ∧ this.clear = some ⟨0, 0, [], []⟩ ∧
      m.copy.WellFormed ∧ m.copy.value = m.value ∧ this.copyAssign m = some m.copy ∧
      this.moveAssign m = some (m, ⟨0, 0, [], []⟩) ∧
      (0 < m.clockNb → 0 < m.locNb → m.move.2.clear = none ∧
        ∀ m' : LocalLuMap, m.move.2.resize locNb clockNb = none ∧ m.move.2.copyAssign m' = none ∧
          m.move.2.moveAssign m' = none) := by
  have hc := clear_of_wellFormed hthis
  refine ⟨(make_spec _ _).1, (make_spec _ _).2, resize_of_wellFormed hthis _ _, hc,
    ⟨cloneTable_ok hm.1, cloneTable_ok hm.2⟩, by simp [value, copy, tableValue_cloneTable],
    by rw [copyAssign, hc]; rfl, by rw [moveAssign, hc]; rfl, fun hk hl => ?_⟩
  have hmove : m.move.2.clear = none := if_neg (by simp [ReadsTable, move, hk, hl.ne'])
  exact ⟨hmove, undefined_of_clear hmove locNb clockNb⟩

theorem lifecycle_local_lu_raised :
    (∃ r, (make 1 1).copyAssign ((make 2 1).updateL 1 [((5 : ℤ) : Bound)]).1 = some r ∧
        r.value = (2, 1, [[noBound], [((5 : ℤ) : Bound)]], [[noBound], [noBound]])) ∧
      (make 1 1).move.2.clear = none ∧ (make 1 1).move.2.resize 2 1 = none :=
  have h := lifecycle_local_lu (make 1 1) ((make 2 1).updateL 1 [((5 : ℤ) : Bound)]).1
    (make_spec 1 1).1 ⟨updateEntry_ok (make_spec 2 1).1.1 (by decide) _, (make_spec 2 1).1.2⟩ 2 1
  have hmove := h.2.2.2.2.2.2.2.2 (by decide) (by decide)
  ⟨⟨_, h.2.2.2.2.2.2.1, by decide⟩, hmove.1, (hmove.2 (make 1 1)).1⟩

theorem move_breaks (m : LocalLuMap) (hm : m.WellFormed) (hloc : 0 < m.locNb) :
    m.move.1.locNb = 0 ∧ m.move.1.value ≠ m.value ∧ ¬m.move.1.WellFormed ∧
      ¬m.move.2.WellFormed := by
  refine ⟨rfl, fun h => ?_, fun h => ?_, fun h => ?_⟩
  · exact Nat.ne_of_lt hloc (congrArg Prod.fst h)
  · exact Nat.ne_of_lt (h.1.1 ▸ hm.1.1 ▸ hloc) rfl
  · exact Nat.ne_of_lt hloc h.1.1

theorem move_ctor_drops_counts :
    (make 1 1).move.1.locNb = 0 ∧ (make 1 1).move.1.value ≠ (make 1 1).value ∧
      ¬(make 1 1).move.1.WellFormed ∧ ¬(make 1 1).move.2.WellFormed :=
  move_breaks _ (make_spec _ _).1 (by decide)

end LocalLuMap

namespace LocalMMap

def WellFormed (m : LocalMMap) : Prop := TableOk m.locNb m.clockNb m.M

def value (m : LocalMMap) : Nat × Nat × List Map :=
  (m.locNb, m.clockNb, tableValue m.locNb m.clockNb m.M)

def clear (m : LocalMMap) : Option LocalMMap :=
  if ReadsTable m.locNb m.clockNb m.M then some ⟨0, 0, []⟩ else none

def resize (m : LocalMMap) (locNb clockNb : Nat) : Option LocalMMap :=
  m.clear.map fun c => { c with locNb := locNb, clockNb := clockNb, M := allocateTable locNb clockNb }

def make (locNb clockNb : Nat) : LocalMMap := ⟨locNb, clockNb, allocateTable locNb clockNb⟩

def copy (m : LocalMMap) : LocalMMap := ⟨m.locNb, m.clockNb, cloneTable m.locNb m.clockNb m.M⟩

def move (m : LocalMMap) : LocalMMap × LocalMMap := (⟨m.locNb, m.clockNb, m.M⟩, ⟨0, 0, []⟩)

def copyAssign (this m : LocalMMap) : Option LocalMMap :=
  this.clear.map fun c => { c with locNb := m.locNb, clockNb := m.clockNb,
                                   M := cloneTable m.locNb m.clockNb m.M }

def moveAssign (this m : LocalMMap) : Option (LocalMMap × LocalMMap) :=
  this.clear.map fun c => ({ c with locNb := m.locNb, clockNb := m.clockNb, M := m.M }, ⟨0, 0, []⟩)

def updateM (m : LocalMMap) (id : Nat) (upd : Map) : LocalMMap × Bool :=
  ({ m with M := (updateEntry m.M id upd).1 }, (updateEntry m.M id upd).2)

theorem resize_fresh (locNb clockNb : Nat) :
    (⟨0, 0, []⟩ : LocalMMap).resize locNb clockNb = some (make locNb clockNb) := rfl

theorem clear_of_wellFormed {m : LocalMMap} (hm : m.WellFormed) : m.clear = some ⟨0, 0, []⟩ :=
  if_pos hm.reads

theorem resize_of_wellFormed {m : LocalMMap} (hm : m.WellFormed) (locNb clockNb : Nat) :
    m.resize locNb clockNb = some (make locNb clockNb) := by
  rw [resize, clear_of_wellFormed hm]
  rfl

theorem make_spec (locNb clockNb : Nat) :
    (make locNb clockNb).WellFormed ∧
      (make locNb clockNb).value =
        (locNb, clockNb, if 0 < clockNb then List.replicate locNb (List.replicate clockNb noBound) else []) :=
  ⟨allocateTable_ok _ _, by simp [make, value, tableValue_allocateTable]⟩

theorem lifecycle_local_m (this m : LocalMMap) (hthis : this.WellFormed) (hm : m.WellFormed)
    (locNb clockNb : Nat) :
    (make locNb clockNb).WellFormed ∧
      (make locNb clockNb).value =
        (locNb, clockNb, if 0 < clockNb then List.replicate locNb (List.replicate clockNb noBound) else []) ∧
      this.resize locNb clockNb = some (make locNb clockNb) ∧ this.clear = some ⟨0, 0, []⟩ ∧
      m.copy.WellFormed ∧ m.copy.value = m.value ∧ m.move = (m, ⟨0, 0, []⟩) ∧
      this.copyAssign m = some m.copy ∧ this.moveAssign m = some (m, ⟨0, 0, []⟩) := by
  have hc := clear_of_wellFormed hthis
  refine ⟨(make_spec _ _).1, (make_spec _ _).2, resize_of_wellFormed hthis _ _, hc, cloneTable_ok hm,
    by simp [value, copy, tableValue_cloneTable], rfl, by rw [copyAssign, hc]; rfl,
    by rw [moveAssign, hc]; rfl⟩

theorem lifecycle_local_m_raised :
    ((make 2 1).updateM 1 [((5 : ℤ) : Bound)]).1.move.2 = ⟨0, 0, []⟩ ∧
      ∃ r, (make 1 1).moveAssign ((make 2 1).updateM 1 [((5 : ℤ) : Bound)]).1 = some r ∧
        r.1.value = (2, 1, [[noBound], [((5 : ℤ) : Bound)]]) ∧ r.2 = ⟨0, 0, []⟩ :=
  have h := lifecycle_local_m (make 1 1) ((make 2 1).updateM 1 [((5 : ℤ) : Bound)]).1
    (make_spec 1 1).1 (updateEntry_ok (make_spec 2 1).1 (by decide) _) 0 0
  ⟨congrArg Prod.snd h.2.2.2.2.2.2.1, _, h.2.2.2.2.2.2.2.2, by decide, rfl⟩

end LocalMMap

end TChecker.Clockbounds
