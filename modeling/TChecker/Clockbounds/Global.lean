import TChecker.Clockbounds.Local

namespace TChecker.Clockbounds

def allocatePtr (clockNb : Nat) (old : Option Map) : Option Map :=
  if 0 < clockNb then some (clear (allocateMap clockNb)) else old

def clonePtr (clockNb : Nat) (p old : Option Map) : Option Map :=
  if 0 < clockNb then some (cloneMap (p.getD [])) else old

def PtrOk (clockNb : Nat) (p : Option Map) : Prop :=
  0 < clockNb → ∃ m, p = some m ∧ m.length = clockNb

def ptrValue (clockNb : Nat) (p : Option Map) : Option Map :=
  if 0 < clockNb then some (p.getD []) else none

theorem PtrOk.zero (p : Option Map) : PtrOk 0 p := fun h => absurd h (lt_irrefl 0)

theorem allocatePtr_ok (clockNb : Nat) (old : Option Map) :
    PtrOk clockNb (allocatePtr clockNb old) := fun hk =>
  ⟨_, if_pos hk, by simp⟩

theorem clonePtr_ok {clockNb : Nat} {p : Option Map} (hp : PtrOk clockNb p) (old : Option Map) :
    PtrOk clockNb (clonePtr clockNb p old) := fun hk => by
  obtain ⟨m, rfl, hm⟩ := hp hk
  exact ⟨_, if_pos hk, by simpa using hm⟩

theorem ptrValue_clonePtr (clockNb : Nat) (p old : Option Map) :
    ptrValue clockNb (clonePtr clockNb p old) = ptrValue clockNb p := by
  unfold ptrValue clonePtr
  split_ifs <;> simp

theorem ptrValue_allocatePtr (clockNb : Nat) (old : Option Map) :
    ptrValue clockNb (allocatePtr clockNb old) =
      if 0 < clockNb then some (List.replicate clockNb noBound) else none := by
  unfold ptrValue allocatePtr
  split_ifs <;> simp

structure GlobalLuMap where
  clockNb : Nat
  L : Option Map
  U : Option Map

structure GlobalMMap where
  clockNb : Nat
  M : Option Map

namespace GlobalLuMap

def WellFormed (m : GlobalLuMap) : Prop := PtrOk m.clockNb m.L ∧ PtrOk m.clockNb m.U

def value (m : GlobalLuMap) : Nat × Option Map × Option Map :=
  (m.clockNb, ptrValue m.clockNb m.L, ptrValue m.clockNb m.U)

def clear (m : GlobalLuMap) : GlobalLuMap := { m with clockNb := 0 }

def resize (m : GlobalLuMap) (clockNb : Nat) : GlobalLuMap :=
  { m.clear with clockNb := clockNb, L := allocatePtr clockNb m.clear.L,
                 U := allocatePtr clockNb m.clear.U }

def make (clockNb : Nat) : GlobalLuMap := resize ⟨0, none, none⟩ clockNb

def copy (m : GlobalLuMap) : GlobalLuMap :=
  ⟨m.clockNb, clonePtr m.clockNb m.L none, clonePtr m.clockNb m.U none⟩

def move (m : GlobalLuMap) : GlobalLuMap × GlobalLuMap := (⟨m.clockNb, m.L, m.U⟩, ⟨0, none, none⟩)

def copyAssign (this m : GlobalLuMap) : GlobalLuMap :=
  { this.clear with clockNb := m.clockNb, L := clonePtr m.clockNb m.L this.clear.L,
                    U := clonePtr m.clockNb m.U this.clear.U }

def moveAssign (this m : GlobalLuMap) : GlobalLuMap × GlobalLuMap :=
  ({ this.clear with clockNb := m.clockNb, L := m.L, U := m.U }, ⟨0, none, none⟩)

theorem resize_spec (m : GlobalLuMap) (clockNb : Nat) :
    (m.resize clockNb).WellFormed ∧
      (m.resize clockNb).value = (clockNb,
        if 0 < clockNb then some (List.replicate clockNb noBound) else none,
        if 0 < clockNb then some (List.replicate clockNb noBound) else none) :=
  ⟨⟨allocatePtr_ok _ _, allocatePtr_ok _ _⟩, by simp [value, resize, ptrValue_allocatePtr]⟩

theorem lifecycle_global_lu (this m : GlobalLuMap) (hm : m.WellFormed) (clockNb : Nat) :
    (make clockNb).WellFormed ∧ (this.resize clockNb).WellFormed ∧
      (this.resize clockNb).value = (clockNb,
        if 0 < clockNb then some (List.replicate clockNb noBound) else none,
        if 0 < clockNb then some (List.replicate clockNb noBound) else none) ∧
      this.clear.WellFormed ∧ m.copy.WellFormed ∧ m.copy.value = m.value ∧
      m.move.1.WellFormed ∧ m.move.2.WellFormed ∧ m.move.1.value = m.value ∧
      (this.copyAssign m).WellFormed ∧ (this.copyAssign m).value = m.value ∧
      (this.moveAssign m).1.WellFormed ∧ (this.moveAssign m).2.WellFormed ∧
      (this.moveAssign m).1.value = m.value := by
  refine ⟨(resize_spec _ _).1, (resize_spec _ _).1, (resize_spec _ _).2,
    ⟨PtrOk.zero _, PtrOk.zero _⟩, ⟨clonePtr_ok hm.1 _, clonePtr_ok hm.2 _⟩, ?_, hm,
    ⟨PtrOk.zero _, PtrOk.zero _⟩, rfl, ⟨clonePtr_ok hm.1 _, clonePtr_ok hm.2 _⟩, ?_, hm,
    ⟨PtrOk.zero _, PtrOk.zero _⟩, rfl⟩ <;>
  simp [value, copy, copyAssign, ptrValue_clonePtr]

theorem lifecycle_global_lu_raised :
    ((make 1).copyAssign ⟨2, some [((3 : ℤ) : Bound), noBound], some [noBound, ((5 : ℤ) : Bound)]⟩).value =
      (2, some [((3 : ℤ) : Bound), noBound], some [noBound, ((5 : ℤ) : Bound)]) :=
  (lifecycle_global_lu (make 1) ⟨2, some [((3 : ℤ) : Bound), noBound], some [noBound, ((5 : ℤ) : Bound)]⟩
    ⟨fun _ => ⟨_, rfl, rfl⟩, fun _ => ⟨_, rfl, rfl⟩⟩ 0).2.2.2.2.2.2.2.2.2.2.1

end GlobalLuMap

namespace GlobalMMap

def WellFormed (m : GlobalMMap) : Prop := PtrOk m.clockNb m.M

def value (m : GlobalMMap) : Nat × Option Map := (m.clockNb, ptrValue m.clockNb m.M)

def clear (_ : GlobalMMap) : GlobalMMap := ⟨0, none⟩

def resize (m : GlobalMMap) (clockNb : Nat) : GlobalMMap :=
  { m.clear with clockNb := clockNb, M := allocatePtr clockNb m.clear.M }

def make (clockNb : Nat) : GlobalMMap := resize ⟨0, none⟩ clockNb

def copy (m : GlobalMMap) : GlobalMMap := ⟨m.clockNb, clonePtr m.clockNb m.M none⟩

def move (m : GlobalMMap) : GlobalMMap × GlobalMMap := (⟨m.clockNb, m.M⟩, ⟨0, none⟩)

def copyAssign (this m : GlobalMMap) : GlobalMMap :=
  { this.clear with clockNb := m.clockNb, M := clonePtr m.clockNb m.M this.clear.M }

def moveAssign (this m : GlobalMMap) : GlobalMMap × GlobalMMap :=
  ({ this.clear with clockNb := m.clockNb, M := m.M }, ⟨0, none⟩)

theorem resize_spec (m : GlobalMMap) (clockNb : Nat) :
    (m.resize clockNb).WellFormed ∧
      (m.resize clockNb).value =
        (clockNb, if 0 < clockNb then some (List.replicate clockNb noBound) else none) :=
  ⟨allocatePtr_ok _ _, by simp [value, resize, ptrValue_allocatePtr]⟩

theorem lifecycle_global_m (this m : GlobalMMap) (hm : m.WellFormed) (clockNb : Nat) :
    (make clockNb).WellFormed ∧ (this.resize clockNb).WellFormed ∧
      (this.resize clockNb).value =
        (clockNb, if 0 < clockNb then some (List.replicate clockNb noBound) else none) ∧
      this.clear.WellFormed ∧ m.copy.WellFormed ∧ m.copy.value = m.value ∧
      m.move.1.WellFormed ∧ m.move.2.WellFormed ∧ m.move.1.value = m.value ∧
      (this.copyAssign m).WellFormed ∧ (this.copyAssign m).value = m.value ∧
      (this.moveAssign m).1.WellFormed ∧ (this.moveAssign m).2.WellFormed ∧
      (this.moveAssign m).1.value = m.value := by
  refine ⟨(resize_spec _ _).1, (resize_spec _ _).1, (resize_spec _ _).2, PtrOk.zero _,
    clonePtr_ok hm _, ?_, hm, PtrOk.zero _, rfl, clonePtr_ok hm _, ?_, hm, PtrOk.zero _, rfl⟩ <;>
  simp [value, copy, copyAssign, ptrValue_clonePtr]

theorem lifecycle_global_m_raised :
    ((make 1).copyAssign ⟨2, some [((3 : ℤ) : Bound), noBound]⟩).value =
      (2, some [((3 : ℤ) : Bound), noBound]) :=
  (lifecycle_global_m (make 1) ⟨2, some [((3 : ℤ) : Bound), noBound]⟩ (fun _ => ⟨_, rfl, rfl⟩)
    0).2.2.2.2.2.2.2.2.2.2.1

end GlobalMMap

structure ClockboundsT where
  globalLu : GlobalLuMap
  localLu : LocalLuMap
  globalM : GlobalMMap
  localM : LocalMMap

namespace ClockboundsT

def WellFormed (cb : ClockboundsT) : Prop :=
  cb.globalLu.WellFormed ∧ cb.localLu.WellFormed ∧ cb.globalM.WellFormed ∧ cb.localM.WellFormed

def value (cb : ClockboundsT) :
    (Nat × Option Map × Option Map) × (Nat × Nat × List Map × List Map) × (Nat × Option Map) ×
      (Nat × Nat × List Map) :=
  (cb.globalLu.value, cb.localLu.value, cb.globalM.value, cb.localM.value)

def make (locNb clockNb : Nat) : ClockboundsT :=
  ⟨GlobalLuMap.make clockNb, LocalLuMap.make locNb clockNb, GlobalMMap.make clockNb,
    LocalMMap.make locNb clockNb⟩

def clear (cb : ClockboundsT) : Option ClockboundsT := do
  let globalLu := cb.globalLu.clear
  let localLu ← cb.localLu.clear
  let globalM := cb.globalM.clear
  let localM ← cb.localM.clear
  pure ⟨globalLu, localLu, globalM, localM⟩

def resize (cb : ClockboundsT) (locNb clockNb : Nat) : Option ClockboundsT := do
  let globalLu := cb.globalLu.resize clockNb
  let localLu ← cb.localLu.resize locNb clockNb
  let globalM := cb.globalM.resize clockNb
  let localM ← cb.localM.resize locNb clockNb
  pure ⟨globalLu, localLu, globalM, localM⟩

theorem clear_of_wellFormed {cb : ClockboundsT} (hcb : cb.WellFormed) :
    cb.clear = some ⟨cb.globalLu.clear, ⟨0, 0, [], []⟩, cb.globalM.clear, ⟨0, 0, []⟩⟩ := by
  simp [clear, LocalLuMap.clear_of_wellFormed hcb.2.1, LocalMMap.clear_of_wellFormed hcb.2.2.2]

theorem resize_of_wellFormed {cb : ClockboundsT} (hcb : cb.WellFormed) (locNb clockNb : Nat) :
    cb.resize locNb clockNb = some ⟨cb.globalLu.resize clockNb, LocalLuMap.make locNb clockNb,
      cb.globalM.resize clockNb, LocalMMap.make locNb clockNb⟩ := by
  simp [resize, LocalLuMap.resize_of_wellFormed hcb.2.1, LocalMMap.resize_of_wellFormed hcb.2.2.2]

theorem clockbounds_resize (cb : ClockboundsT) (hcb : cb.WellFormed) (locNb clockNb : Nat) :
    (make locNb clockNb).WellFormed ∧
      (∃ c, cb.clear = some c ∧ c.WellFormed ∧
        c.value = ((0, none, none), (0, 0, [], []), (0, none), (0, 0, []))) ∧
      ∃ r, cb.resize locNb clockNb = some r ∧ r.WellFormed ∧ r.value = (make locNb clockNb).value := by
  have hmake : ∀ g : GlobalLuMap, ∀ h : GlobalMMap,
      (⟨g.resize clockNb, LocalLuMap.make locNb clockNb, h.resize clockNb,
        LocalMMap.make locNb clockNb⟩ : ClockboundsT).WellFormed := fun g h =>
    ⟨(g.resize_spec _).1, (LocalLuMap.make_spec _ _).1, (h.resize_spec _).1, (LocalMMap.make_spec _ _).1⟩
  refine ⟨hmake _ _, ⟨_, clear_of_wellFormed hcb, ⟨⟨PtrOk.zero _, PtrOk.zero _⟩,
    ⟨TableOk.empty _, TableOk.empty _⟩, PtrOk.zero _, TableOk.empty _⟩, rfl⟩,
    ⟨_, resize_of_wellFormed hcb _ _, hmake _ _, ?_⟩⟩
  simp only [value, make, GlobalLuMap.make, GlobalMMap.make, (GlobalLuMap.resize_spec cb.globalLu clockNb).2,
    (GlobalLuMap.resize_spec ⟨0, none, none⟩ clockNb).2, (GlobalMMap.resize_spec cb.globalM clockNb).2,
    (GlobalMMap.resize_spec ⟨0, none⟩ clockNb).2]

theorem clockbounds_resize_raised :
    ∃ r, (⟨GlobalLuMap.make 1, ((LocalLuMap.make 1 1).updateL 0 [((5 : ℤ) : Bound)]).1,
        GlobalMMap.make 1, LocalMMap.make 1 1⟩ : ClockboundsT).resize 2 1 = some r ∧
      r.value = (make 2 1).value :=
  let ⟨r, hr, _, hv⟩ := (clockbounds_resize ⟨GlobalLuMap.make 1,
    ((LocalLuMap.make 1 1).updateL 0 [((5 : ℤ) : Bound)]).1, GlobalMMap.make 1, LocalMMap.make 1 1⟩
    ⟨(GlobalLuMap.resize_spec _ _).1, ⟨updateEntry_ok (LocalLuMap.make_spec 1 1).1.1 (by decide) _,
      (LocalLuMap.make_spec 1 1).1.2⟩, (GlobalMMap.resize_spec _ _).1, (LocalMMap.make_spec 1 1).1⟩
    2 1).2.2
  ⟨r, hr, hv⟩

end ClockboundsT

end TChecker.Clockbounds
