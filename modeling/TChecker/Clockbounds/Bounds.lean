import TChecker.Clockbounds.Global

namespace TChecker.Clockbounds

def boundsFrom (out : Map) (srcs : List Map) : Map :=
  srcs.foldl (fun o src => (update o src).2) (clear out)

namespace LocalLuMap

def boundsLoc (m : LocalLuMap) (id : Nat) (L U : Map) : Map × Map :=
  (boundsFrom L [deref m.L id], boundsFrom U [deref m.U id])

def boundsVloc (m : LocalLuMap) (vloc : List Nat) (L U : Map) : Map × Map :=
  (boundsFrom L (vloc.map (deref m.L)), boundsFrom U (vloc.map (deref m.U)))

end LocalLuMap

namespace LocalMMap

def boundsLoc (m : LocalMMap) (id : Nat) (M : Map) : Map := boundsFrom M [deref m.M id]

def boundsVloc (m : LocalMMap) (vloc : List Nat) (M : Map) : Map :=
  boundsFrom M (vloc.map (deref m.M))

end LocalMMap

namespace GlobalLuMap

def bounds (m : GlobalLuMap) (L U : Map) : Map × Map :=
  (boundsFrom L [m.L.getD []], boundsFrom U [m.U.getD []])

def boundsLoc (m : GlobalLuMap) (_ : Nat) (L U : Map) : Map × Map := m.bounds L U

def boundsVloc (m : GlobalLuMap) (_ : List Nat) (L U : Map) : Map × Map := m.bounds L U

end GlobalLuMap

namespace GlobalMMap

def bounds (m : GlobalMMap) (M : Map) : Map := boundsFrom M [m.M.getD []]

def boundsLoc (m : GlobalMMap) (_ : Nat) (M : Map) : Map := m.bounds M

def boundsVloc (m : GlobalMMap) (_ : List Nat) (M : Map) : Map := m.bounds M

end GlobalMMap

theorem ext_getD {l₁ l₂ : Map} (h : l₁.length = l₂.length)
    (hx : ∀ x < l₁.length, l₁.getD x noBound = l₂.getD x noBound) : l₁ = l₂ :=
  List.ext_getElem h fun i h₁ h₂ => by
    simpa [getD_eq, List.getElem?_eq_getElem h₁, List.getElem?_eq_getElem h₂] using hx i h₁

theorem foldr_max_congr {l₁ l₂ : List Bound} (h : ∀ a, a ∈ l₁ ↔ a ∈ l₂) :
    l₁.foldr max noBound = l₂.foldr max noBound :=
  le_antisymm
    (List.max_le_of_forall_le _ _ fun _ ha => List.le_max_of_le ((h _).mp ha) le_rfl)
    (List.max_le_of_forall_le _ _ fun _ ha => List.le_max_of_le ((h _).mpr ha) le_rfl)

@[simp] theorem length_boundsFrom (out : Map) (srcs : List Map) :
    (boundsFrom out srcs).length = out.length := by
  suffices ∀ o : Map, (srcs.foldl (fun o src => (update o src).2) o).length = o.length by
    simpa [boundsFrom] using this (clear out)
  induction srcs with
  | nil => simp
  | cons s srcs ih => intro o; simp [ih]

theorem getD_foldl_update (srcs : List Map) (o : Map) {x : Nat} (hx : x < o.length) :
    (srcs.foldl (fun o src => (update o src).2) o).getD x noBound =
      max (o.getD x noBound) ((srcs.map (·.getD x noBound)).foldr max noBound) := by
  induction srcs generalizing o with
  | nil => simp
  | cons s srcs ih =>
    rw [List.foldl_cons, ih _ (by simpa using hx), getD_update o s hx, List.map_cons,
      List.foldr_cons, max_assoc]

theorem getD_boundsFrom (out : Map) (srcs : List Map) {x : Nat} (hx : x < out.length) :
    (boundsFrom out srcs).getD x noBound = (srcs.map (·.getD x noBound)).foldr max noBound := by
  rw [boundsFrom, getD_foldl_update _ _ (by simpa using hx)]
  simp [hx]

theorem boundsFrom_congr (out : Map) {srcs₁ srcs₂ : List Map} (h : ∀ s, s ∈ srcs₁ ↔ s ∈ srcs₂) :
    boundsFrom out srcs₁ = boundsFrom out srcs₂ :=
  ext_getD (by simp) fun x hx => by
    simp only [length_boundsFrom] at hx
    rw [getD_boundsFrom _ _ hx, getD_boundsFrom _ _ hx]
    exact foldr_max_congr fun a => by simp [h]

theorem getD_boundsFrom_map (out : Map) (f : Nat → Map) (vloc : List Nat) {x : Nat}
    (hx : x < out.length) :
    (boundsFrom out (vloc.map f)).getD x noBound =
      (vloc.map fun l => (boundsFrom out [f l]).getD x noBound).foldr max noBound := by
  simp only [getD_boundsFrom _ _ hx, List.map_map, List.map_cons, List.map_nil, List.foldr_cons,
    List.foldr_nil, max_noBound, Function.comp_def]

theorem boundsFrom_map_congr (out : Map) (f : Nat → Map) {vloc₁ vloc₂ : List Nat}
    (h : ∀ l, l ∈ vloc₁ ↔ l ∈ vloc₂) :
    boundsFrom out (vloc₁.map f) = boundsFrom out (vloc₂.map f) :=
  boundsFrom_congr out fun s => by simp [h]

theorem bounds_vloc_pointwise_max :
    (∀ m : LocalLuMap, m.WellFormed → 0 < m.clockNb →
      ∀ vloc : List Nat, (∀ l ∈ vloc, l < m.locNb) →
      ∀ L U : Map, L.length = m.clockNb → U.length = m.clockNb →
        (∀ x < m.clockNb,
          (m.boundsVloc vloc L U).1.getD x noBound =
              (vloc.map fun l => (m.boundsLoc l L U).1.getD x noBound).foldr max noBound ∧
            (m.boundsVloc vloc L U).2.getD x noBound =
              (vloc.map fun l => (m.boundsLoc l L U).2.getD x noBound).foldr max noBound) ∧
          ∀ vloc' : List Nat, (∀ l, l ∈ vloc' ↔ l ∈ vloc) →
            m.boundsVloc vloc' L U = m.boundsVloc vloc L U) ∧
    (∀ m : LocalMMap, m.WellFormed → 0 < m.clockNb →
      ∀ vloc : List Nat, (∀ l ∈ vloc, l < m.locNb) →
      ∀ M : Map, M.length = m.clockNb →
        (∀ x < m.clockNb,
          (m.boundsVloc vloc M).getD x noBound =
            (vloc.map fun l => (m.boundsLoc l M).getD x noBound).foldr max noBound) ∧
          ∀ vloc' : List Nat, (∀ l, l ∈ vloc' ↔ l ∈ vloc) →
            m.boundsVloc vloc' M = m.boundsVloc vloc M) := by
  refine ⟨fun m _ _ vloc _ L U hL hU => ⟨fun x hx => ⟨?_, ?_⟩, fun vloc' h => ?_⟩,
    fun m _ _ vloc _ M hM => ⟨fun x hx => ?_, fun vloc' h => ?_⟩⟩
  · exact getD_boundsFrom_map _ _ _ (hL ▸ hx)
  · exact getD_boundsFrom_map _ _ _ (hU ▸ hx)
  · simp only [LocalLuMap.boundsVloc, boundsFrom_map_congr _ _ h]
  · exact getD_boundsFrom_map _ _ _ (hM ▸ hx)
  · exact boundsFrom_map_congr _ _ h

def raisedTable : List (Option Map) :=
  [some [((1 : ℤ) : Bound), noBound], some [noBound, ((4 : ℤ) : Bound)],
    some [((3 : ℤ) : Bound), ((2 : ℤ) : Bound)]]

theorem raisedTable_ok : TableOk 3 2 raisedTable :=
  ⟨rfl, fun _ p hp => by
    simp only [raisedTable, List.mem_cons, List.not_mem_nil, or_false] at hp
    rcases hp with rfl | rfl | rfl <;> exact ⟨_, rfl, rfl⟩⟩

theorem bounds_vloc_pointwise_max_make :
    ((⟨3, 2, raisedTable⟩ : LocalMMap).boundsVloc [0, 1, 2] [noBound, noBound]).getD 0 noBound =
        ([0, 1, 2].map fun l =>
          ((⟨3, 2, raisedTable⟩ : LocalMMap).boundsLoc l [noBound, noBound]).getD 0 noBound).foldr
          max noBound ∧
      ((⟨3, 2, raisedTable, raisedTable⟩ : LocalLuMap).boundsVloc [2, 1] [noBound, noBound]
          [noBound, noBound]).2.getD 1 noBound =
        ([2, 1].map fun l => ((⟨3, 2, raisedTable, raisedTable⟩ : LocalLuMap).boundsLoc l
          [noBound, noBound] [noBound, noBound]).2.getD 1 noBound).foldr max noBound ∧
      (⟨3, 2, raisedTable⟩ : LocalMMap).boundsVloc [0, 1, 2] [noBound, noBound] =
        [((3 : ℤ) : Bound), ((4 : ℤ) : Bound)] :=
  ⟨(bounds_vloc_pointwise_max.2 ⟨3, 2, raisedTable⟩ raisedTable_ok (by decide) [0, 1, 2] (by decide) [noBound, noBound] rfl).1 0
      (by decide),
    ((bounds_vloc_pointwise_max.1 ⟨3, 2, raisedTable, raisedTable⟩ ⟨raisedTable_ok, raisedTable_ok⟩ (by decide) [2, 1] (by decide)
      [noBound, noBound] [noBound, noBound] rfl rfl).1 1 (by decide)).2, by decide⟩

theorem boundsFrom_single {out src : Map} (h : out.length = src.length) :
    boundsFrom out [src] = src :=
  ext_getD (by simp [h]) fun x hx => by
    rw [getD_boundsFrom _ _ (by simpa using hx)]
    simp

theorem bounds_copy_stored :
    (∀ m : LocalLuMap, m.WellFormed → 0 < m.clockNb → ∀ id < m.locNb, ∀ L U : Map,
      L.length = m.clockNb → U.length = m.clockNb →
        m.boundsLoc id L U = (deref m.L id, deref m.U id)) ∧
    (∀ m : LocalMMap, m.WellFormed → 0 < m.clockNb → ∀ id < m.locNb, ∀ M : Map,
      M.length = m.clockNb → m.boundsLoc id M = deref m.M id) ∧
    (∀ m : GlobalLuMap, m.WellFormed → 0 < m.clockNb → ∀ L U : Map,
      L.length = m.clockNb → U.length = m.clockNb → ∀ id vloc,
        m.bounds L U = (m.L.getD [], m.U.getD []) ∧ m.boundsLoc id L U = (m.L.getD [], m.U.getD []) ∧
          m.boundsVloc vloc L U = (m.L.getD [], m.U.getD [])) ∧
    ∀ m : GlobalMMap, m.WellFormed → 0 < m.clockNb → ∀ M : Map, M.length = m.clockNb → ∀ id vloc,
      m.bounds M = m.M.getD [] ∧ m.boundsLoc id M = m.M.getD [] ∧ m.boundsVloc vloc M = m.M.getD [] := by
  refine ⟨fun m hm hk id hid L U hL hU => ?_, fun m hm hk id hid M hM => ?_,
    fun m hm hk L U hL hU _ _ => ?_, fun m hm hk M hM _ _ => ?_⟩
  · simp only [LocalLuMap.boundsLoc, boundsFrom_single (hL.trans (hm.1.deref_length hk hid).symm),
      boundsFrom_single (hU.trans (hm.2.deref_length hk hid).symm)]
  · exact boundsFrom_single (hM.trans (hm.deref_length hk hid).symm)
  · obtain ⟨mL, hmL, hlL⟩ := hm.1 hk
    obtain ⟨mU, hmU, hlU⟩ := hm.2 hk
    have h : m.bounds L U = (m.L.getD [], m.U.getD []) := by
      simp only [GlobalLuMap.bounds, hmL, hmU, Option.getD_some,
        boundsFrom_single (hL.trans hlL.symm), boundsFrom_single (hU.trans hlU.symm)]
    exact ⟨h, h, h⟩
  · obtain ⟨mM, hmM, hlM⟩ := hm hk
    have h : m.bounds M = m.M.getD [] := by
      simp only [GlobalMMap.bounds, hmM, Option.getD_some, boundsFrom_single (hM.trans hlM.symm)]
    exact ⟨h, h, h⟩

theorem bounds_copy_stored_raised :
    (⟨3, 2, raisedTable, raisedTable⟩ : LocalLuMap).boundsLoc 1 [((7 : ℤ) : Bound), ((7 : ℤ) : Bound)]
        [((7 : ℤ) : Bound), noBound] =
      ([noBound, ((4 : ℤ) : Bound)], [noBound, ((4 : ℤ) : Bound)]) :=
  bounds_copy_stored.1 ⟨3, 2, raisedTable, raisedTable⟩ ⟨raisedTable_ok, raisedTable_ok⟩ (by decide) 1 (by decide)
    [((7 : ℤ) : Bound), ((7 : ℤ) : Bound)] [((7 : ℤ) : Bound), noBound] rfl rfl

end TChecker.Clockbounds
