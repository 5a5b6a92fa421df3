import TChecker.Clockbounds.Map

/-!
States of the zone graph with reference clocks (`refzg/state.cc`): a tuple of locations, a
valuation of the bounded integer variables and a zone, each held through a shared pointer. The
`shared_` relations compare zones by address before they compare them by content.
-/

namespace TChecker.Refzg

open TChecker.Clockbounds (Map)

structure SharedPtr (α : Type) where
  ptr : Nat
  val : α

def SharedPtr.HashConsed {α : Type} (p q : SharedPtr α) : Prop := p.ptr = q.ptr ↔ p.val = q.val

instance {α : Type} [DecidableEq α] (p q : SharedPtr α) : Decidable (p.HashConsed q) :=
  inferInstanceAs (Decidable (_ ↔ _))

structure State (V I Z : Type) where
  vloc : SharedPtr V
  intval : SharedPtr I
  zone : SharedPtr Z

/-- The relations of `refzg::zone_t` that `state.cc` calls (`zone.cc`, not in src). -/
structure ZoneRel (Z : Type) where
  le : Z → Z → Bool
  isAluStarLe : Z → Z → Map → Map → Bool
  isTimeElapseAluStarLe : Z → Z → Map → Map → Bool
  isSyncAluLe : Z → Z → Map → Map → Bool

def ZoneRel.Reflexive {Z : Type} (zr : ZoneRel Z) : Prop :=
  (∀ z, zr.le z z) ∧ (∀ z l u, zr.isAluStarLe z z l u) ∧ (∀ z l u, zr.isTimeElapseAluStarLe z z l u) ∧
    ∀ z l u, zr.isSyncAluLe z z l u

variable {V I Z : Type} [DecidableEq V] [DecidableEq I] [DecidableEq Z]

def State.HashConsed (s₁ s₂ : State V I Z) : Prop :=
  s₁.vloc.HashConsed s₂.vloc ∧ s₁.intval.HashConsed s₂.intval ∧ s₁.zone.HashConsed s₂.zone

instance (s₁ s₂ : State V I Z) : Decidable (s₁.HashConsed s₂) :=
  inferInstanceAs (Decidable (_ ∧ _ ∧ _))

/-- Modelled from the spec: `ta::operator==` (`ta/state.cc`, not in src) compares the tuples of
locations and the valuations by content. -/
def taEq (s₁ s₂ : State V I Z) : Bool := s₁.vloc.val = s₂.vloc.val && s₁.intval.val = s₂.intval.val

/-- Modelled from the spec: `ta::shared_equal_to` (`ta/state.cc`, not in src) compares the shared
tuples of locations and valuations by address. -/
def taSharedEqualTo (s₁ s₂ : State V I Z) : Bool :=
  s₁.vloc.ptr == s₂.vloc.ptr && s₁.intval.ptr == s₂.intval.ptr

def eq (s₁ s₂ : State V I Z) : Bool := taEq s₁ s₂ && s₁.zone.val = s₂.zone.val

def sharedEqualTo (s₁ s₂ : State V I Z) : Bool :=
  taSharedEqualTo s₁ s₂ && s₁.zone.ptr == s₂.zone.ptr

def structuralLe (rel : Z → Z → Bool) (s₁ s₂ : State V I Z) : Bool :=
  taEq s₁ s₂ && rel s₁.zone.val s₂.zone.val

def sharedLe (rel : Z → Z → Bool) (s₁ s₂ : State V I Z) : Bool :=
  taSharedEqualTo s₁ s₂ && (s₁.zone.ptr == s₂.zone.ptr || rel s₁.zone.val s₂.zone.val)

def le (zr : ZoneRel Z) (s₁ s₂ : State V I Z) : Bool := structuralLe zr.le s₁ s₂

def sharedIsLe (zr : ZoneRel Z) (s₁ s₂ : State V I Z) : Bool := sharedLe zr.le s₁ s₂

def isAluStarLe (zr : ZoneRel Z) (s₁ s₂ : State V I Z) (l u : Map) : Bool :=
  structuralLe (fun z₁ z₂ => zr.isAluStarLe z₁ z₂ l u) s₁ s₂

def sharedIsAluStarLe (zr : ZoneRel Z) (s₁ s₂ : State V I Z) (l u : Map) : Bool :=
  sharedLe (fun z₁ z₂ => zr.isAluStarLe z₁ z₂ l u) s₁ s₂

def isTimeElapseAluStarLe (zr : ZoneRel Z) (s₁ s₂ : State V I Z) (l u : Map) : Bool :=
  structuralLe (fun z₁ z₂ => zr.isTimeElapseAluStarLe z₁ z₂ l u) s₁ s₂

def sharedIsTimeElapseAluStarLe (zr : ZoneRel Z) (s₁ s₂ : State V I Z) (l u : Map) : Bool :=
  sharedLe (fun z₁ z₂ => zr.isTimeElapseAluStarLe z₁ z₂ l u) s₁ s₂

def isSyncAluLe (zr : ZoneRel Z) (s₁ s₂ : State V I Z) (l u : Map) : Bool :=
  structuralLe (fun z₁ z₂ => zr.isSyncAluLe z₁ z₂ l u) s₁ s₂

def sharedIsSyncAluLe (zr : ZoneRel Z) (s₁ s₂ : State V I Z) (l u : Map) : Bool :=
  sharedLe (fun z₁ z₂ => zr.isSyncAluLe z₁ z₂ l u) s₁ s₂

theorem ptr_beq_eq {α : Type} [DecidableEq α] {p q : SharedPtr α} (h : p.HashConsed q) :
    (p.ptr == q.ptr) = decide (p.val = q.val) := by
  by_cases hp : p.ptr = q.ptr
  · simp [hp, h.mp hp]
  · simp [hp, mt h.mpr hp]

omit [DecidableEq Z] in
theorem taSharedEqualTo_eq_taEq {s₁ s₂ : State V I Z} (h : s₁.HashConsed s₂) :
    taSharedEqualTo s₁ s₂ = taEq s₁ s₂ := by
  simp only [taSharedEqualTo, taEq, ptr_beq_eq h.1, ptr_beq_eq h.2.1]

theorem sharedEqualTo_eq_eq {s₁ s₂ : State V I Z} (h : s₁.HashConsed s₂) :
    sharedEqualTo s₁ s₂ = eq s₁ s₂ := by
  simp only [sharedEqualTo, eq, taSharedEqualTo_eq_taEq h, ptr_beq_eq h.2.2]

theorem sharedLe_eq_structuralLe {rel : Z → Z → Bool} (hrel : ∀ z, rel z z)
    {s₁ s₂ : State V I Z} (h : s₁.HashConsed s₂) : sharedLe rel s₁ s₂ = structuralLe rel s₁ s₂ := by
  simp only [sharedLe, structuralLe, taSharedEqualTo_eq_taEq h, ptr_beq_eq h.2.2]
  by_cases hz : s₁.zone.val = s₂.zone.val
  · simp [hz, hrel]
  · simp [hz]

theorem shared_relations_agree (zr : ZoneRel Z) (hzr : zr.Reflexive) (s₁ s₂ : State V I Z)
    (h : s₁.HashConsed s₂) (l u : Map) :
    sharedEqualTo s₁ s₂ = eq s₁ s₂ ∧ sharedIsLe zr s₁ s₂ = le zr s₁ s₂ ∧
      sharedIsAluStarLe zr s₁ s₂ l u = isAluStarLe zr s₁ s₂ l u ∧
      sharedIsTimeElapseAluStarLe zr s₁ s₂ l u = isTimeElapseAluStarLe zr s₁ s₂ l u ∧
      sharedIsSyncAluLe zr s₁ s₂ l u = isSyncAluLe zr s₁ s₂ l u :=
  ⟨sharedEqualTo_eq_eq h, sharedLe_eq_structuralLe hzr.1 h,
    sharedLe_eq_structuralLe (fun z => hzr.2.1 z l u) h,
    sharedLe_eq_structuralLe (fun z => hzr.2.2.1 z l u) h,
    sharedLe_eq_structuralLe (fun z => hzr.2.2.2 z l u) h⟩

theorem shared_relations_agree_distinct_zones :
    let zr : ZoneRel (List Int) := ⟨fun _ _ => true, fun _ _ _ _ => true, fun _ _ _ _ => true,
      fun _ _ _ _ => true⟩
    let s₁ : State (List Nat) (List Int) (List Int) := ⟨⟨0, [0]⟩, ⟨1, [2]⟩, ⟨2, [3]⟩⟩
    let s₂ : State (List Nat) (List Int) (List Int) := ⟨⟨0, [0]⟩, ⟨1, [2]⟩, ⟨4, [5]⟩⟩
    zr.Reflexive ∧ s₁.HashConsed s₂ ∧ sharedIsLe zr s₁ s₂ = le zr s₁ s₂ ∧
      sharedEqualTo s₁ s₂ = eq s₁ s₂ :=
  have hzr : ZoneRel.Reflexive (⟨fun _ _ => true, fun _ _ _ _ => true, fun _ _ _ _ => true,
      fun _ _ _ _ => true⟩ : ZoneRel (List Int)) :=
    ⟨fun _ => rfl, fun _ _ _ => rfl, fun _ _ _ => rfl, fun _ _ _ => rfl⟩
  have hc : State.HashConsed (⟨⟨0, [0]⟩, ⟨1, [2]⟩, ⟨2, [3]⟩⟩ : State (List Nat) (List Int) (List Int))
      ⟨⟨0, [0]⟩, ⟨1, [2]⟩, ⟨4, [5]⟩⟩ := by decide
  ⟨hzr, hc, (shared_relations_agree _ hzr _ _ hc [] []).2.1, (shared_relations_agree _ hzr _ _ hc [] []).1⟩

theorem le_preorder (zr : ZoneRel Z) (hrefl : ∀ z, zr.le z z = true)
    (htrans : ∀ z₁ z₂ z₃, zr.le z₁ z₂ = true → zr.le z₂ z₃ = true → zr.le z₁ z₃ = true)
    (s₁ s₂ s₃ : State V I Z) :
    le zr s₁ s₁ = true ∧ (le zr s₁ s₂ = true → le zr s₂ s₃ = true → le zr s₁ s₃ = true) ∧
      (eq s₁ s₂ = true → le zr s₁ s₂ = true) := by
  simp only [le, structuralLe, eq, taEq, Bool.and_eq_true, decide_eq_true_eq]
  exact ⟨⟨⟨trivial, trivial⟩, hrefl _⟩, fun h₁₂ h₂₃ => ⟨⟨h₁₂.1.1.trans h₂₃.1.1, h₁₂.1.2.trans h₂₃.1.2⟩,
    htrans _ _ _ h₁₂.2 h₂₃.2⟩, fun h => ⟨h.1, h.2 ▸ hrefl _⟩⟩

theorem le_preorder_numbers :
    le ⟨fun a b => decide (a ≤ b), fun _ _ _ _ => true, fun _ _ _ _ => true, fun _ _ _ _ => true⟩
      (⟨⟨0, ()⟩, ⟨1, ()⟩, ⟨2, 1⟩⟩ : State Unit Unit Nat) ⟨⟨3, ()⟩, ⟨4, ()⟩, ⟨5, 3⟩⟩ = true :=
  (le_preorder ⟨fun a b => decide (a ≤ b), fun _ _ _ _ => true, fun _ _ _ _ => true,
      fun _ _ _ _ => true⟩ (fun z => decide_eq_true (le_refl z))
    (fun _ _ _ h₁ h₂ => decide_eq_true ((of_decide_eq_true h₁).trans (of_decide_eq_true h₂)))
    (⟨⟨0, ()⟩, ⟨1, ()⟩, ⟨2, 1⟩⟩ : State Unit Unit Nat) ⟨⟨6, ()⟩, ⟨7, ()⟩, ⟨8, 2⟩⟩
      ⟨⟨3, ()⟩, ⟨4, ()⟩, ⟨5, 3⟩⟩).2.1 (by decide) (by decide)

structure ThreeWay {α : Type} (cmp : α → α → Int) (eq : α → α → Prop) : Prop where
  zero_iff : ∀ a b, cmp a b = 0 ↔ eq a b
  swap : ∀ a b, 0 < cmp a b ↔ cmp b a < 0
  trans : ∀ a b c, cmp a b ≤ 0 → cmp b c ≤ 0 → cmp a c ≤ 0

section ThreeWay

variable {α : Type} {cmp : α → α → Int} {r : α → α → Prop} (h : ThreeWay cmp r)
include h

theorem ThreeWay.zero_symm {a b : α} (hab : cmp a b = 0) : cmp b a = 0 := by
  have h₁ := h.swap a b
  have h₂ := h.swap b a
  omega

theorem ThreeWay.lt_of_lt_of_le {a b c : α} (hab : cmp a b < 0) (hbc : cmp b c ≤ 0) :
    cmp a c < 0 := by
  have hac := h.trans a b c hab.le hbc
  refine lt_of_le_of_ne hac fun hac' => ?_
  have hba := h.trans b c a hbc (h.zero_symm hac').le
  have := (h.swap b a).mpr hab
  omega

theorem ThreeWay.lt_of_le_of_lt {a b c : α} (hab : cmp a b ≤ 0) (hbc : cmp b c < 0) :
    cmp a c < 0 := by
  have hac := h.trans a b c hab hbc.le
  refine lt_of_le_of_ne hac fun hac' => ?_
  have hcb := h.trans c a b (h.zero_symm hac').le hab
  have := (h.swap c b).mpr hbc
  omega

theorem ThreeWay.zero_trans {a b c : α} (hab : cmp a b = 0) (hbc : cmp b c = 0) : cmp a c = 0 := by
  have hac := h.trans a b c hab.le hbc.le
  have hca := h.trans c b a (h.zero_symm hbc).le (h.zero_symm hab).le
  have := h.swap c a
  omega

end ThreeWay

omit [DecidableEq V] [DecidableEq I] [DecidableEq Z] in
/-- `lexical_cmp`: the `ta` parts first (`ta::lexical_cmp`, in `ta/state.cc`, not in src), then the
zones by content (`zone_t::lexical_cmp`, not in src); both are parameters. -/
def lexicalCmp (taLexicalCmp : State V I Z → State V I Z → Int) (zoneLexicalCmp : Z → Z → Int)
    (s₁ s₂ : State V I Z) : Int :=
  let taCmp := taLexicalCmp s₁ s₂
  if taCmp ≠ 0 then taCmp else zoneLexicalCmp s₁.zone.val s₂.zone.val

section LexicalCmp

variable {taLexicalCmp : State V I Z → State V I Z → Int} {zoneLexicalCmp : Z → Z → Int}

omit [DecidableEq V] [DecidableEq I] [DecidableEq Z] in
theorem lexicalCmp_of_ne {s₁ s₂ : State V I Z} (h : taLexicalCmp s₁ s₂ ≠ 0) :
    lexicalCmp taLexicalCmp zoneLexicalCmp s₁ s₂ = taLexicalCmp s₁ s₂ := if_pos h

omit [DecidableEq V] [DecidableEq I] [DecidableEq Z] in
theorem lexicalCmp_of_eq {s₁ s₂ : State V I Z} (h : taLexicalCmp s₁ s₂ = 0) :
    lexicalCmp taLexicalCmp zoneLexicalCmp s₁ s₂ = zoneLexicalCmp s₁.zone.val s₂.zone.val :=
  if_neg (not_not.mpr h)

omit [DecidableEq V] [DecidableEq I] [DecidableEq Z] in
theorem lexicalCmp_nonpos_iff {s₁ s₂ : State V I Z} :
    lexicalCmp taLexicalCmp zoneLexicalCmp s₁ s₂ ≤ 0 ↔ taLexicalCmp s₁ s₂ < 0 ∨
      taLexicalCmp s₁ s₂ = 0 ∧ zoneLexicalCmp s₁.zone.val s₂.zone.val ≤ 0 := by
  by_cases h₀ : taLexicalCmp s₁ s₂ = 0
  · simp [lexicalCmp_of_eq h₀, h₀]
  · rw [lexicalCmp_of_ne h₀]
    omega

theorem lexical_cmp_three_way (hta : ThreeWay taLexicalCmp fun s₁ s₂ => taEq s₁ s₂ = true)
    (hz : ThreeWay zoneLexicalCmp Eq) :
    ThreeWay (lexicalCmp taLexicalCmp zoneLexicalCmp) fun s₁ s₂ => eq s₁ s₂ = true := by
  refine ⟨fun a b => ?_, fun a b => ?_, fun a b c hab hbc => ?_⟩
  · by_cases h₀ : taLexicalCmp a b = 0
    · rw [lexicalCmp_of_eq h₀, hz.zero_iff, eq, (hta.zero_iff a b).mp h₀]
      simp
    · rw [lexicalCmp_of_ne h₀, eq, (Bool.eq_false_iff.mpr (mt (hta.zero_iff a b).mpr h₀))]
      simpa using h₀
  · by_cases h₀ : taLexicalCmp a b = 0
    · rw [lexicalCmp_of_eq h₀, lexicalCmp_of_eq (hta.zero_symm h₀)]
      exact hz.swap _ _
    · rw [lexicalCmp_of_ne h₀, lexicalCmp_of_ne (mt hta.zero_symm h₀)]
      exact hta.swap a b
  · rw [lexicalCmp_nonpos_iff] at hab hbc ⊢
    rcases hab with hab | ⟨hab, hab'⟩ <;> rcases hbc with hbc | ⟨hbc, hbc'⟩
    · exact .inl (hta.lt_of_lt_of_le hab hbc.le)
    · exact .inl (hta.lt_of_lt_of_le hab hbc.le)
    · exact .inl (hta.lt_of_le_of_lt hab.le hbc)
    · exact .inr ⟨hta.zero_trans hab hbc, hz.trans _ _ _ hab' hbc'⟩

end LexicalCmp

theorem lexical_cmp_three_way_numbers :
    lexicalCmp (fun _ _ => 0) (fun a b : Nat => (a : Int) - b)
      (⟨⟨0, ()⟩, ⟨1, ()⟩, ⟨2, 3⟩⟩ : State Unit Unit Nat) ⟨⟨4, ()⟩, ⟨5, ()⟩, ⟨6, 3⟩⟩ = 0 :=
  have hta : ThreeWay (fun _ _ => 0) fun s₁ s₂ : State Unit Unit Nat => taEq s₁ s₂ = true :=
    ⟨fun _ _ => by simp [taEq], fun _ _ => Iff.rfl, fun _ _ _ _ _ => le_rfl⟩
  have hz : ThreeWay (fun a b : Nat => (a : Int) - b) Eq :=
    ⟨fun _ _ => by omega, fun _ _ => by omega, fun _ _ _ _ _ => by omega⟩
  ((lexical_cmp_three_way hta hz).zero_iff _ _).mpr (by decide)

omit [DecidableEq V] [DecidableEq I] [DecidableEq Z] in
/-- `hash_value`: the hash of the `ta` part (`ta::hash_value`, not in src) combined by
`boost::hash_combine` with the hash of the zone's content; the three are parameters. -/
def hashValue (taHashValue : State V I Z → Nat) (zoneHash : Z → Nat) (hashCombine : Nat → Nat → Nat)
    (s : State V I Z) : Nat :=
  hashCombine (taHashValue s) (zoneHash s.zone.val)

omit [DecidableEq V] [DecidableEq I] [DecidableEq Z] in
/-- `shared_hash_value`: the shared hash of the `ta` part (`ta::shared_hash_value`, not in src)
combined with the hash of the zone's address. -/
def sharedHashValue (taSharedHashValue : State V I Z → Nat) (ptrHash : Nat → Nat)
    (hashCombine : Nat → Nat → Nat) (s : State V I Z) : Nat :=
  hashCombine (taSharedHashValue s) (ptrHash s.zone.ptr)

theorem hash_value_agrees {taHashValue taSharedHashValue : State V I Z → Nat} {zoneHash : Z → Nat}
    {ptrHash : Nat → Nat} {hashCombine : Nat → Nat → Nat}
    (hta : ∀ s₁ s₂, taEq s₁ s₂ = true → taHashValue s₁ = taHashValue s₂)
    (hsh : ∀ s₁ s₂, taSharedEqualTo s₁ s₂ = true → taSharedHashValue s₁ = taSharedHashValue s₂)
    (s₁ s₂ : State V I Z) :
    (eq s₁ s₂ = true →
        hashValue taHashValue zoneHash hashCombine s₁ = hashValue taHashValue zoneHash hashCombine s₂) ∧
      (sharedEqualTo s₁ s₂ = true → sharedHashValue taSharedHashValue ptrHash hashCombine s₁ =
        sharedHashValue taSharedHashValue ptrHash hashCombine s₂) ∧
      (s₁.HashConsed s₂ → eq s₁ s₂ = true → sharedHashValue taSharedHashValue ptrHash hashCombine s₁ =
        sharedHashValue taSharedHashValue ptrHash hashCombine s₂) := by
  have hshared : sharedEqualTo s₁ s₂ = true → sharedHashValue taSharedHashValue ptrHash hashCombine s₁ =
      sharedHashValue taSharedHashValue ptrHash hashCombine s₂ := fun h => by
    simp only [sharedEqualTo, Bool.and_eq_true, beq_iff_eq] at h
    simp only [sharedHashValue, hsh s₁ s₂ h.1, h.2]
  refine ⟨fun h => ?_, hshared, fun hc h => hshared (by rwa [sharedEqualTo_eq_eq hc])⟩
  simp only [eq, Bool.and_eq_true, decide_eq_true_eq] at h
  simp only [hashValue, hta s₁ s₂ h.1, h.2]

theorem hash_value_agrees_numbers :
    hashValue (fun _ => 0) id (· + ·) (⟨⟨0, ()⟩, ⟨1, ()⟩, ⟨2, 3⟩⟩ : State Unit Unit Nat) =
      hashValue (fun _ => 0) id (· + ·) (⟨⟨4, ()⟩, ⟨5, ()⟩, ⟨6, 3⟩⟩ : State Unit Unit Nat) :=
  (@hash_value_agrees Unit Unit Nat _ _ _ (fun _ => 0) (fun _ => 0) id id (· + ·)
    (fun _ _ _ => rfl) (fun _ _ _ => rfl) _ _).1 (by decide)

end TChecker.Refzg
