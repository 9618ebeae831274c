import DesignTokens.Proofs.NearestNumbers

set_option autoImplicit false

namespace DesignTokens

namespace Binary64

theorem signed_zero (negative : Bool) : signed negative 0 = 0 := by cases negative <;> rfl

theorem natAbs_signed (negative : Bool) (u : ℕ) : (signed negative u).natAbs = u := by
  cases negative <;> simp [signed]

theorem signed_not (negative : Bool) (u : ℕ) : signed (!negative) u = -signed negative u := by
  cases negative <;> simp [signed]

def place : Binary64 → ℤ
  | .finite negative u _ => signed negative u
  | .infinite negative => signed negative limit
  | .nan => 0

theorem position?_eq (a : Binary64) : a.position? = if a = .nan then none else some a.place := by
  cases a with
  | nan => rfl
  | finite negative u h =>
    rw [if_neg nofun]
    rfl
  | infinite negative =>
    rw [if_neg nofun]
    unfold position? place limit
    rfl

theorem le_iff (a b : Binary64) : a ≤ b ↔ a ≠ .nan ∧ b ≠ .nan ∧ a.place ≤ b.place := by
  change atMost a b = true ↔ _
  rw [atMost, position?_eq, position?_eq]
  split_ifs <;> simp [*]

theorem lt_iff (a b : Binary64) : a < b ↔ a ≠ .nan ∧ b ≠ .nan ∧ a.place < b.place := by
  change less a b = true ↔ _
  rw [less, position?_eq, position?_eq]
  split_ifs <;> simp [*]

theorem lt_of_not_le {a b : Binary64} (ha : a ≠ .nan) (hb : b ≠ .nan) (more : ¬ b ≤ a) : a < b := by
  rw [le_iff] at more
  rw [lt_iff]
  refine ⟨ha, hb, ?_⟩
  by_contra other
  exact more ⟨hb, ha, by omega⟩

theorem le_of_not_lt {a b : Binary64} (ha : a ≠ .nan) (hb : b ≠ .nan) (more : ¬ a < b) : b ≤ a := by
  rw [lt_iff] at more
  rw [le_iff]
  refine ⟨hb, ha, ?_⟩
  by_contra other
  exact more ⟨ha, hb, by omega⟩

theorem lt_trans {a b c : Binary64} (ab : a < b) (bc : b < c) : a < c := by
  rw [lt_iff] at *
  exact ⟨ab.1, bc.2.1, ab.2.2.trans bc.2.2⟩

theorem place_zero : (0 : Binary64).place = 0 := by decide +kernel

theorem exists_units {x : Binary64} (finite : x.isFinite = true) (positive : 0 < x) :
    ∃ u h, x = .finite false u h ∧ u ≠ 0 := by
  obtain ⟨_, _, places⟩ := (lt_iff 0 x).mp positive
  rw [place_zero] at places
  cases x with
  | finite negative u h =>
    cases negative
    · refine ⟨u, h, rfl, ?_⟩
      rintro rfl
      simp [place, signed] at places
    · simp only [place, signed, if_true] at places
      omega
  | infinite negative => simp [isFinite] at finite
  | nan => simp [isFinite] at finite

theorem ne_nan_of_isFinite {x : Binary64} (finite : x.isFinite = true) : x ≠ .nan := by
  rintro rfl
  simp [isFinite] at finite

instance : Trans (α := Binary64) (· < ·) (· < ·) (· < ·) := ⟨lt_trans⟩

theorem ne_of_lt {a b : Binary64} (less : a < b) : a ≠ b := by
  rintro rfl
  exact absurd ((lt_iff a a).mp less).2.2 (by omega)

theorem not_le_of_lt {a b : Binary64} (less : a < b) : ¬ b ≤ a := by
  rw [lt_iff] at less
  rw [le_iff]
  rintro ⟨_, _, le⟩
  omega

theorem eq_of_place_eq {a b : Binary64} (ha : a ≠ .nan) (hb : b ≠ .nan) (solid : a.isZero = false)
    (same : a.place = b.place) : a = b := by
  have sizes := congrArg Int.natAbs same
  have positive := limit_pos
  cases a with
  | nan => exact absurd rfl ha
  | finite s u hu =>
    have bounded := lt_limit hu
    have nonzero : u ≠ 0 := by simpa [isZero] using solid
    cases b with
    | nan => exact absurd rfl hb
    | finite t v hv =>
      simp only [place, natAbs_signed] at sizes
      subst sizes
      cases s <;> cases t <;> simp [place, signed] at same ⊢ <;> omega
    | infinite t =>
      simp only [place, natAbs_signed] at sizes
      omega
  | infinite s =>
    cases b with
    | nan => exact absurd rfl hb
    | finite t v hv =>
      have bounded := lt_limit hv
      simp only [place, natAbs_signed] at sizes
      omega
    | infinite t => cases s <;> cases t <;> simp [place, signed] at same ⊢ <;> omega

theorem nearest_ne_nan (negative : Bool) (num den : ℕ) : nearest negative num den ≠ .nan := by
  rw [nearest_def]
  split <;> simp

theorem place_nearest_nonneg (num den : ℕ) (positive : 0 < den) :
    0 ≤ (nearest false num den).place := by
  obtain ⟨u, _, ⟨_, value⟩ | ⟨_, value⟩⟩ := nearest_cases false num den positive
  · rw [value]
    simp [place, signed]
  · rw [value]
    simp [place, signed]

theorem signed_le_signed {g : ℕ → ℕ} (mono : Monotone g) (zero : g 0 = 0) {s t : Bool} {u v : ℕ}
    (le : signed s u ≤ signed t v) : signed s (g u) ≤ signed t (g v) := by
  cases s <;> cases t <;> simp only [signed, Bool.false_eq_true, if_false, if_true] at le ⊢
  · have := mono (show u ≤ v by omega)
    omega
  · obtain rfl : u = 0 := by omega
    obtain rfl : v = 0 := by omega
    omega
  · omega
  · have := mono (show v ≤ u by omega)
    omega

/-- Operations that take `u` units to the number closest to `num u / den` and keep the sign. -/
structure Scaling (f : Binary64 → Binary64) (num : ℕ → ℕ) (den : ℕ) : Prop where
  finite : ∀ negative u h, f (.finite negative u h) = nearest negative (num u) den
  infinite : ∀ negative, f (.infinite negative) = .infinite negative
  zero : num 0 = 0
  mono : Monotone num
  positive : 0 < den

namespace Scaling

variable {f : Binary64 → Binary64} {num : ℕ → ℕ} {den : ℕ}

theorem ne_nan (scaling : Scaling f num den) {a : Binary64} (number : a ≠ .nan) : f a ≠ .nan := by
  cases a with
  | nan => exact absurd rfl number
  | finite negative u h =>
    rw [scaling.finite]
    exact nearest_ne_nan _ _ _
  | infinite negative => simp [scaling.infinite]

def moved (num : ℕ → ℕ) (den u : ℕ) : ℕ :=
  if u < limit then min (roundedUnits (num u) den) limit else limit

theorem moved_zero (scaling : Scaling f num den) : moved num den 0 = 0 := by
  have closest := closest_roundedUnits 0 den scaling.positive
  rw [Nat.cast_zero, zero_div] at closest
  rw [moved, if_pos limit_pos, scaling.zero, closest.unique closest_zero, Nat.zero_min]

theorem moved_mono (scaling : Scaling f num den) : Monotone (moved num den) := by
  intro u v le
  unfold moved
  by_cases bounded : v < limit
  · rw [if_pos (by omega), if_pos bounded]
    apply min_le_min_right
    apply (closest_roundedUnits _ _ scaling.positive).mono (closest_roundedUnits _ _ scaling.positive)
    have counts : num u ≤ num v := scaling.mono le
    exact div_le_div_of_nonneg_right (Nat.cast_le.mpr counts) (Nat.cast_nonneg den)
  · rw [if_neg bounded]
    split
    · exact min_le_right _ _
    · exact le_rfl

theorem exists_moved (scaling : Scaling f num den) {a : Binary64} (number : a ≠ .nan) :
    ∃ s u, a.place = signed s u ∧ (f a).place = signed s (moved num den u) := by
  cases a with
  | nan => exact absurd rfl number
  | finite s u h =>
    refine ⟨s, u, rfl, ?_⟩
    obtain ⟨v, closest, value⟩ := nearest_cases s (num u) den scaling.positive
    obtain rfl := closest.unique (closest_roundedUnits _ _ scaling.positive)
    rw [moved, if_pos (lt_limit h), scaling.finite]
    rcases value with ⟨h, value⟩ | ⟨large, value⟩
    · rw [value, place, min_eq_left (lt_limit h).le]
    · rw [value, place, min_eq_right large]
  | infinite s =>
    refine ⟨s, limit, rfl, ?_⟩
    rw [moved, if_neg (Nat.lt_irrefl _), scaling.infinite, place]

theorem le_of_le (scaling : Scaling f num den) {a b : Binary64} (le : a ≤ b) : f a ≤ f b := by
  obtain ⟨ha, hb, places⟩ := (le_iff a b).mp le
  obtain ⟨s, u, from_a, to_a⟩ := scaling.exists_moved ha
  obtain ⟨t, v, from_b, to_b⟩ := scaling.exists_moved hb
  refine (le_iff _ _).mpr ⟨scaling.ne_nan ha, scaling.ne_nan hb, ?_⟩
  rw [to_a, to_b]
  apply signed_le_signed scaling.moved_mono scaling.moved_zero
  rwa [← from_a, ← from_b]

theorem nonneg (scaling : Scaling f num den) {a : Binary64} (number : a ≠ .nan)
    (nonneg : 0 ≤ a.place) : 0 ≤ (f a).place := by
  obtain ⟨s, u, start, moved⟩ := scaling.exists_moved number
  rw [start, ← signed_zero false] at nonneg
  have kept := signed_le_signed scaling.moved_mono scaling.moved_zero nonneg
  rwa [scaling.moved_zero, signed_zero, ← moved] at kept

end Scaling

theorem scaling_mul (v : ℕ) (h : Representable v) (solid : v ≠ 0) :
    Scaling (· * .finite false v h) (· * v) unitsPerOne where
  finite negative u hu := by
    change mul (.finite negative u hu) (.finite false v h) = _
    simp [mul]
  infinite negative := by
    change mul (.infinite negative) (.finite false v h) = _
    simp [mul, solid]
  zero := Nat.zero_mul v
  mono _ _ le := Nat.mul_le_mul_right v le
  positive := unitsPerOne_pos

theorem scaling_div (v : ℕ) (h : Representable v) (solid : v ≠ 0) :
    Scaling (· / .finite false v h) (· * unitsPerOne) v where
  finite negative u hu := by
    change div (.finite negative u hu) (.finite false v h) = _
    simp [div, solid]
  infinite negative := by
    change div (.infinite negative) (.finite false v h) = _
    simp [div]
  zero := Nat.zero_mul _
  mono _ _ le := Nat.mul_le_mul_right _ le
  positive := Nat.pos_of_ne_zero solid

theorem scaling_round :
    Scaling round (fun u => (2 * u + unitsPerOne) / (2 * unitsPerOne) * unitsPerOne) 1 where
  finite _ _ _ := rfl
  infinite _ := rfl
  zero := by
    have positive := unitsPerOne_pos
    rw [Nat.div_eq_of_lt (by omega), Nat.zero_mul]
  mono u v le := by
    apply Nat.mul_le_mul_right
    apply Nat.div_le_div_right
    omega
  positive := Nat.one_pos

end Binary64

end DesignTokens
