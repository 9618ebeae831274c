import DesignTokens.Color.ShadeScale
import DesignTokens.Proofs.ContentOrigins
import DesignTokens.Proofs.LeafPaths
import DesignTokens.Proofs.LightnessTenths

set_option autoImplicit false

namespace DesignTokens

open Binary64 Oklch

namespace Oklch

theorem roundTenth_mono {x y : Binary64} (le : x ≤ y) : roundTenth x ≤ roundTenth y := by
  have solid : 10 * unitsPerOne ≠ 0 := Nat.mul_ne_zero (by decide) unitsPerOne_pos.ne'
  unfold roundTenth
  rw [ten_eq]
  exact (scaling_div _ _ solid).le_of_le (scaling_round.le_of_le ((scaling_mul _ _ solid).le_of_le le))

def Darker (a b : Oklch) : Prop :=
  b.lightness < a.lightness ∧ roundTenth b.lightness < roundTenth a.lightness

theorem Rounds.ne_nan {x : Binary64} {k : ℕ} (rounds : Rounds x k) : x ≠ .nan := by
  rintro rfl
  exact nearest_ne_nan _ _ _ rounds.rounded.symm

theorem darker_of_rounds {a b : Oklch} {j k : ℕ} (above : Rounds a.lightness j)
    (below : Rounds b.lightness k) (less : k < j) : Darker a b := by
  have written : roundTenth b.lightness < roundTenth a.lightness := by
    rw [above.rounded, below.rounded]
    exact tenths_lt less above.small
  exact ⟨lt_of_not_le below.ne_nan above.ne_nan fun le => not_le_of_lt written (roundTenth_mono le), written⟩

def Reads (text : String) (k : ℕ) : Prop :=
  ∃ color, Oklch.read text = .ok color ∧ Rounds color.lightness k

theorem exists_colors {texts : List String} {counts : List ℕ} (reads : List.Forall₂ Reads texts counts) :
    ∃ colors : List Oklch, texts.map Oklch.read = colors.map .ok ∧
      List.Forall₂ (fun color k => Rounds color.lightness k) colors counts := by
  induction reads with
  | nil => exact ⟨[], rfl, .nil⟩
  | cons first _ ih =>
    obtain ⟨color, read, rounds⟩ := first
    obtain ⟨colors, readAll, roundsAll⟩ := ih
    exact ⟨color :: colors, by rw [List.map_cons, List.map_cons, read, readAll], .cons rounds roundsAll⟩

theorem exists_count {colors : List Oklch} {counts : List ℕ}
    (rounds : List.Forall₂ (fun color k => Rounds color.lightness k) colors counts) {color : Oklch}
    (member : color ∈ colors) : ∃ k ∈ counts, Rounds color.lightness k := by
  induction rounds with
  | nil => cases member
  | cons first _ ih =>
    rcases List.mem_cons.mp member with rfl | later
    · exact ⟨_, by simp, first⟩
    · obtain ⟨k, listed, rounds⟩ := ih later
      exact ⟨k, by simp [listed], rounds⟩

theorem pairwise_darker {colors : List Oklch} {counts : List ℕ}
    (rounds : List.Forall₂ (fun color k => Rounds color.lightness k) colors counts)
    (falling : counts.Pairwise (· > ·)) : colors.Pairwise Darker := by
  induction rounds with
  | nil => exact .nil
  | cons first rest ih =>
    obtain ⟨below, falling⟩ := List.pairwise_cons.mp falling
    refine .cons (fun color member => ?_) (ih falling)
    obtain ⟨k, listed, rounds⟩ := exists_count rest member
    exact darker_of_rounds first rounds (below k listed)

end Oklch

namespace ShadeScale

theorem value_one : (1 : Binary64).value = 1 := value_ofNat (show 1 ≤ 2049 by decide)

theorem value_hundred : (100 : Binary64).value = 100 := value_ofNat (show 100 ≤ 2049 by decide)

theorem room_value {l : Binary64} (room : HasRoom l) :
    l.isFinite = true ∧ 1 ≤ l.value ∧ l.value ≤ 99 := by
  obtain ⟨_, number, low⟩ := (le_iff_value 1 l).mp room.1
  obtain ⟨_, _, high⟩ := (le_iff_value l 99).mp room.2
  rw [value_one] at low
  rw [show (99 : Binary64).value = 99 from value_ofNat (show 99 ≤ 2049 by decide)] at high
  refine ⟨?_, low, high⟩
  cases l with
  | finite negative u h => rfl
  | infinite negative =>
    have far : (2049 * unitsPerOne : ℚ) < limit := by exact_mod_cast moderate_lt_limit
    rw [value, place, cast_signed] at low high
    cases negative with
    | false =>
      rw [factor, if_neg Bool.false_ne_true, one_mul, div_le_iff₀ unit_pos] at high
      linarith
    | true =>
      rw [factor, if_pos rfl, neg_one_mul, le_div_iff₀ unit_pos] at low
      linarith
  | nan => exact absurd rfl number

structure Counts (k : ℕ) (target : ℚ) : Prop where
  low : 10 * target ≤ k + 54 / 100
  high : k ≤ 10 * target + 54 / 100

theorem Counts.lt {j k : ℕ} {q r : ℚ} (first : Counts j q) (second : Counts k r)
    (apart : q + 1 / 8 ≤ r) : j < k := by
  have below := first.high
  have above := second.low
  have less : (j : ℚ) < k := by linarith
  exact_mod_cast less

theorem counts_of_rounds {x : Binary64} {k : ℕ} (rounds : Rounds x k) : Counts k x.value := by
  have low := rounds.low
  have high := rounds.high
  constructor <;> linarith

structure Written (x : Binary64) (k : ℕ) (target : ℚ) : Prop where
  counted : x = tenths k
  rounds : Rounds x k
  counts : Counts k target

theorem rounds_pinned {x : Binary64} {k : ℕ} (pinned : x = tenths k) (small : k ≤ 1999) :
    Rounds x k := by
  rw [pinned]
  exact rounds_tenths small

theorem exists_written {x : Binary64} {q : ℚ} (finite : x.isFinite = true)
    (low : q ≤ x.value + 3 / 1000) (high : x.value ≤ q + 3 / 1000) (least : 1 / 4 ≤ q) (most : q ≤ 150) :
    ∃ k, Written (roundTenth x) k q := by
  obtain ⟨k, rounds⟩ := exists_rounds finite (by linarith) (by linarith)
  have below := rounds.low
  have above := rounds.high
  exact ⟨k, rounds.rounded, rounds_pinned rounds.rounded rounds.small, by linarith, by linarith⟩

section

variable {l : Binary64}

theorem exists_upper_spread (room : HasRoom l) (part : Binary64) (p : ℚ) (finitePart : part.isFinite = true)
    (size : part.value = p) (least : 1 / 4 ≤ p) (most : p ≤ 1) :
    ∃ k, Written (roundTenth (l + (100 - l) * part)) k (l.value + (100 - l.value) * p) := by
  obtain ⟨finite, low, high⟩ := room_value room
  have least : 0 ≤ p := by linarith
  have rest := sub_near (show (100 : Binary64).isFinite = true by decide +kernel) finite
    (by rw [value_hundred, abs_of_pos (by linarith)]; linarith)
  rw [value_hundred] at rest
  have restLow := rest.low
  have restHigh := rest.high
  have nonneg : 0 ≤ (100 - l).value * p := mul_nonneg (by linarith) least
  have shrunk : (100 - l).value * p ≤ (100 - l).value := mul_le_of_le_one_right (by linarith) most
  have share := mul_near rest.finite finitePart (by rw [size, abs_of_nonneg nonneg]; linarith)
  rw [size] at share
  have shareLow := share.low
  have shareHigh := share.high
  obtain ⟨finiteSum, sumLow, sumHigh⟩ := add_near finite share.finite
    (by rw [abs_of_nonneg (by linarith)]; linarith)
  have below := mul_le_mul_of_nonneg_right restLow least
  have above := mul_le_mul_of_nonneg_right restHigh least
  have nothing : 0 ≤ (100 - l.value) * p := mul_nonneg (by linarith) least
  have everything : (100 - l.value) * p ≤ 100 - l.value := mul_le_of_le_one_right (by linarith) most
  apply exists_written finiteSum <;> linarith

theorem exists_lower_spread (room : HasRoom l) (part : Binary64) (p : ℚ) (finitePart : part.isFinite = true)
    (size : part.value = p) (least : 1 / 4 ≤ p) (most : p ≤ 1) :
    ∃ k, Written (roundTenth (l * part)) k (l.value * p) := by
  obtain ⟨finite, low, high⟩ := room_value room
  have enough : 1 / 4 ≤ l.value * p := by
    have := mul_le_mul low least (by norm_num) (by linarith)
    linarith
  have all : l.value * p ≤ l.value := mul_le_of_le_one_right (by linarith) most
  have share := mul_near finite finitePart (by rw [size, abs_of_nonneg (by linarith)]; linarith)
  rw [size] at share
  obtain ⟨finiteShare, shareLow, shareHigh⟩ := share
  apply exists_written finiteShare <;> linarith

end

theorem upper_def (l : Binary64) :
    upper l =
      if roundTenth (l + 10) < 88 ∧ roundTenth (l + 10) < 100 then (97, 88, roundTenth (l + 10))
      else (roundTenth (l + (100 - l) * 0.75), roundTenth (l + (100 - l) * 0.5),
        roundTenth (l + (100 - l) * 0.25)) := rfl

theorem lower_def (l : Binary64) :
    lower l =
      if 28 < roundTenth (l - 10) ∧ 0 < roundTenth (l - 10) then (roundTenth (l - 10), 28, 15)
      else (roundTenth (l * 0.75), roundTenth (l * 0.5), roundTenth (l * 0.25)) := rfl

structure Falling (ls : Binary64 × Binary64 × Binary64) (i j k : ℕ) : Prop where
  first : Rounds ls.1 i
  second : Rounds ls.2.1 j
  third : Rounds ls.2.2 k
  first_second : j < i
  second_third : k < j

theorem exists_spread {f : Binary64 → Binary64} {g : ℚ → ℚ}
    (spread : ∀ part p, part.isFinite = true → part.value = p → 1 / 4 ≤ p → p ≤ 1 →
      ∃ k, Written (f part) k (g p))
    (upper : g (1 / 2) + 1 / 8 ≤ g (3 / 4)) (lower : g (1 / 4) + 1 / 8 ≤ g (1 / 2)) :
    ∃ i j m, Falling (f 0.75, f 0.5, f 0.25) i j m ∧ Counts i (g (3 / 4)) ∧ Counts m (g (1 / 4)) := by
  have value_quarters {x : Binary64} (n : ℕ) (units : (4 : ℕ) * x.place = n * unitsPerOne) :
      x.value = n / 4 := by
    rw [value_of_place (by decide) units, Nat.cast_ofNat]
  obtain ⟨i, first⟩ := spread 0.75 (3 / 4) (by decide +kernel)
    (by rw [value_quarters 3 (by decide +kernel)]; norm_num) (by norm_num) (by norm_num)
  obtain ⟨j, second⟩ := spread 0.5 (1 / 2) (by decide +kernel)
    (by rw [value_quarters 2 (by decide +kernel)]; norm_num) (by norm_num) (by norm_num)
  obtain ⟨m, third⟩ := spread 0.25 (1 / 4) (by decide +kernel)
    (by rw [value_quarters 1 (by decide +kernel)]; norm_num) (by norm_num) (by norm_num)
  have falling : Falling (f 0.75, f 0.5, f 0.25) i j m :=
    ⟨first.rounds, second.rounds, third.rounds, second.counts.lt first.counts upper,
      third.counts.lt second.counts lower⟩
  exact ⟨i, j, m, falling, first.counts, third.counts⟩

theorem upper_falling {l : Binary64} {k : ℕ} (room : HasRoom l) (rounds : Rounds l k) :
    ∃ i j m, Falling (upper l) i j m ∧ k < m := by
  obtain ⟨finite, low, high⟩ := room_value room
  have base := counts_of_rounds rounds
  rw [upper_def]
  split
  next pinned =>
    obtain ⟨finiteSum, sumLow, sumHigh⟩ := add_near finite
      (show (10 : Binary64).isFinite = true by decide +kernel)
      (by rw [value_ten, abs_of_pos (by linarith)]; linarith)
    rw [value_ten] at sumLow sumHigh
    obtain ⟨m, light⟩ := exists_written (q := l.value + 10) finiteSum (by linarith) (by linarith)
      (by linarith) (by linarith)
    have below : tenths m < tenths 880 := by
      rw [← light.counted, show tenths 880 = 88 by decide +kernel]
      exact pinned.1
    have lightest : Rounds 97 970 := rounds_pinned (by decide +kernel) (by decide)
    have lighter : Rounds 88 880 := rounds_pinned (by decide +kernel) (by decide)
    refine ⟨970, 880, m, ⟨lightest, lighter, light.rounds, by decide, ?_⟩, ?_⟩
    · exact (tenths_lt_iff light.rounds.small (by decide)).mp below
    · exact base.lt light.counts (by linarith)
  next =>
    obtain ⟨i, j, m, falling, _, last⟩ := exists_spread
      (exists_upper_spread room) (by linarith) (by linarith)
    exact ⟨i, j, m, falling, base.lt last (by linarith)⟩

theorem lower_falling {l : Binary64} {k : ℕ} (room : HasRoom l) (rounds : Rounds l k) :
    ∃ i j m, Falling (lower l) i j m ∧ i < k := by
  obtain ⟨finite, low, high⟩ := room_value room
  have base := counts_of_rounds rounds
  rw [lower_def]
  split
  next pinned =>
    obtain ⟨finiteRest, restLow, restHigh⟩ := sub_near finite
      (show (10 : Binary64).isFinite = true by decide +kernel)
      (by rw [value_ten, abs_le]; constructor <;> linarith)
    rw [value_ten] at restLow restHigh
    -- What is not above one does not round to more than 28.
    have ahead : 1 < (l - 10).value := by
      by_contra behind
      have le : l - 10 ≤ 1 := (le_iff_value _ _).mpr
        ⟨ne_nan_of_isFinite finiteRest, by decide +kernel, by rw [value_one]; exact not_lt.mp behind⟩
      have rounded := roundTenth_mono le
      rw [show roundTenth 1 = 1 by decide +kernel] at rounded
      exact not_le_of_lt (lt_trans (show (1 : Binary64) < 28 by decide +kernel) pinned.1) rounded
    obtain ⟨i, dark⟩ := exists_written (q := l.value - 10) finiteRest (by linarith) (by linarith)
      (by linarith) (by linarith)
    have above : tenths 280 < tenths i := by
      rw [← dark.counted, show tenths 280 = 28 by decide +kernel]
      exact pinned.1
    have darker : Rounds 28 280 := rounds_pinned (by decide +kernel) (by decide)
    have darkest : Rounds 15 150 := rounds_pinned (by decide +kernel) (by decide)
    refine ⟨i, 280, 150, ⟨dark.rounds, darker, darkest, ?_, by decide⟩, ?_⟩
    · exact (tenths_lt_iff (by decide) dark.rounds.small).mp above
    · exact dark.counts.lt base (by linarith)
  next =>
    obtain ⟨i, j, m, falling, first, _⟩ := exists_spread
      (exists_lower_spread room) (by linarith) (by linarith)
    exact ⟨i, j, m, falling, first.lt base (by linarith)⟩

theorem room_of_ok {text : String} {base : Oklch} {scale : List (String × String)}
    (made : of text = .ok scale) (read : Oklch.read text = .ok base) : HasRoom base.lightness := by
  obtain ⟨other, readable, made⟩ := bind_eq_ok made
  obtain rfl := Except.ok.inj (read.symm.trans readable)
  by_contra cramped
  rw [if_neg cramped] at made
  cases made

def shade (base : Oklch) (l c shift : Binary64) : String :=
  (Oklch.mk l c (wrapHue (base.hue + shift))).write

theorem around_def (text : String) (base : Oklch) :
    around text base =
      [shade base (upper base.lightness).1 0.015 (-5),
        shade base (upper base.lightness).2.1 (base.chroma * 0.6) (-3),
        shade base (upper base.lightness).2.2 base.chroma (-1), text,
        shade base (lower base.lightness).1 base.chroma 1,
        shade base (lower base.lightness).2.1 (base.chroma * 0.8) 3,
        shade base (lower base.lightness).2.2 0.02 5] := by
  unfold around
  rcases upper base.lightness with ⟨lightest, lighter, light⟩
  rcases lower base.lightness with ⟨dark, darker, darkest⟩
  rfl

def IsTurn (shift : Binary64) : Prop := shift.isFinite = true ∧ 2 * shift.place.natAbs < twoTo 2045

instance (shift : Binary64) : Decidable (IsTurn shift) := inferInstanceAs (Decidable (_ ∧ _))

theorem reads_shade {base : Oklch} {l c : Binary64} {k : ℕ} (hue : base.hue.isFinite = true)
    (rounds : Rounds l k) (nonneg : Nonneg c) {shift : Binary64} (turn : IsTurn shift) :
    Reads (shade base l c shift) k := by
  obtain ⟨chroma, readChroma⟩ := exists_chroma nonneg
  obtain ⟨angle, readHue⟩ := exists_hue (wrapHue_nonneg (add_isFinite hue turn.1 turn.2))
  unfold shade
  generalize wrapHue (base.hue + shift) = h at readHue ⊢
  have readable : Oklch.read? (Oklch.mk l c h).write = some ⟨tenths k, chroma, angle⟩ :=
    read?_write (unsigned?_lightnessText rounds) readChroma readHue
  have again := rounds_tenths rounds.small
  generalize tenths k = lightness at readable again
  exact ⟨⟨lightness, chroma, angle⟩, by rw [Oklch.read, readable], again⟩

theorem reads_around {text : String} {base : Oklch} (read : Oklch.read text = .ok base)
    (chroma : base.chroma.isFinite = true) (hue : base.hue.isFinite = true) {i j k m i' j' m' : ℕ}
    (rounds : Rounds base.lightness k) (up : Falling (upper base.lightness) i j m)
    (down : Falling (lower base.lightness) i' j' m') :
    List.Forall₂ Reads (around text base) [i, j, m, k, i', j', m'] := by
  obtain ⟨_, _, _, _, readChroma, _⟩ := exists_fields read
  have amount := nonneg_of_unsigned? readChroma chroma
  have pale : Nonneg 0.015 := ⟨by decide +kernel, by decide +kernel⟩
  have deep : Nonneg 0.02 := ⟨by decide +kernel, by decide +kernel⟩
  have weaker := amount.mul 0.6 (by decide +kernel) (by decide +kernel) (by decide +kernel)
  have weak := amount.mul 0.8 (by decide +kernel) (by decide +kernel) (by decide +kernel)
  rw [around_def]
  exact .cons (reads_shade hue up.first pale (by decide +kernel)) <|
    .cons (reads_shade hue up.second weaker (by decide +kernel)) <|
    .cons (reads_shade hue up.third amount (by decide +kernel)) <|
    .cons ⟨base, read, rounds⟩ <|
    .cons (reads_shade hue down.first amount (by decide +kernel)) <|
    .cons (reads_shade hue down.second weak (by decide +kernel)) <|
    .cons (reads_shade hue down.third deep (by decide +kernel)) .nil

end ShadeScale

/--
Shades of a colour whose chroma and hue are finite are all read again, and from the lightest to the darkest,
with the base colour as it was given among them, each is darker than the one before it.
-/
theorem ShadeScale.shades_darken (text : String) (base : Oklch) (scale : List (String × String))
    (made : ShadeScale.of text = .ok scale) (read : Oklch.read text = .ok base)
    (chroma : base.chroma.isFinite = true) (hue : base.hue.isFinite = true) :
    scale.map Prod.fst = ShadeScale.names ∧ OrderedMap.get? scale "base" = some text ∧
      ∃ colors : List Oklch, scale.map (fun shade => Oklch.read shade.2) = colors.map .ok ∧
        colors.Pairwise fun lighter darker =>
          darker.lightness < lighter.lightness ∧
            Oklch.roundTenth darker.lightness < Oklch.roundTenth lighter.lightness := by
  have room := room_of_ok made read
  obtain ⟨other, readable, listed⟩ := of_eq_ok made
  rw [← Except.ok.inj (read.symm.trans readable)] at listed
  obtain ⟨finite, low, high⟩ := room_value room
  obtain ⟨k, rounds⟩ := exists_rounds finite (by linarith) (by linarith)
  obtain ⟨i, j, m, up, above⟩ := upper_falling room rounds
  obtain ⟨i', j', m', down, below⟩ := lower_falling room rounds
  have falling : [i, j, m, k, i', j', m'].Pairwise (· > ·) := by
    have := up.first_second
    have := up.second_third
    have := down.first_second
    have := down.second_third
    simp
    omega
  obtain ⟨colors, readAll, roundsAll⟩ := exists_colors (reads_around read chroma hue rounds up down)
  have texts : scale.map Prod.snd = around text base := by
    rw [listed, around_def]
    rfl
  refine ⟨names_of_ok made, ?_, colors, ?_, pairwise_darker roundsAll falling⟩
  · rw [listed, around_def]
    rfl
  · rw [← readAll, ← texts, List.map_map]
    rfl

def Oklch.pale : Oklch := ⟨98.96, 0.1, 359.5⟩

-- The lighter half is spread up to white and the darker one pinned, past a full turn of the hue.
def ShadeScale.ofPale : List (String × String) :=
  [("lightest", "oklch(99.7% 0.0150 354.5)"), ("lighter", "oklch(99.5% 0.0600 356.5)"),
    ("light", "oklch(99.2% 0.100 358.5)"), ("base", "oklch(98.96% 0.1 359.5)"),
    ("dark", "oklch(89% 0.100 0.5)"), ("darker", "oklch(28% 0.0800 2.5)"),
    ("darkest", "oklch(15% 0.0200 4.5)")]

theorem ShadeScale.shades_darken_pale :
    ShadeScale.of "oklch(98.96% 0.1 359.5)" = .ok ofPale ∧
      Oklch.read "oklch(98.96% 0.1 359.5)" = .ok .pale ∧
      Oklch.pale.chroma.isFinite = true ∧ Oklch.pale.hue.isFinite = true ∧
      ∃ colors : List Oklch, ofPale.map (fun shade => Oklch.read shade.2) = colors.map .ok ∧
        colors.Pairwise fun lighter darker =>
          darker.lightness < lighter.lightness ∧
            Oklch.roundTenth darker.lightness < Oklch.roundTenth lighter.lightness := by
  have made : ShadeScale.of "oklch(98.96% 0.1 359.5)" = .ok ofPale := by decide +kernel
  have read : Oklch.read "oklch(98.96% 0.1 359.5)" = .ok .pale := by decide +kernel
  have chroma : Oklch.pale.chroma.isFinite = true := by decide +kernel
  have hue : Oklch.pale.hue.isFinite = true := by decide +kernel
  exact ⟨made, read, chroma, hue, (shades_darken _ _ _ made read chroma hue).2.2⟩

end DesignTokens
