import Qtx.BinadeRounding
import Qtx.Bf16Rounding
import Qtx.Fp16Rounding
import Qtx.Fp8Rounding

/-!
# Exact decoders

The decoders widen a word of a narrower format without rounding: the value of every finite
word, subnormals included, is kept, and so are the sign, infinity and the NaNs.
-/
namespace Qtx.FpeGuard

open Qtx.BinaryFormats Qtx.FloatWords Qtx.Fp16Rounding

/-- The binary32 word `v` is the value of the word `h` of a format. -/
structure Decodes (f : Format) {w : ℕ} (h : BitVec w) (v : BitVec 32) : Prop where
  sign : v.msb = h.msb
  finite : magnitude h ≤ f.largest →
    magnitude v < infinity ∧ ticks v = units f.fraction (magnitude h) * 2 ^ f.lift
  infinite : f.largest < magnitude h → magnitude h ≤ f.infinite → magnitude v = infinity
  nan : f.infinite < magnitude h → IsNaN v

instance {f : Format} {w : ℕ} (h : BitVec w) (v : BitVec 32) : Decidable (Decodes f h v) :=
  decidable_of_iff (v.msb = h.msb ∧ (magnitude h ≤ f.largest →
      magnitude v < infinity ∧ ticks v = units f.fraction (magnitude h) * 2 ^ f.lift) ∧
      (f.largest < magnitude h → magnitude h ≤ f.infinite → magnitude v = infinity) ∧
      (f.infinite < magnitude h → infinity < magnitude v))
    ⟨fun hd => ⟨hd.1, hd.2.1, hd.2.2.1, hd.2.2.2⟩, fun hd => ⟨hd.sign, hd.finite, hd.infinite, hd.nan⟩⟩

/-- A word that was decoded and rounded again is the same. -/
theorem Decodes.rounds_back {f : Format} {w : ℕ} {h h' : BitVec (w + 1)} {v : BitVec 32} (hd : Decodes f h v)
    (hr : RoundsTo f v h') (hgap : f.infinite ≤ f.largest + 1) (hle : magnitude h ≤ f.infinite) : h' = h := by
  apply eq_of_sign_magnitude (hr.sign.trans hd.sign)
  rcases Nat.lt_or_ge f.largest (magnitude h) with hinf | hfin
  · rw [hr.infinite (hd.infinite hinf hle)]
    omega
  · obtain ⟨hlt, hticks⟩ := hd.finite hfin
    obtain ⟨n, hnear, hn⟩ := hr.finite hlt
    have hvalue : (ticks v : ℚ) / 2 ^ f.lift = units f.fraction (magnitude h) := by
      rw [hticks, Nat.cast_mul, Nat.cast_pow, Nat.cast_two]
      exact mul_div_cancel_right₀ _ (by positivity)
    rw [hvalue] at hnear
    rw [hn, hnear.unique (IsNearestEven.exact _ _), Nat.min_eq_left hfin]

/-! Bytes. -/

theorem decodes_e4m3 : ∀ h : BitVec 8, Decodes e4m3 h (fp8E4M3ToFP32 h) := by decide +kernel

theorem decodes_e5m2 : ∀ h : BitVec 8, Decodes e5m2 h (fp8E5M2ToFP32 h) := by decide +kernel

/-! bfloat16. -/

/-- The upper half of a word, as a word of the narrower format. -/
theorem units_upperHalf (n : ℕ) : units 23 (n * 2 ^ 16) = units 7 n * 2 ^ 16 := by
  have hpow : 2 ^ 23 = 2 ^ 7 * 2 ^ 16 := by decide
  rcases Nat.lt_or_ge n (2 ^ 7) with hlow | hnormal
  · rw [units_of_le (by omega), units_of_le (by omega)]
  · have hdiv : n * 2 ^ 16 / 2 ^ 23 = n / 2 ^ 7 := by rw [hpow, Nat.mul_div_mul_right _ _ (by decide)]
    have hmod : n * 2 ^ 16 % 2 ^ 23 = n % 2 ^ 7 * 2 ^ 16 := by rw [hpow, Nat.mul_mod_mul_right]
    rw [units_normal (by omega), units, if_neg (Nat.not_lt.mpr hnormal), hdiv, hmod]
    ring

theorem decodes_bfloat16 (h : BitVec 16) : Decodes bfloat16 h (bf16ToFP32 h) := by
  have hlt := h.isLt
  have hnat : (bf16ToFP32 h).toNat = h.toNat * 2 ^ 16 := by
    rw [bf16ToFP32, BitVec.toNat_shiftLeft, BitVec.toNat_setWidth, Nat.shiftLeft_eq]
    omega
  have hmag : magnitude (bf16ToFP32 h) = magnitude h * 2 ^ 16 := by
    rw [magnitude, magnitude, hnat]
    omega
  have hsign : (bf16ToFP32 h).msb = h.msb := by
    rw [BitVec.msb_eq_decide, BitVec.msb_eq_decide, hnat, decide_eq_decide]
    omega
  refine ⟨hsign, fun hfin => ⟨?_, ?_⟩, fun hinf hle => ?_, fun hnan => ?_⟩
  · have hle : magnitude h ≤ 0x7F7F := hfin
    rw [hmag, infinity]
    omega
  · rw [ticks, hmag]
    exact units_upperHalf _
  · have hge : 0x7F7F < magnitude h := hinf
    have hle : magnitude h ≤ 0x7F80 := hle
    rw [hmag, infinity]
    omega
  · have hge : 0x7F80 < magnitude h := hnan
    rw [IsNaN, hmag, infinity]
    omega

/-! binary16. -/

/-- Shifting up until the bit `2 ^ t` is set keeps the product of significand and exponent. -/
theorem normalise_spec {t : ℕ} (ht : t < 31) (fuel : ℕ) (m e : BitVec 32) (hm : m.toNat < 2 ^ (t + 1))
    (hfuel : 2 ^ t ≤ m.toNat * 2 ^ fuel) (he : e.toNat + fuel < 2 ^ 32) :
    ∃ k ≤ fuel, (normalise (BitVec.twoPow 32 t) fuel m e).1.toNat = m.toNat * 2 ^ k ∧
      (normalise (BitVec.twoPow 32 t) fuel m e).2.toNat = e.toNat + k ∧
      2 ^ t ≤ m.toNat * 2 ^ k ∧ m.toNat * 2 ^ k < 2 ^ (t + 1) := by
  induction fuel generalizing m e with
  | zero => exact ⟨0, le_rfl, by rw [normalise, pow_zero, Nat.mul_one], rfl, hfuel, by rwa [pow_zero, Nat.mul_one]⟩
  | succ fuel ih =>
    have hdouble : 2 ^ (t + 1) = 2 * 2 ^ t := by rw [pow_succ, Nat.mul_comm]
    have hpow : 2 ^ (t + 1) < 2 ^ 32 := Nat.pow_lt_pow_right (by decide) (by omega)
    have htest : m &&& BitVec.twoPow 32 t = 0#32 ↔ m.toNat < 2 ^ t := by
      have hbit : m.getLsbD t = decide (2 ^ t ≤ m.toNat) := by
        rw [BitVec.getLsbD, Nat.testBit_eq_decide_div_mod_eq, decide_eq_decide]
        have hquot : m.toNat / 2 ^ t < 2 := by
          rw [Nat.div_lt_iff_lt_mul (Nat.two_pow_pos t), ← hdouble]
          exact hm
        have hone : 1 ≤ m.toNat / 2 ^ t ↔ 2 ^ t ≤ m.toNat := by
          rw [Nat.le_div_iff_mul_le (Nat.two_pow_pos t), Nat.one_mul]
        rw [← hone]
        generalize m.toNat / 2 ^ t = q at hquot
        omega
      rw [BitVec.and_twoPow, hbit]
      by_cases h : 2 ^ t ≤ m.toNat
      · refine iff_of_false ?_ (Nat.not_lt.mpr h)
        rw [decide_eq_true h, if_pos rfl]
        intro hzero
        have hnat := congrArg BitVec.toNat hzero
        rw [BitVec.toNat_twoPow, Nat.mod_eq_of_lt (by omega)] at hnat
        exact absurd hnat (Nat.ne_of_gt (Nat.two_pow_pos t))
      · exact iff_of_true (by rw [decide_eq_false h, if_neg Bool.false_ne_true]) (Nat.not_le.mp h)
    rw [normalise]
    by_cases h : m.toNat < 2 ^ t
    · rw [if_pos (htest.mpr h)]
      have hone : (1#32).toNat = 1 := rfl
      have hshift : (m <<< 1).toNat = m.toNat * 2 := by
        rw [BitVec.toNat_shiftLeft, Nat.shiftLeft_eq, pow_one]
        exact Nat.mod_eq_of_lt (by omega)
      have hnext : (e + 1#32).toNat = e.toNat + 1 := by rw [BitVec.toNat_add, hone, Nat.mod_eq_of_lt (by omega)]
      obtain ⟨k, hk, hm', he', hlo, hhi⟩ := ih (m <<< 1) (e + 1#32) (by omega)
        (by rw [hshift, Nat.mul_assoc, ← pow_succ']; exact hfuel) (by omega)
      rw [hshift, Nat.mul_assoc, ← pow_succ'] at hm' hlo hhi
      exact ⟨k + 1, by omega, hm', by omega, hlo, hhi⟩
    · rw [if_neg (fun hz => h (htest.mp hz))]
      exact ⟨0, Nat.zero_le _, by rw [pow_zero, Nat.mul_one], rfl, by rw [pow_zero, Nat.mul_one]; omega,
        by rwa [pow_zero, Nat.mul_one]⟩

/-- A sign above an exponent field and a fraction. -/
theorem toNat_assembled (h : BitVec 16) {e m : BitVec 32} {k : ℕ} (he : e.toNat < 256)
    (hm : m.toNat < 2 ^ (23 - k)) (hk : k ≤ 23) :
    ((h.setWidth 32 &&& 0x8000#32) <<< 16 ||| (e <<< 23) ||| (m <<< k)).toNat =
      h.msb.toNat * 2 ^ 31 + (e.toNat * 2 ^ 23 + m.toNat * 2 ^ k) := by
  have hpow : 2 ^ (23 - k) * 2 ^ k = 2 ^ 23 := by rw [← pow_add, Nat.sub_add_cancel hk]
  have hfraction : m.toNat * 2 ^ k < 2 ^ 23 := by
    rw [← hpow]
    exact Nat.mul_lt_mul_of_pos_right hm (Nat.two_pow_pos k)
  have hshift : (m <<< k).toNat = m.toNat * 2 ^ k := by
    rw [BitVec.toNat_shiftLeft, Nat.shiftLeft_eq, Nat.mod_eq_of_lt (by omega)]
  have hfields : (e <<< 23 ||| m <<< k).toNat = e.toNat * 2 ^ 23 + m.toNat * 2 ^ k := by
    rw [toNat_fields (by omega) (by rw [hshift]; exact hfraction), hshift]
  have hsign : (h.setWidth 32 &&& 0x8000#32) <<< 16 = (BitVec.ofNat 32 h.msb.toNat) <<< 31 := by
    have hbit : (0x8000#32 : BitVec 32) = BitVec.twoPow 32 15 := by decide
    rw [hbit, BitVec.and_twoPow, BitVec.getLsbD_setWidth, BitVec.msb_eq_getLsbD_last]
    cases h.getLsbD 15 <;> decide
  have hmsb : (BitVec.ofNat 32 h.msb.toNat).toNat = h.msb.toNat := by cases h.msb <;> rfl
  have hle := Bool.toNat_le h.msb
  rw [hsign, BitVec.or_assoc, toNat_fields (by rw [hmsb]; omega) (by rw [hfields]; omega), hmsb, hfields]

/-- The exponent field of a half word. -/
theorem toNat_halfExponent (h : BitVec 16) : ((h.setWidth 32 >>> 10) &&& 0x1F#32).toNat = magnitude h / 2 ^ 10 := by
  have hlt := h.isLt
  have hfive : (h.toNat / 2 ^ 10) &&& (0x1F#32).toNat = h.toNat / 2 ^ 10 % 2 ^ 5 :=
    Nat.and_two_pow_sub_one_eq_mod (h.toNat / 2 ^ 10) 5
  have hwide : (h.setWidth 32).toNat = h.toNat := by
    rw [BitVec.toNat_setWidth]
    exact Nat.mod_eq_of_lt (by omega)
  rw [BitVec.toNat_and, BitVec.toNat_ushiftRight, Nat.shiftRight_eq_div_pow, hwide, hfive, magnitude]
  omega

theorem toNat_halfFraction (h : BitVec 16) : (h.setWidth 32 &&& 0x03FF#32).toNat = magnitude h % 2 ^ 10 := by
  have hlt := h.isLt
  have hten : h.toNat &&& (0x03FF#32).toNat = h.toNat % 2 ^ 10 := Nat.and_two_pow_sub_one_eq_mod h.toNat 10
  have hwide : (h.setWidth 32).toNat = h.toNat := by
    rw [BitVec.toNat_setWidth]
    exact Nat.mod_eq_of_lt (by omega)
  rw [BitVec.toNat_and, hwide, hten, magnitude]
  omega

theorem decodes_binary16 (h : BitVec 16) : Decodes binary16 h (fp16ToFP32 h) := by
  have hexp := toNat_halfExponent h
  have hmant := toNat_halfFraction h
  have hlt : magnitude h < 2 ^ 15 := magnitude_lt h
  have hfrac : magnitude h % 2 ^ 10 < 2 ^ 10 := Nat.mod_lt _ (by decide)
  -- a finite word, once its fields are known
  have hfinite : ∀ e m : BitVec 32, magnitude h ≤ 0x7BFF → e.toNat < 255 → m.toNat < 2 ^ 10 →
      units 23 (e.toNat * 2 ^ 23 + m.toNat * 2 ^ 13) = units 10 (magnitude h) * 2 ^ 125 →
      Decodes binary16 h ((h.setWidth 32 &&& 0x8000#32) <<< 16 ||| (e <<< 23) ||| (m <<< 13)) := by
    intro e m hle he hm hvalue
    obtain ⟨hsign, hmag⟩ := sign_magnitude_of_toNat (toNat_assembled h (k := 13) (e := e) (m := m)
      (he.trans (by decide)) hm (by decide)) (by omega)
    refine ⟨hsign, fun _ => ⟨by rw [hmag, infinity]; omega, by rw [ticks, hmag]; exact hvalue⟩, fun hc => ?_,
      fun hc => ?_⟩
    · exact absurd hc (Nat.not_lt.mpr hle)
    · exact absurd (show 0x7C00 < magnitude h from hc) (by omega)
  -- infinity or a NaN
  have hspecial : ∀ m : BitVec 32, m.toNat = magnitude h % 2 ^ 10 → 0x7C00 ≤ magnitude h →
      Decodes binary16 h ((h.setWidth 32 &&& 0x8000#32) <<< 16 ||| (255#32 <<< 23) ||| (m <<< 13)) := by
    intro m hm hge
    have hfull : (255#32).toNat = 255 := rfl
    obtain ⟨hsign, hmag⟩ := sign_magnitude_of_toNat (toNat_assembled h (k := 13) (e := 255#32) (m := m)
      (by decide) (by omega) (by decide)) (by omega)
    rw [hm, hfull] at hmag
    refine ⟨hsign, fun hc => absurd (show magnitude h ≤ 0x7BFF from hc) (by omega), fun _ hle => ?_, fun hnan => ?_⟩
    · have hle : magnitude h ≤ 0x7C00 := hle
      rw [hmag, infinity]
      omega
    · have hnan : 0x7C00 < magnitude h := hnan
      rw [IsNaN, hmag, infinity]
      omega
  have hzero : ∀ k, (0#32 : BitVec 32) <<< k = 0#32 := fun k => BitVec.zero_shiftLeft k
  have hinf : (0x7F800000#32 : BitVec 32) = 255#32 <<< 23 := by decide
  rw [fp16ToFP32]
  generalize (h.setWidth 32 >>> 10) &&& 0x1F#32 = exp at *
  generalize h.setWidth 32 &&& 0x03FF#32 = mant at *
  simp only
  split_ifs with h0 hz h31 hz'
  · have hmag : magnitude h = 0 := by
      rw [h0] at hexp
      rw [hz] at hmant
      have hexp : 0 = magnitude h / 2 ^ 10 := hexp
      have hmant : 0 = magnitude h % 2 ^ 10 := hmant
      omega
    have hword := hfinite 0#32 0#32 (by omega) (by decide) (by decide) (by rw [hmag]; decide)
    rwa [hzero, hzero, BitVec.or_zero, BitVec.or_zero] at hword
  · -- a subnormal half word becomes a normal word
    have hlow : magnitude h < 2 ^ 10 := by
      rw [h0] at hexp
      have hexp : 0 = magnitude h / 2 ^ 10 := hexp
      omega
    rw [Nat.mod_eq_of_lt hlow] at hmant
    have hpos : 0 < mant.toNat := Nat.pos_of_ne_zero (fun hc => hz (BitVec.eq_of_toNat_eq hc))
    have htop : (0x0400#32 : BitVec 32) = BitVec.twoPow 32 10 := by decide
    obtain ⟨k, hk, hm, he, hlo, hhi⟩ :=
      normalise_spec (t := 10) (by decide) 10 mant 1#32 (by omega) (by omega) (by decide)
    rw [htop]
    generalize normalise (BitVec.twoPow 32 10) 10 mant 1#32 = r at *
    have hone : (1#32).toNat = 1 := rfl
    have h114 : (114#32).toNat = 114 := rfl
    have hfield : (114#32 - r.2).toNat = 113 - k := by
      rw [BitVec.toNat_sub_of_le (by rw [BitVec.le_def, h114]; omega), h114]
      omega
    have hrest : (r.1 &&& 0x03FF#32).toNat = mant.toNat * 2 ^ k - 2 ^ 10 := by
      have hten : r.1.toNat &&& (0x03FF#32).toNat = r.1.toNat % 2 ^ 10 :=
        Nat.and_two_pow_sub_one_eq_mod r.1.toNat 10
      rw [BitVec.toNat_and, hten, hm]
      omega
    apply hfinite _ _ (by omega) (by omega) (by omega)
    have hsum : (113 - k) * 2 ^ 23 + (mant.toNat * 2 ^ k - 2 ^ 10) * 2 ^ 13 =
        (112 - k) * 2 ^ 23 + mant.toNat * 2 ^ k * 2 ^ 13 := by
      generalize mant.toNat * 2 ^ k = M at *
      omega
    have hexponent : k + 13 + (112 - k) = 125 := by omega
    have hpow : 2 ^ k * 2 ^ 13 * 2 ^ (112 - k) = 2 ^ 125 := by rw [← pow_add, ← pow_add, hexponent]
    rw [hfield, hrest, hsum, units_add (by omega) (.inr (by omega)), units_of_le (by omega), ← hmant, Nat.mul_assoc,
      Nat.mul_assoc, ← Nat.mul_assoc (2 ^ k), hpow]
  · rw [h31] at hexp
    rw [hz'] at hmant
    have hexp : 31 = magnitude h / 2 ^ 10 := hexp
    have hword := hspecial 0#32 hmant (by omega)
    rwa [hzero, BitVec.or_zero, ← hinf] at hword
  · rw [h31] at hexp
    have hexp : 31 = magnitude h / 2 ^ 10 := hexp
    have hword := hspecial mant hmant (by omega)
    rwa [← hinf] at hword
  · -- a normal half word keeps its fraction
    have h0' : 0 < exp.toNat := Nat.pos_of_ne_zero (fun hc => h0 (BitVec.eq_of_toNat_eq hc))
    have h31' : exp.toNat ≠ 31 := fun hc => h31 (BitVec.eq_of_toNat_eq hc)
    have h112 : (112#32).toNat = 112 := rfl
    have hfield : (exp + 112#32).toNat = exp.toNat + 112 := by
      rw [BitVec.toNat_add, h112]
      exact Nat.mod_eq_of_lt (by omega)
    apply hfinite _ _ (by omega) (by omega) (by omega)
    obtain ⟨e, he⟩ : ∃ e, exp.toNat = e + 1 := Nat.exists_eq_add_one.mpr h0'
    have hword : magnitude h = e * 2 ^ 10 + (2 ^ 10 + mant.toNat) := by omega
    have hsum : (exp.toNat + 112) * 2 ^ 23 + mant.toNat * 2 ^ 13 =
        (e + 112) * 2 ^ 23 + (2 ^ 10 + mant.toNat) * 2 ^ 13 := by omega
    rw [hfield, hsum, hword, units_add (by omega) (.inr (by omega)),
      units_add (by omega) (.inr (by omega)), pow_add]
    ring

end Qtx.FpeGuard
