import Mathlib.Algebra.Order.Field.Rat
import Mathlib.Tactic.Linarith
import Mathlib.Tactic.Positivity
import Mathlib.Tactic.Ring
import TypeExpr.Proofs.Json.Numeral

/-!
# The range of the reader and the range of the doubles

Whether the double nearest to a numeral is finite is a question about its exact magnitude
(`Numeral.IsFinite`). Whether a reader takes the numeral depends on how it gets to a double
(`Numeral.inRange`), and it does not get to the nearest one.

| what the reader does | what that changes at most |
|---|---|
| it drops the digits beyond a significand of 64 bits | one part in `2 ^ 60` |
| it rounds the significand | one part in `2 ^ 53` |
| it rounds the power of ten | one part in `2 ^ 53` |

All together is less than one part in `2 ^ 51`. So the two questions have the same answer, but for the
numerals that are as near as this to the least number that rounds to infinity
(`inRange_iff_isFinite`). For some that are so near they have not, and both ways round: there is a
numeral that is finite and out of range (`nearest`), and there is one that is in range and not
finite (`beyond`).
-/

namespace TypeExpr.Json.Numeral

/-! ### Finite numerals -/

/-- The number that the digits of a numeral make, those behind the point included. -/
def digitsValue (n : Numeral) : Nat :=
  n.fraction.foldl (fun value d => value * 10 + d.val) n.whole

/-- The power of ten of the last digit of a numeral. -/
def scale (n : Numeral) : Int :=
  n.exponent.getD 0 - n.fraction.length

/-- **A numeral is finite** if the double nearest to it is: its exact magnitude, the number of its
digits times the power of ten of the last, is less than the least number that rounds to
infinity. -/
def IsFinite (n : Numeral) : Prop :=
  n.digitsValue * Nat.pow 10 n.scale.toNat < infinity * Nat.pow 10 (-n.scale).toNat

instance (n : Numeral) : Decidable n.IsFinite :=
  inferInstanceAs (Decidable (_ < _))

/-- 17976931348623158e292, to which the greatest double is the nearest. -/
def nearest : Numeral :=
  ⟨false, 17976931348623158, [], some 292⟩

/-- 179769313486231581e291, which is nearer to the next power of two than to any double. -/
def beyond : Numeral :=
  ⟨false, 179769313486231581, [], some 291⟩

theorem isFinite_nearest : nearest.IsFinite := by
  decide +kernel

theorem inRange_nearest : nearest.inRange = false := by
  decide +kernel

theorem not_isFinite_beyond : ¬beyond.IsFinite := by
  decide +kernel

theorem inRange_beyond : beyond.inRange = true := by
  decide +kernel

/-! ### Magnitudes -/

/-- The exact magnitude of a numeral. -/
def magnitude (n : Numeral) : ℚ :=
  n.digitsValue * 10 ^ n.scale

/-- Finite numerals are those whose magnitude is. -/
theorem isFinite_iff_magnitude_lt {n : Numeral} : n.IsFinite ↔ n.magnitude < infinity := by
  have hten : (0 : ℚ) < 10 := by norm_num
  have hpos (e : Nat) : (0 : ℚ) < 10 ^ (e : ℤ) := zpow_pos hten e
  have hscale : (10 : ℚ) ^ n.scale = 10 ^ (n.scale.toNat : ℤ) / 10 ^ ((-n.scale).toNat : ℤ) := by
    rw [← zpow_sub₀ hten.ne']
    congr 1
    omega
  rw [magnitude, hscale, ← mul_div_assoc, div_lt_iff₀ (hpos _), zpow_natCast, zpow_natCast, IsFinite]
  exact_mod_cast Iff.rfl

/-- What the digits behind the point are worth. -/
def fractionValue : List (Fin 10) → ℚ
  | [] => 0
  | d :: ds => (d.val + fractionValue ds) / 10

theorem fractionValue_nonneg (ds : List (Fin 10)) : 0 ≤ fractionValue ds := by
  induction ds with
  | nil => exact le_refl _
  | cons d ds ih =>
    rw [fractionValue]
    positivity

theorem fractionValue_lt_one (ds : List (Fin 10)) : fractionValue ds < 1 := by
  induction ds with
  | nil => exact one_pos
  | cons d ds ih =>
    have hd : (d.val : ℚ) ≤ 9 := by
      exact_mod_cast Nat.le_of_lt_succ d.isLt
    rw [fractionValue]
    linarith

theorem foldl_digits (ds : List (Fin 10)) (m : Nat) :
    ((ds.foldl (fun value d => value * 10 + d.val) m : Nat) : ℚ) =
      (m + fractionValue ds) * 10 ^ ds.length := by
  induction ds generalizing m with
  | nil => simp [fractionValue]
  | cons d ds ih =>
    rw [List.foldl_cons, ih, fractionValue, List.length_cons, pow_succ]
    push_cast
    ring

theorem magnitude_eq (n : Numeral) :
    n.magnitude = (n.whole + fractionValue n.fraction) * 10 ^ n.exponent.getD 0 := by
  have hten : (10 : ℚ) ≠ 0 := by norm_num
  rw [magnitude, digitsValue, foldl_digits, scale, mul_assoc, ← zpow_natCast,
    ← zpow_add₀ hten, add_sub_cancel]

/-! ### Dropping digits -/

/-- What is kept of a whole number are its leading digits, and if any are left out, then the number
with one digit more would not fit. -/
theorem leading_spec {n kept left : Nat} (h : leading n = (kept, left)) :
    kept < significandLimit ∧ kept * 10 ^ left ≤ n ∧ n < (kept + 1) * 10 ^ left ∧
      (left = 0 ∨ significandLimit * 10 ^ left ≤ n * 10) := by
  fun_induction leading n generalizing kept left with
  | case1 n hn =>
    cases h
    exact ⟨hn, by simp⟩
  | case2 n hn k l hrest ih =>
    cases h
    obtain ⟨hlt, hle, hupper, hleft⟩ := ih hrest
    have hkept : k * 10 ^ (l + 1) = k * 10 ^ l * 10 := by rw [pow_succ, mul_assoc]
    have hnext : (k + 1) * 10 ^ (l + 1) = (k + 1) * 10 ^ l * 10 := by rw [pow_succ, mul_assoc]
    have hlimit : significandLimit * 10 ^ (l + 1) = significandLimit * 10 ^ l * 10 := by
      rw [pow_succ, mul_assoc]
    rw [hkept, hnext, hlimit]
    refine ⟨hlt, by omega, by omega, Or.inr ?_⟩
    rcases hleft with rfl | hleft
    · rw [pow_zero]
      omega
    · omega

/-- Digits are appended as long as they fit. -/
theorem extend_spec {m : Nat} {ds : List (Fin 10)} {kept added : Nat}
    (hm : m < significandLimit) (h : extend m ds = (kept, added)) :
    kept < significandLimit ∧ m * 10 ^ added ≤ kept ∧ (added = 0 → kept = m) ∧
      (kept : ℚ) ≤ (m + fractionValue ds) * 10 ^ added ∧
      ((m + fractionValue ds) * 10 ^ added = kept ∨
        (m + fractionValue ds) * 10 ^ added < kept + 1 ∧ significandLimit ≤ kept * 10 + 9) := by
  induction ds generalizing m kept added with
  | nil =>
    cases h
    exact ⟨hm, by simp [fractionValue]⟩
  | cons d ds ih =>
    rw [extend] at h
    split at h
    · rename_i hfits
      obtain ⟨rfl, rfl⟩ := Prod.mk.inj h
      obtain ⟨hlt, hle, -, hlower, hupper⟩ := ih hfits rfl
      have hvalue (a : Nat) : ((m : ℚ) + fractionValue (d :: ds)) * 10 ^ (a + 1) =
          ((m * 10 + d.val : Nat) + fractionValue ds) * 10 ^ a := by
        rw [fractionValue, pow_succ]
        push_cast
        ring
      refine ⟨hlt, ?_, by simp, by rwa [hvalue], by rwa [hvalue]⟩
      calc m * 10 ^ ((extend (m * 10 + d.val) ds).2 + 1)
          = m * 10 * 10 ^ (extend (m * 10 + d.val) ds).2 := by rw [pow_succ]; ring
        _ ≤ (m * 10 + d.val) * 10 ^ (extend (m * 10 + d.val) ds).2 :=
            Nat.mul_le_mul_right _ (Nat.le_add_right _ _)
        _ ≤ _ := hle
    · rename_i hfits
      obtain ⟨rfl, rfl⟩ := Prod.mk.inj h
      have hnonneg := fractionValue_nonneg (d :: ds)
      have hlt := fractionValue_lt_one (d :: ds)
      have hd := d.isLt
      refine ⟨hm, by simp, fun _ => rfl, by simpa using hnonneg, Or.inr ⟨by simpa using hlt, ?_⟩⟩
      omega

theorem add_one_le_mul {k : Nat} (h : significandLimit ≤ k * 10 + 9) :
    (k : ℚ) + 1 ≤ k * (1 + 1 / 2 ^ 60) := by
  have hk : 2 ^ 60 ≤ k := by
    have hlimit : significandLimit = 18446744073709551616 := rfl
    omega
  have hk' : (2 : ℚ) ^ 60 ≤ k := by
    exact_mod_cast hk
  rw [mul_add, mul_one, mul_one_div]
  gcongr
  rwa [le_div_iff₀ (by positivity), one_mul]

/-- **Dropping digits** takes one part in `2 ^ 60` away at most, and adds nothing. -/
theorem dropped_bounds {whole kept left significand added : Nat} {ds : List (Fin 10)}
    (hleading : leading whole = (kept, left)) (hextend : extend kept ds = (significand, added)) :
    (significand : ℚ) * 10 ^ left ≤ (whole + fractionValue ds) * 10 ^ added ∧
      (whole + fractionValue ds) * 10 ^ added ≤ significand * 10 ^ left * (1 + 1 / 2 ^ 60) := by
  obtain ⟨hkept, hlower, hupper, hleft⟩ := leading_spec hleading
  obtain ⟨hlt, hle, hnone, hlower', hupper'⟩ := extend_spec hkept hextend
  have hnonneg := fractionValue_nonneg ds
  have hone := fractionValue_lt_one ds
  rcases hleft with rfl | hleft
  · -- the whole digits fit, and if there is no place for the rest, there are many of them
    obtain rfl : kept = whole := by
      rw [pow_zero] at hlower hupper
      omega
    rw [pow_zero, mul_one]
    refine ⟨hlower', ?_⟩
    rcases hupper' with heq | ⟨hlt', hmany⟩
    · rw [heq]
      have hpos : (0 : ℚ) ≤ significand := Nat.cast_nonneg _
      linarith [mul_le_mul_of_nonneg_left (show (1 : ℚ) ≤ 1 + 1 / 2 ^ 60 by norm_num) hpos]
    · exact hlt'.le.trans (add_one_le_mul hmany)
  · have hmany : significandLimit ≤ kept * 10 + 9 := by
      have hlt : significandLimit * 10 ^ left < (kept + 1) * 10 * 10 ^ left := by
        calc significandLimit * 10 ^ left ≤ whole * 10 := hleft
          _ < (kept + 1) * 10 ^ left * 10 := Nat.mul_lt_mul_of_pos_right hupper (by decide)
          _ = (kept + 1) * 10 * 10 ^ left := by ring
      have := Nat.lt_of_mul_lt_mul_right hlt
      omega
    constructor
    · cases added with
      | zero =>
        rw [hnone rfl, pow_zero, mul_one]
        have hwhole : (kept : ℚ) * 10 ^ left ≤ whole := by exact_mod_cast hlower
        linarith
      | succ added =>
        calc (significand : ℚ) * 10 ^ left ≤ whole * 10 := by
              exact_mod_cast (Nat.mul_le_mul_right _ hlt.le).trans hleft
          _ ≤ whole * 10 ^ (added + 1) := by
              gcongr
              exact le_self_pow₀ (by norm_num) (Nat.succ_ne_zero added)
          _ ≤ (whole + fractionValue ds) * 10 ^ (added + 1) := by
              gcongr
              linarith
    · have hwhole : (whole : ℚ) + 1 ≤ (kept + 1) * 10 ^ left := by exact_mod_cast hupper
      have hsignificand : (kept : ℚ) * 10 ^ added ≤ significand := by exact_mod_cast hle
      calc (whole + fractionValue ds) * 10 ^ added
          ≤ (kept + 1) * 10 ^ left * 10 ^ added := by
            gcongr
            linarith
        _ ≤ kept * (1 + 1 / 2 ^ 60) * 10 ^ left * 10 ^ added := by
            gcongr
            exact add_one_le_mul hmany
        _ = kept * 10 ^ added * 10 ^ left * (1 + 1 / 2 ^ 60) := by ring
        _ ≤ significand * 10 ^ left * (1 + 1 / 2 ^ 60) := by gcongr

/-! ### Rounding -/

/-- **Rounding to 53 bits** changes a number by one part in `2 ^ 53` at most. -/
theorem roundBits_bounds (m : Nat) :
    2 ^ 53 * roundBits 53 m ≤ (2 ^ 53 + 1) * m ∧ (2 ^ 53 - 1) * m ≤ 2 ^ 53 * roundBits 53 m := by
  obtain ⟨unit, hunit⟩ : ∃ unit, unit = Nat.pow 2 (m.log2 + 1 - 53) := ⟨_, rfl⟩
  have hsplit : m / unit * unit + m % unit = m := Nat.div_add_mod' m unit
  have hpos : 0 < unit := hunit ▸ Nat.pow_pos (by decide)
  have hmod : m % unit < unit := Nat.mod_lt m hpos
  -- the last digit that is kept is worth no more than a part in `2 ^ 52`, unless all are kept
  have hworth : unit = 1 ∨ unit * 2 ^ 52 ≤ m := by
    rcases Nat.lt_or_ge m.log2 53 with hlog | hlog
    · rw [hunit, Nat.sub_eq_zero_of_le hlog]
      exact Or.inl rfl
    · have hm : m ≠ 0 := by
        rintro rfl
        exact absurd hlog (by decide)
      refine Or.inr ?_
      calc unit * 2 ^ 52 = 2 ^ (m.log2 + 1 - 53 + 52) := by rw [hunit, pow_add]; rfl
        _ = 2 ^ m.log2 := by congr 1; omega
        _ ≤ m := Nat.log2_self_le hm
  have hnear : 2 * roundBits 53 m ≤ 2 * m + unit ∧ 2 * m ≤ 2 * roundBits 53 m + unit := by
    unfold roundBits
    dsimp only
    rw [← hunit]
    split
    · rw [Nat.add_mul, Nat.one_mul]
      omega
    · omega
  rcases hworth with rfl | hworth <;> omega

/-! ### The two ranges -/

/-- The magnitude that a reader sees: that of the significand and the power of ten. -/
def seen (n : Numeral) : ℚ :=
  n.scaled.1 * 10 ^ n.scaled.2

theorem seen_bounds (n : Numeral) :
    n.seen ≤ n.magnitude ∧ n.magnitude ≤ n.seen * (1 + 1 / 2 ^ 60) := by
  obtain ⟨kept, left, hleading⟩ : ∃ kept left, leading n.whole = (kept, left) := ⟨_, _, rfl⟩
  obtain ⟨significand, added, hextend⟩ : ∃ significand added,
      extend kept n.fraction = (significand, added) := ⟨_, _, rfl⟩
  obtain ⟨hlower, hupper⟩ := dropped_bounds hleading hextend
  have hten : (10 : ℚ) ≠ 0 := by norm_num
  have hseen : n.seen = significand * 10 ^ left / 10 ^ added * 10 ^ n.exponent.getD 0 := by
    rw [seen, scaled, hleading]
    dsimp only
    rw [hextend, zpow_add₀ hten, zpow_sub₀ hten, zpow_natCast, zpow_natCast]
    ring
  have hexponent : (0 : ℚ) < 10 ^ n.exponent.getD 0 := zpow_pos (by norm_num) _
  have hadded : (0 : ℚ) < 10 ^ added := by positivity
  rw [hseen, magnitude_eq]
  constructor
  · exact mul_le_mul_of_nonneg_right ((div_le_iff₀ hadded).mpr hlower) hexponent.le
  · rw [mul_right_comm, div_mul_eq_mul_div]
    exact mul_le_mul_of_nonneg_right ((le_div_iff₀ hadded).mpr hupper) hexponent.le

theorem significand_lt (n : Numeral) : n.scaled.1 < significandLimit :=
  (extend_spec (leading_spec rfl).1 rfl).1

/-- What a reader sees with a power of ten that is natural, as a natural number. -/
theorem seen_of_nonneg {n : Numeral} (h : 0 ≤ n.scaled.2) :
    n.seen = (n.scaled.1 * Nat.pow 10 n.scaled.2.toNat : Nat) := by
  have hpower : n.seen = n.scaled.1 * 10 ^ (n.scaled.2.toNat : ℤ) := by
    rw [Int.toNat_of_nonneg h, seen]
  rw [hpower, zpow_natCast]
  exact_mod_cast rfl

theorem inRange_iff {n : Numeral} :
    n.inRange = true ↔ n.scaled.1 = 0 ∨ n.scaled.2 < 0 ∨ n.scaled.2 ≤ 308 ∧
      roundBits 53 n.scaled.1 * roundBits 53 (Nat.pow 10 n.scaled.2.toNat) < infinity := by
  simp [inRange, or_assoc]

/-- The product of two rounded numbers is near to the product of the two. -/
theorem roundBits_mul_bounds (k m : Nat) :
    2 ^ 106 * (roundBits 53 k * roundBits 53 m) ≤ (2 ^ 53 + 1) ^ 2 * (k * m) ∧
      (2 ^ 53 - 1) ^ 2 * (k * m) ≤ 2 ^ 106 * (roundBits 53 k * roundBits 53 m) := by
  obtain ⟨hk, hk'⟩ := roundBits_bounds k
  obtain ⟨hm, hm'⟩ := roundBits_bounds m
  have hpower : 2 ^ 106 * (roundBits 53 k * roundBits 53 m) =
      2 ^ 53 * roundBits 53 k * (2 ^ 53 * roundBits 53 m) := by ring
  have hfactors (c : Nat) : c ^ 2 * (k * m) = c * k * (c * m) := by ring
  rw [hpower, hfactors, hfactors]
  exact ⟨Nat.mul_le_mul hk hm, Nat.mul_le_mul hk' hm'⟩

/-- A power of ten is out of range if its exponent alone is. -/
theorem exponent_le {e : Nat} (h : Nat.pow 10 e ≤ infinity) : e ≤ 308 := by
  obtain ⟨l, hl, hlimit⟩ : ∃ l, l = 309 ∧ infinity < Nat.pow 10 l := ⟨_, rfl, by decide +kernel⟩
  by_contra hlarge
  have hpower : Nat.pow 10 l ≤ Nat.pow 10 e := Nat.pow_le_pow_right (by decide) (by omega)
  exact absurd (hlimit.trans_le hpower) h.not_gt

theorem significandLimit_lt : 2 * significandLimit < infinity := by
  decide +kernel

/-- **A numeral whose magnitude is less than the limit by one part in `2 ^ 51`** is in range. -/
theorem inRange_of_magnitude_le {n : Numeral}
    (h : n.magnitude * (1 + 1 / 2 ^ 51) ≤ infinity) : n.inRange = true := by
  refine inRange_iff.mpr
    (or_iff_not_imp_left.mpr fun hzero => or_iff_not_imp_left.mpr fun hneg => ?_)
  obtain ⟨power, hpower⟩ : ∃ power, power = Nat.pow 10 n.scaled.2.toNat := ⟨_, rfl⟩
  have hseen : n.scaled.1 * power * (2 ^ 51 + 1) ≤ infinity * 2 ^ 51 := by
    have hle : n.seen * (1 + 1 / 2 ^ 51) ≤ infinity :=
      (mul_le_mul_of_nonneg_right n.seen_bounds.1 (by positivity)).trans h
    rw [seen_of_nonneg (Int.not_lt.mp hneg), ← hpower] at hle
    have hle' : ((n.scaled.1 * power : Nat) : ℚ) * (2 ^ 51 + 1) ≤ infinity * 2 ^ 51 := by
      linarith
    exact_mod_cast hle'
  obtain ⟨hround, -⟩ := roundBits_mul_bounds n.scaled.1 power
  rw [← hpower]
  constructor
  · -- the power of ten alone is not too large, since the significand is positive
    have hle : power ≤ n.scaled.1 * power := Nat.le_mul_of_pos_left _ (Nat.pos_of_ne_zero hzero)
    have hexponent := exponent_le (hpower ▸ hle.trans (by omega))
    omega
  · have hlimit := significandLimit_lt
    omega

/-- **The magnitude of a numeral in range** is not greater than the limit by one part in
`2 ^ 51`. -/
theorem magnitude_lt_of_inRange {n : Numeral} (h : n.inRange = true) :
    n.magnitude < infinity * (1 + 1 / 2 ^ 51) := by
  have hlimit : (2 : ℚ) * significandLimit < infinity := by exact_mod_cast significandLimit_lt
  have hsignificand : (n.scaled.1 : ℚ) < significandLimit := by exact_mod_cast n.significand_lt
  have hnonneg : (0 : ℚ) ≤ n.scaled.1 := Nat.cast_nonneg _
  have hcast {k limit : Nat} (hlt : (2 ^ 53 - 1) ^ 2 * k < 2 ^ 106 * limit) :
      ((2 : ℚ) ^ 53 - 1) ^ 2 * k < 2 ^ 106 * limit := by
    have hcast : (((2 ^ 53 - 1) ^ 2 * k : Nat) : ℚ) < (2 ^ 106 * limit : Nat) := Nat.cast_lt.mpr hlt
    rw [Nat.cast_mul, Nat.cast_mul] at hcast
    norm_num at hcast ⊢
    exact hcast
  have hseen : n.seen ≤ significandLimit ∨
      ((2 : ℚ) ^ 53 - 1) ^ 2 * n.seen < 2 ^ 106 * infinity := by
    rcases Int.lt_or_le n.scaled.2 0 with hneg | hpower
    · have hone : (10 : ℚ) ^ n.scaled.2 ≤ 1 := zpow_le_one_of_nonpos₀ (by norm_num) hneg.le
      exact Or.inl ((mul_le_of_le_one_right hnonneg hone).trans hsignificand.le)
    · rcases inRange_iff.mp h with hzero | hneg | ⟨-, hlt⟩
      · rw [seen, hzero, Nat.cast_zero, zero_mul]
        exact Or.inl (Nat.cast_nonneg _)
      · omega
      · obtain ⟨-, hround⟩ := roundBits_mul_bounds n.scaled.1 (Nat.pow 10 n.scaled.2.toNat)
        rw [seen_of_nonneg hpower]
        exact Or.inr (hcast (by omega))
  refine n.seen_bounds.2.trans_lt ?_
  rcases hseen with hseen | hseen <;> linarith

/-- **Away from the limit the two ranges are one.** -/
theorem inRange_iff_isFinite {n : Numeral} (h : n.magnitude * (1 + 1 / 2 ^ 51) ≤ infinity ∨
    infinity * (1 + 1 / 2 ^ 51) ≤ n.magnitude) : n.inRange = true ↔ n.IsFinite := by
  have hpos : (0 : ℚ) < infinity := by
    have hlimit : 0 < infinity := Nat.zero_lt_of_lt significandLimit_lt
    exact_mod_cast hlimit
  rw [isFinite_iff_magnitude_lt]
  rcases h with hbelow | habove
  · exact iff_of_true (inRange_of_magnitude_le hbelow) (by linarith)
  · exact iff_of_false (fun hrange => habove.not_gt (magnitude_lt_of_inRange hrange)) (by linarith)

end TypeExpr.Json.Numeral
