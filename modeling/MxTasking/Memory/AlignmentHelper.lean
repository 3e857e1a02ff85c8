import MxTasking.Memory.AllocationBlock
import Mathlib.Algebra.Ring.Nat
import Mathlib.Order.Bounds.Basic

/-!
# Rounding to powers of two and to multiples

`alignment_helper.h`, on words.  `next_power_of_two` counts the leading zeros of a word of 64 bits
and shifts a one; `next_multiple` is a template over the type of its arguments, here a word of
`w` bits.  `none` is what the language leaves undefined: the leading zeros of 0, a shift by the
width of the word or more, and a remainder of a division by 0.

The hash table and the allocator use the helpers for `std::size_t`, and are modelled with numbers.
`SizeT` has what they use, and it is what is computed on words, wherever that is defined.

## Main results

* `nextPowerOfTwo_isSome_iff` — the values with a power of two to round to.
* `nextPowerOfTwo_eq`, `nextMultiple_eq` — the helpers on words and on numbers are the same.
* `rounding_exact` — every helper gives the least number of its kind.
-/

namespace MxTasking.Memory.AlignmentHelper

/-! ## The program -/

/-- The width in which unsigned words of `w` bits are computed: those of 8 and 16 bits are promoted
to `int`, in which the sum of two of them is exact. -/
def promoted (w : Nat) : Nat := max w 32

/-- `left % right`. -/
def remainder {p : Nat} (left right : BitVec p) : Option (BitVec p) :=
  if right = 0 then none else some (left % right)

/-- `next_multiple<T>(value, base)`, for a type `T` of `w` bits. -/
def nextMultiple {w : Nat} (value base : BitVec w) : Option (BitVec w) :=
  if base < value then
    let value' := value.setWidth (promoted w)
    let base' := base.setWidth (promoted w)
    (remainder value' base').map fun mod =>
      if mod = 0 then value else (value' + base' - mod).setWidth w
  else some base

/-- `is_power_of_two(value)`. -/
def isPowerOfTwo (value : BitVec 64) : Bool := value != 0 && value &&& (value - 1) == 0

/-- `__builtin_clzll(value)`. -/
def builtinClzll (value : BitVec 64) : Option Nat :=
  if value = 0 then none else some value.clz.toNat

/-- `1ULL << count`. -/
def shiftOne (count : Nat) : Option (BitVec 64) :=
  if count < 64 then some (1#64 <<< count) else none

/-- `next_power_of_two(value)`. -/
def nextPowerOfTwo (value : BitVec 64) : Option (BitVec 64) :=
  if isPowerOfTwo value then some value
  else (builtinClzll value).bind fun zeros => shiftOne (64 - zeros)

namespace SizeT

/-- `next_multiple(value, base)` in `std::size_t`. -/
def nextMultiple (value base : Nat) : Nat :=
  if base < value then
    let mod := value % base
    if mod = 0 then value else sub64 (add64 value base) mod
  else base

/-- `is_power_of_two(value)`. -/
def isPowerOfTwo (value : Nat) : Bool := value ≠ 0 && value &&& (value - 1) = 0

/-- `next_power_of_two(value)`; undefined for 0, which has no leading zeros to count. -/
def nextPowerOfTwo (value : Nat) : Nat :=
  if isPowerOfTwo value then value else 2 ^ (Nat.log2 value + 1)

end SizeT

/-! ## What is promised -/

/-- The powers of two from a value on. -/
def powersFrom (value : Nat) : Set Nat := {n | n.isPowerOfTwo ∧ value ≤ n}

/-- The positive multiples of a base from a value on. -/
def multiplesFrom (base value : Nat) : Set Nat := {n | 0 < n ∧ base ∣ n ∧ value ≤ n}

/-! ## Numbers -/

section Numbers

variable {value base bits : Nat}

theorem isLeast_powersFrom (hLe : value ≤ 2 ^ bits) (hLt : 2 ^ bits < 2 * value) :
    IsLeast (powersFrom value) (2 ^ bits) := by
  refine ⟨⟨⟨bits, rfl⟩, hLe⟩, ?_⟩
  rintro n ⟨⟨k, rfl⟩, hk⟩
  -- half of the power is below the value, and so is every smaller one
  have hPow : 2 ^ bits < 2 ^ (k + 1) := by
    rw [Nat.pow_succ]
    omega
  have hBits : bits < k + 1 := (Nat.pow_lt_pow_iff_right (by decide)).mp hPow
  exact Nat.pow_le_pow_right (by decide) (Nat.le_of_lt_succ hBits)

theorem isLeast_base (hPos : 0 < base) (hLe : value ≤ base) :
    IsLeast (multiplesFrom base value) base :=
  ⟨⟨hPos, dvd_rfl, hLe⟩, fun _ hn => Nat.le_of_dvd hn.1 hn.2.1⟩

theorem isLeast_value (hPos : 0 < value) (hMod : value % base = 0) :
    IsLeast (multiplesFrom base value) value :=
  ⟨⟨hPos, Nat.dvd_of_mod_eq_zero hMod, Nat.le_refl _⟩, fun _ hn => hn.2.2⟩

theorem isLeast_next (hPos : 0 < base) (hMod : value % base ≠ 0) :
    IsLeast (multiplesFrom base value) (value + base - value % base) := by
  have hLt : value % base < base := Nat.mod_lt value hPos
  have hDiv : base * (value / base) + value % base = value := Nat.div_add_mod value base
  have hNext : value + base - value % base = base * (value / base + 1) := by
    rw [Nat.mul_add, Nat.mul_one]
    omega
  refine ⟨⟨by omega, ?_, by omega⟩, ?_⟩
  · rw [hNext]
    exact Nat.dvd_mul_right base _
  · rintro n ⟨-, ⟨k, rfl⟩, hn⟩
    have hBelow : base * (value / base) < base * k := by omega
    have hk : value / base < k := Nat.lt_of_mul_lt_mul_left hBelow
    rw [hNext]
    exact Nat.mul_le_mul_left base hk

end Numbers

/-! ## Powers of two -/

namespace SizeT

theorem isPowerOfTwo_iff {value : Nat} : isPowerOfTwo value = true ↔ value.isPowerOfTwo := by
  rw [← Nat.ne_zero_and_sub_one_eq_zero_iff_isPowerOfTwo]
  simp [isPowerOfTwo]

/-- The least power of two that is not below the value. -/
theorem nextPowerOfTwo_spec (value : Nat) (h : value ≠ 0) :
    ∃ bits, nextPowerOfTwo value = 2 ^ bits ∧ value ≤ 2 ^ bits ∧ 2 ^ bits < 2 * value := by
  unfold nextPowerOfTwo
  split
  · next hPower =>
      obtain ⟨bits, rfl⟩ := isPowerOfTwo_iff.mp hPower
      exact ⟨bits, rfl, Nat.le_refl _, by omega⟩
  · next hPower =>
      have hLe : 2 ^ value.log2 ≤ value := Nat.log2_self_le h
      have hne : 2 ^ value.log2 ≠ value := fun hEq => hPower (isPowerOfTwo_iff.mpr ⟨_, hEq.symm⟩)
      refine ⟨_, rfl, Nat.lt_log2_self.le, ?_⟩
      rw [Nat.pow_succ]
      omega

end SizeT

section Powers

variable {value : BitVec 64}

theorem toNat_ne_zero (hZero : value ≠ 0) : value.toNat ≠ 0 :=
  fun hEq => hZero (BitVec.eq_of_toNat_eq hEq)

/-- On a number. -/
theorem isPowerOfTwo_eq (value : BitVec 64) :
    isPowerOfTwo value = SizeT.isPowerOfTwo value.toNat := by
  by_cases hZero : value = 0
  · subst hZero
    rfl
  · have hPos : 1 ≤ value := by
      have hne : value.toNat ≠ 0 := toNat_ne_zero hZero
      rw [BitVec.le_def]
      show 1 ≤ value.toNat
      omega
    have hAnd : (value &&& (value - 1)).toNat = value.toNat &&& (value.toNat - 1) := by
      rw [BitVec.toNat_and, BitVec.toNat_sub_of_le hPos]
      rfl
    unfold isPowerOfTwo SizeT.isPowerOfTwo
    rw [← hAnd, Bool.eq_iff_iff]
    simp [← BitVec.toNat_inj]

theorem isPowerOfTwo_iff (value : BitVec 64) :
    isPowerOfTwo value = true ↔ value.toNat.isPowerOfTwo := by
  rw [isPowerOfTwo_eq]
  exact SizeT.isPowerOfTwo_iff

/-- The shift is to the bit behind the leading one. -/
theorem leading_bit (hZero : value ≠ 0) : 64 - value.clz.toNat = value.toNat.log2 + 1 := by
  have hNat : value.toNat ≠ 0 := toNat_ne_zero hZero
  have hLow : 2 ^ (64 - 1 - value.clz.toNat) ≤ value.toNat :=
    BitVec.two_pow_sub_clz_le_toNat_of_ne_zero (by decide) hZero
  have hHigh : value.toNat < 2 ^ (64 - value.clz.toNat) := BitVec.toNat_lt_two_pow_sub_clz
  have hLe : 64 - 1 - value.clz.toNat ≤ value.toNat.log2 := (Nat.le_log2 hNat).mpr hLow
  have hLt : value.toNat.log2 < 64 - value.clz.toNat := (Nat.log2_lt hNat).mpr hHigh
  omega

theorem shiftOne_toNat {count : Nat} (hCount : count < 64) :
    ∃ word, shiftOne count = some word ∧ word.toNat = 2 ^ count := by
  refine ⟨1#64 <<< count, if_pos hCount, ?_⟩
  rw [BitVec.toNat_shiftLeft, Nat.shiftLeft_eq]
  show 1 * 2 ^ count % 2 ^ 64 = 2 ^ count
  rw [Nat.one_mul]
  exact Nat.mod_eq_of_lt (Nat.pow_lt_pow_right (by decide) hCount)

/-- The branch with the shift. -/
theorem nextPowerOfTwo_of_not (hPower : isPowerOfTwo value = false) (hZero : value ≠ 0) :
    nextPowerOfTwo value = shiftOne (value.toNat.log2 + 1) := by
  rw [nextPowerOfTwo, hPower, builtinClzll, if_neg hZero, ← leading_bit hZero]
  rfl

/-- A value that is no power of two has one above it in 64 bits. -/
theorem log2_lt_iff (hPower : isPowerOfTwo value = false) (hZero : value ≠ 0) :
    value.toNat.log2 + 1 < 64 ↔ value.toNat ≤ 2 ^ 63 := by
  have hNat : value.toNat ≠ 0 := toNat_ne_zero hZero
  have hne : value.toNat ≠ 2 ^ 63 := by
    intro hEq
    have hTrue := (isPowerOfTwo_iff value).mpr ⟨63, hEq⟩
    rw [hPower] at hTrue
    cases hTrue
  have hLog : value.toNat.log2 < 63 ↔ value.toNat < 2 ^ 63 := Nat.log2_lt hNat
  omega

/-- On a number. -/
theorem nextPowerOfTwo_eq (hPos : 1 ≤ value.toNat) (hLe : value.toNat ≤ 2 ^ 63) :
    ∃ power, nextPowerOfTwo value = some power ∧
      power.toNat = SizeT.nextPowerOfTwo value.toNat := by
  have hZero : value ≠ 0 := by
    rintro rfl
    exact absurd hPos (by decide)
  rw [SizeT.nextPowerOfTwo, ← isPowerOfTwo_eq]
  cases hPower : isPowerOfTwo value with
  | true => exact ⟨value, by rw [nextPowerOfTwo, hPower]; rfl, rfl⟩
  | false =>
      rw [nextPowerOfTwo_of_not hPower hZero]
      exact shiftOne_toNat ((log2_lt_iff hPower hZero).mpr hLe)

/-- Elsewhere there are no leading zeros to count, or the shift is too wide. -/
theorem nextPowerOfTwo_isSome_iff (value : BitVec 64) :
    (nextPowerOfTwo value).isSome ↔ 1 ≤ value.toNat ∧ value.toNat ≤ 2 ^ 63 := by
  constructor
  · intro hSome
    cases hPower : isPowerOfTwo value with
    | true =>
        obtain ⟨bits, hBits⟩ := (isPowerOfTwo_iff value).mp hPower
        have hLt : 2 ^ bits < 2 ^ 64 := hBits ▸ value.isLt
        have hLe : bits ≤ 63 :=
          Nat.le_of_lt_succ ((Nat.pow_lt_pow_iff_right (by decide)).mp hLt)
        rw [hBits]
        exact ⟨Nat.one_le_two_pow, Nat.pow_le_pow_right (by decide) hLe⟩
    | false =>
        have hZero : value ≠ 0 := by
          rintro rfl
          exact absurd hSome (by decide)
        have hNat : value.toNat ≠ 0 := toNat_ne_zero hZero
        refine ⟨Nat.pos_of_ne_zero hNat, (log2_lt_iff hPower hZero).mp ?_⟩
        by_contra hWide
        rw [nextPowerOfTwo_of_not hPower hZero, shiftOne, if_neg hWide] at hSome
        cases hSome
  · rintro ⟨hPos, hLe⟩
    obtain ⟨power, hNext, -⟩ := nextPowerOfTwo_eq hPos hLe
    rw [hNext]
    rfl

/-- The least power of two that is not below the value. -/
theorem nextPowerOfTwo_least (hPos : 1 ≤ value.toNat) (hLe : value.toNat ≤ 2 ^ 63) :
    ∃ power, nextPowerOfTwo value = some power ∧
      IsLeast (powersFrom value.toNat) power.toNat := by
  obtain ⟨power, hNext, hEq⟩ := nextPowerOfTwo_eq hPos hLe
  obtain ⟨bits, hBits, hFrom, hTo⟩ :=
    SizeT.nextPowerOfTwo_spec value.toNat (Nat.ne_of_gt hPos)
  refine ⟨power, hNext, ?_⟩
  rw [hEq, hBits]
  exact isLeast_powersFrom hFrom hTo

end Powers

/-! ## Multiples -/

section Multiples

variable {w : Nat} {value base : BitVec w}

theorem le_promoted (w : Nat) : w ≤ promoted w := Nat.le_max_left w 32

/-- The sum in the promoted type, converted back. -/
theorem sum_eq (value base : BitVec w) :
    (value.setWidth (promoted w) + base.setWidth (promoted w) -
        value.setWidth (promoted w) % base.setWidth (promoted w)).setWidth w =
      BitVec.ofNat w (value.toNat + base.toNat - value.toNat % base.toNat) := by
  have hMod : value.toNat % base.toNat ≤ value.toNat := Nat.mod_le _ _
  have hSmall : value.toNat < 2 ^ promoted w := BitVec.toNat_lt_twoPow_of_le (le_promoted w)
  have hWord (word : BitVec w) :
      word.setWidth (promoted w) = BitVec.ofNat (promoted w) word.toNat :=
    BitVec.eq_of_toNat_eq (by simp)
  have hRemainder : value.setWidth (promoted w) % base.setWidth (promoted w) =
      BitVec.ofNat (promoted w) (value.toNat % base.toNat) := by
    apply BitVec.eq_of_toNat_eq
    rw [BitVec.toNat_umod, BitVec.toNat_setWidth_of_le (le_promoted w),
      BitVec.toNat_setWidth_of_le (le_promoted w), BitVec.toNat_ofNat]
    exact (Nat.mod_eq_of_lt (Nat.lt_of_le_of_lt hMod hSmall)).symm
  rw [hRemainder, hWord, hWord, BitVec.ofNat_add_ofNat,
    BitVec.ofNat_sub_ofNat_of_le _ _ (by omega) (by omega),
    BitVec.setWidth_ofNat_of_le (le_promoted w)]

/-- What is computed, by the cases of the source. -/
theorem nextMultiple_cases (value : BitVec w) (hBase : 1 ≤ base.toNat) :
    (value.toNat ≤ base.toNat ∧ nextMultiple value base = some base) ∨
    (base.toNat < value.toNat ∧ value.toNat % base.toNat = 0 ∧
      nextMultiple value base = some value) ∨
    (base.toNat < value.toNat ∧ value.toNat % base.toNat ≠ 0 ∧
      nextMultiple value base =
        some (BitVec.ofNat w (value.toNat + base.toNat - value.toNat % base.toNat))) := by
  by_cases hLess : base < value
  · have hLt : base.toNat < value.toNat := hLess
    have hNonzero : base.setWidth (promoted w) ≠ 0 := by
      intro hEq
      have hNat := congrArg BitVec.toNat hEq
      rw [BitVec.toNat_setWidth_of_le (le_promoted w)] at hNat
      exact absurd hNat (Nat.ne_of_gt hBase)
    have hZero : value.setWidth (promoted w) % base.setWidth (promoted w) = 0 ↔
        value.toNat % base.toNat = 0 := by
      rw [← BitVec.toNat_inj, BitVec.toNat_umod, BitVec.toNat_setWidth_of_le (le_promoted w),
        BitVec.toNat_setWidth_of_le (le_promoted w)]
      rfl
    have hNext : nextMultiple value base = some
        (if value.setWidth (promoted w) % base.setWidth (promoted w) = 0 then value
        else BitVec.ofNat w (value.toNat + base.toNat - value.toNat % base.toNat)) := by
      rw [← sum_eq]
      simp only [nextMultiple, if_pos hLess, remainder, if_neg hNonzero, Option.map_some]
    by_cases hMod : value.toNat % base.toNat = 0
    · rw [if_pos (hZero.mpr hMod)] at hNext
      exact Or.inr (Or.inl ⟨hLt, hMod, hNext⟩)
    · rw [if_neg (mt hZero.mp hMod)] at hNext
      exact Or.inr (Or.inr ⟨hLt, hMod, hNext⟩)
  · exact Or.inl ⟨Nat.le_of_not_lt hLess, if_neg hLess⟩

/-- On numbers. -/
theorem nextMultiple_eq (value base : BitVec 64) (hBase : 1 ≤ base.toNat) :
    ∃ multiple, nextMultiple value base = some multiple ∧
      multiple.toNat = SizeT.nextMultiple value.toNat base.toNat := by
  unfold SizeT.nextMultiple
  rcases nextMultiple_cases value hBase with
    ⟨hLe, hNext⟩ | ⟨hLt, hMod, hNext⟩ | ⟨hLt, hMod, hNext⟩
  · refine ⟨base, hNext, ?_⟩
    rw [if_neg (Nat.not_lt.mpr hLe)]
  · refine ⟨value, hNext, ?_⟩
    simp only [if_pos hLt, if_pos hMod]
  · refine ⟨_, hNext, ?_⟩
    have hValue : value.toNat < 2 ^ 64 := value.isLt
    have hSmall : value.toNat % base.toNat ≤ value.toNat := Nat.mod_le _ _
    simp only [if_pos hLt, if_neg hMod, BitVec.toNat_ofNat, sub64, add64]
    generalize value.toNat % base.toNat = mod at hSmall
    omega

/-- The least positive multiple that is not below the value, if there is one in `w` bits. -/
theorem nextMultiple_least (hBase : 1 ≤ base.toNat)
    (hFits : ∃ n ∈ multiplesFrom base.toNat value.toNat, n < 2 ^ w) :
    ∃ multiple, nextMultiple value base = some multiple ∧
      IsLeast (multiplesFrom base.toNat value.toNat) multiple.toNat := by
  rcases nextMultiple_cases value hBase with
    ⟨hLe, hNext⟩ | ⟨hLt, hMod, hNext⟩ | ⟨hLt, hMod, hNext⟩
  · exact ⟨base, hNext, isLeast_base hBase hLe⟩
  · exact ⟨value, hNext, isLeast_value (Nat.lt_of_le_of_lt (Nat.zero_le _) hLt) hMod⟩
  · obtain ⟨n, hn, hSmall⟩ := hFits
    have hLeast := isLeast_next hBase hMod
    refine ⟨_, hNext, ?_⟩
    rw [BitVec.toNat_ofNat, Nat.mod_eq_of_lt (Nat.lt_of_le_of_lt (hLeast.2 hn) hSmall)]
    exact hLeast

end Multiples

/-- Every helper gives the least number of its kind that is not below the value, where that is
a number of the type. -/
theorem rounding_exact :
    (∀ value : BitVec 64, 1 ≤ value.toNat → value.toNat ≤ 2 ^ 63 →
      ∃ power, nextPowerOfTwo value = some power ∧
        IsLeast (powersFrom value.toNat) power.toNat) ∧
    (∀ value : BitVec 64, isPowerOfTwo value = true ↔ value.toNat.isPowerOfTwo) ∧
    ∀ (w : Nat) (value base : BitVec w), 1 ≤ base.toNat →
      (∃ n ∈ multiplesFrom base.toNat value.toNat, n < 2 ^ w) →
      ∃ multiple, nextMultiple value base = some multiple ∧
        IsLeast (multiplesFrom base.toNat value.toNat) multiple.toNat := by
  refine ⟨fun value hPos hLe => ?_, isPowerOfTwo_iff, fun w value base hBase hFits => ?_⟩
  · exact nextPowerOfTwo_least hPos hLe
  · exact nextMultiple_least hBase hFits

/-- A value above half of the range, and a byte that is rounded to 250 through a sum of 280. -/
theorem rounding_exact_top :
    (∃ power, nextPowerOfTwo 0x4000000000000001#64 = some power ∧
      IsLeast (powersFrom 0x4000000000000001) power.toNat) ∧
    nextPowerOfTwo 0x4000000000000001#64 = some 0x8000000000000000#64 ∧
    (∃ multiple, nextMultiple 230#8 50#8 = some multiple ∧
      IsLeast (multiplesFrom 50 230) multiple.toNat) ∧
    nextMultiple 230#8 50#8 = some 250#8 :=
  ⟨rounding_exact.1 0x4000000000000001#64 (by decide) (by decide), by decide,
    rounding_exact.2.2 8 230#8 50#8 (by decide)
      ⟨250, ⟨by decide, by decide, by decide⟩, by decide⟩, by decide⟩

end MxTasking.Memory.AlignmentHelper
