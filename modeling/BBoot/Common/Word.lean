import BBoot.Common.Align

/-!
# 32-bit words and the rounding macros of `include/bboot.h`

`unsigned long`, `uint32_t` and every pointer are 32 bits wide on the targets,
so all three are `Word`. The macros are the bit operations of the header;
`roundUp_toNat` gives their value in `ℕ` for powers of two, wrapping included.
-/

namespace BBoot

/-- `uint8_t`, `char`. -/
abbrev Byte := BitVec 8

/-- `uint32_t`, `unsigned long` and pointers. -/
abbrev Word := BitVec 32

/-- `ROUND_DOWN(n, d)` (`include/bboot.h` line 14): `((n) & -(0 ? (n) : (d)))`. -/
def roundDown (n d : Word) : Word := n &&& -d

/-- `ROUND_UP(n, d)` (`include/bboot.h` line 15): `ROUND_DOWN((n) + (d) - 1, (d))`. -/
def roundUp (n d : Word) : Word := roundDown (n + d - 1) d

theorem two_pow_toNat {k : ℕ} (hk : k < 32) : (BitVec.twoPow 32 k).toNat = 2 ^ k :=
  BitVec.toNat_twoPow_of_lt hk

/-- `-2 ^ k` is the mask that clears the low `k` bits. -/
theorem neg_twoPow_toNat {k : ℕ} (hk : k < 32) :
    (-(BitVec.twoPow 32 k) : Word).toNat = 2 ^ 32 - (2 ^ k - 1 + 1) := by
  have h1 : 1 ≤ 2 ^ k := Nat.one_le_two_pow
  rw [BitVec.toNat_neg, two_pow_toNat hk, Nat.mod_eq_of_lt (by omega), Nat.sub_add_cancel h1]

theorem roundDown_toNat (n : Word) {k : ℕ} (hk : k < 32) :
    (roundDown n (BitVec.twoPow 32 k)).toNat = n.toNat / 2 ^ k * 2 ^ k := by
  have hpow : 2 ^ k < 2 ^ 32 := Nat.pow_lt_pow_right (by norm_num) hk
  unfold roundDown
  rw [BitVec.toNat_and, neg_twoPow_toNat hk, ← Nat.shiftRight_eq_div_pow, ← Nat.shiftLeft_eq]
  apply Nat.eq_of_testBit_eq
  intro i
  rw [Nat.testBit_and, Nat.testBit_two_pow_sub_succ (by omega), Nat.testBit_two_pow_sub_one,
    Nat.testBit_shiftLeft, Nat.testBit_shiftRight]
  by_cases hi : k ≤ i
  · have hbit : 32 ≤ i → n.toNat.testBit i = false := fun h =>
      Nat.testBit_eq_false_of_lt (lt_of_lt_of_le n.isLt (Nat.pow_le_pow_right (by norm_num) h))
    rw [show k + (i - k) = i by omega]
    rcases Nat.lt_or_ge i 32 with h | h
    · simp [h, hi]
    · simp [hbit h]
  · simp [hi, Nat.lt_of_not_le hi]

/-- `ROUND_UP` is `alignUp` modulo `2^32`; the only wrapped value is `0`. -/
theorem roundUp_toNat (n : Word) {k : ℕ} (hk : k < 32) :
    (roundUp n (BitVec.twoPow 32 k)).toNat = alignUp n.toNat (2 ^ k) % 2 ^ 32 := by
  have h1 : 1 ≤ 2 ^ k := Nat.one_le_two_pow
  have hpow : 2 ^ k < 2 ^ 32 := Nat.pow_lt_pow_right (by norm_num) hk
  have hn : n.toNat < 2 ^ 32 := n.isLt
  unfold roundUp
  rw [roundDown_toNat _ hk]
  have hsum : (n + BitVec.twoPow 32 k - 1).toNat = (n.toNat + 2 ^ k - 1) % 2 ^ 32 := by
    rw [BitVec.toNat_sub, BitVec.toNat_add, two_pow_toNat hk, show (1 : Word).toNat = 1 from rfl]
    omega
  rw [hsum]
  unfold alignUp
  by_cases h : n.toNat + 2 ^ k - 1 < 2 ^ 32
  · rw [Nat.mod_eq_of_lt h, Nat.mod_eq_of_lt (lt_of_le_of_lt (Nat.div_mul_le_self _ _) h)]
  · -- the sum wraps to a value below `2 ^ k`, and the exact multiple is `2 ^ 32`
    have hle : alignUp n.toNat (2 ^ k) ≤ 2 ^ 32 := alignUp_le_pow (by omega) hn.le
    have hge := le_alignUp n.toNat (d := 2 ^ k) (by omega)
    obtain ⟨c, hc⟩ : 2 ^ k ∣ 2 ^ 32 := pow_dvd_pow 2 (by omega)
    have hexact : alignUp n.toNat (2 ^ k) = 2 ^ 32 := by
      obtain ⟨j, hj⟩ := dvd_alignUp n.toNat (2 ^ k)
      have hcj : c ≤ j := by
        have : c < j + 1 := Nat.lt_of_mul_lt_mul_left (a := 2 ^ k)
          (by rw [← hc, Nat.mul_add, ← hj]; omega)
        omega
      have := Nat.mul_le_mul_left (2 ^ k) hcj
      omega
    unfold alignUp at hexact
    rw [hexact, show (n.toNat + 2 ^ k - 1) % 2 ^ 32 = n.toNat + 2 ^ k - 1 - 2 ^ 32 by
      rw [Nat.mod_eq_sub_mod (by omega), Nat.mod_eq_of_lt (by omega)],
      Nat.div_eq_of_lt (by omega)]
    simp

/-- A size that is a power of two below `2 ^ 32`, the shape every BAR size has. -/
def IsPow2 (size : Word) : Prop := ∃ k < 32, size = BitVec.twoPow 32 k

theorem IsPow2.pos {size : Word} (h : IsPow2 size) : 0 < size.toNat := by
  obtain ⟨k, hk, rfl⟩ := h
  rw [two_pow_toNat hk]; positivity

theorem IsPow2.le {size : Word} (h : IsPow2 size) : size.toNat ≤ 2 ^ 31 := by
  obtain ⟨k, hk, rfl⟩ := h
  rw [two_pow_toNat hk]; exact Nat.pow_le_pow_right (by norm_num) (by omega)

theorem IsPow2.roundUp {size : Word} (h : IsPow2 size) (n : Word) :
    (roundUp n size).toNat = alignUp n.toNat size.toNat % 2 ^ 32 := by
  obtain ⟨k, hk, rfl⟩ := h
  rw [roundUp_toNat n hk, two_pow_toNat hk]

theorem IsPow2.dvd_half {size : Word} (h : IsPow2 size) : size.toNat ∣ 2 ^ 31 := by
  obtain ⟨k, hk, rfl⟩ := h
  rw [two_pow_toNat hk]; exact pow_dvd_pow 2 (by omega)

theorem IsPow2.ne_zero {size : Word} (h : IsPow2 size) : size ≠ 0 := by
  rintro rfl
  exact absurd h.pos (by decide)

theorem IsPow2.alignUp_le {size : Word} (h : IsPow2 size) (n : Word) :
    alignUp n.toNat size.toNat ≤ 2 ^ 32 := by
  obtain ⟨k, hk, rfl⟩ := h
  rw [two_pow_toNat hk]; exact alignUp_le_pow (by omega) n.isLt.le

/-- A multiple of a power of two below `2^32` leaves room for one more. -/
theorem IsPow2.add_le {size : Word} (h : IsPow2 size) {m : ℕ} (hd : size.toNat ∣ m)
    (hm : m < 2 ^ 32) : m + size.toNat ≤ 2 ^ 32 := by
  obtain ⟨c, hc⟩ : size.toNat ∣ 2 ^ 32 := h.dvd_half.trans (by norm_num)
  obtain ⟨j, rfl⟩ := hd
  rw [hc] at hm ⊢
  have : j < c := Nat.lt_of_mul_lt_mul_left hm
  calc size.toNat * j + size.toNat = size.toNat * (j + 1) := by ring
    _ ≤ size.toNat * c := Nat.mul_le_mul_left _ this

end BBoot
