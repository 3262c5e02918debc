import Mathlib

/-!
# Rounding up to a multiple

`alignUp n d` is the least multiple of `d` that is at least `n`, on `ℕ` and
without any machine overflow. `Common/Word.lean` relates the 32-bit `ROUND_UP`
macro to it.
-/

namespace BBoot

/-- The least multiple of `d` not below `n`. -/
def alignUp (n d : ℕ) : ℕ := (n + d - 1) / d * d

theorem dvd_alignUp (n d : ℕ) : d ∣ alignUp n d := Dvd.intro_left _ rfl

theorem le_alignUp (n : ℕ) {d : ℕ} (hd : 0 < d) : n ≤ alignUp n d := by
  have := Nat.lt_div_mul_add (a := n + d - 1) hd
  unfold alignUp
  omega

theorem alignUp_lt (n : ℕ) {d : ℕ} (hd : 0 < d) : alignUp n d < n + d := by
  unfold alignUp
  have := Nat.div_mul_le_self (n + d - 1) d
  omega

/-- `alignUp n d` is below every multiple of `d` that is at least `n`. -/
theorem alignUp_le_of_dvd {n d m : ℕ} (hd : 0 < d) (hm : d ∣ m) (hn : n ≤ m) :
    alignUp n d ≤ m := by
  obtain ⟨k, rfl⟩ := hm
  have hlt := alignUp_lt n hd
  obtain ⟨j, hj⟩ := dvd_alignUp n d
  rw [hj] at hlt ⊢
  have : j < k + 1 := Nat.lt_of_mul_lt_mul_left (a := d) (by rw [Nat.mul_add, Nat.mul_one]; omega)
  exact Nat.mul_le_mul_left d (by omega)

theorem alignUp_eq_self {n d : ℕ} (hd : 0 < d) (h : d ∣ n) : alignUp n d = n :=
  le_antisymm (alignUp_le_of_dvd hd h le_rfl) (le_alignUp n hd)

/-- If the limit is itself a multiple of `d`, rounding up stays within it. -/
theorem alignUp_le_pow {n k w : ℕ} (hk : k ≤ w) (hn : n ≤ 2 ^ w) : alignUp n (2 ^ k) ≤ 2 ^ w :=
  alignUp_le_of_dvd (by positivity) (pow_dvd_pow 2 hk) hn

end BBoot
