import BBoot.Common.Word

/-!
# Numbers as lists of bits

`toBits n v` are the low `n` bits of `v`, the least significant first, and
`ofBits` reads such a list back. Prefix codes are written the other way round,
so `codeBits n v` is the reversed list and `codeValue` its value.

Results:
* `ofBits_toBits`, `toBits_ofBits`: the two are inverse.
* `ofBits_append`, `toBits_add`: lists that are split.
* `codeValue_append`: the value of a code with more bits behind it.
* `bitsOf_length`, `ofBits_bitsOf_cons`: the bits of a string of bytes.
-/

namespace BBoot

/-! ## Least significant bit first -/

/-- The number with the bits `bs`. -/
def ofBits : List Bool → ℕ
  | [] => 0
  | b :: bs => b.toNat + 2 * ofBits bs

/-- The low `n` bits of `v`. -/
def toBits : ℕ → ℕ → List Bool
  | 0, _ => []
  | n + 1, v => decide (v % 2 = 1) :: toBits n (v / 2)

@[simp] theorem toBits_length (n v : ℕ) : (toBits n v).length = n := by
  induction n generalizing v with
  | zero => rfl
  | succ n ih => rw [toBits, List.length_cons, ih]

theorem ofBits_lt (bs : List Bool) : ofBits bs < 2 ^ bs.length := by
  induction bs with
  | nil => exact Nat.one_pos
  | cons b bs ih =>
    have hb := Bool.toNat_lt b
    rw [ofBits, List.length_cons, Nat.pow_succ]
    omega

@[simp] theorem toBits_ofBits (bs : List Bool) : toBits bs.length (ofBits bs) = bs := by
  induction bs with
  | nil => rfl
  | cons b bs ih =>
    have hdiv : (b.toNat + 2 * ofBits bs) / 2 = ofBits bs := by
      have := Bool.toNat_lt b
      omega
    have hmod : decide ((b.toNat + 2 * ofBits bs) % 2 = 1) = b := by
      cases b <;> simp [Nat.add_mod]
    rw [List.length_cons, ofBits, toBits, hdiv, hmod, ih]

theorem ofBits_toBits (n v : ℕ) : ofBits (toBits n v) = v % 2 ^ n := by
  induction n generalizing v with
  | zero => rw [toBits, ofBits, Nat.pow_zero, Nat.mod_one]
  | succ n ih =>
    have hbit : (decide (v % 2 = 1)).toNat = v % 2 := by
      rcases Nat.mod_two_eq_zero_or_one v with h | h <;> simp [h]
    rw [toBits, ofBits, ih, hbit, Nat.pow_succ, Nat.mul_comm (2 ^ n) 2, Nat.mod_mul]

theorem ofBits_append (as bs : List Bool) :
    ofBits (as ++ bs) = ofBits as + 2 ^ as.length * ofBits bs := by
  induction as with
  | nil => simp [ofBits]
  | cons a as ih =>
    rw [List.cons_append, ofBits, ih, ofBits, List.length_cons, Nat.pow_succ]
    ring

theorem toBits_add (n k v : ℕ) : toBits (n + k) v = toBits n v ++ toBits k (v / 2 ^ n) := by
  induction n generalizing v with
  | zero => simp [toBits]
  | succ n ih =>
    rw [Nat.succ_add, toBits, ih, toBits, List.cons_append, Nat.div_div_eq_div_mul,
      Nat.pow_succ, Nat.mul_comm (2 ^ n) 2]

theorem ofBits_inj {as bs : List Bool} (hlen : as.length = bs.length)
    (h : ofBits as = ofBits bs) : as = bs := by
  rw [← toBits_ofBits as, ← toBits_ofBits bs, hlen, h]

/-! ## Most significant bit first -/

/-- The `n` bits of the code `v`. -/
def codeBits (n v : ℕ) : List Bool := (toBits n v).reverse

/-- The code with the bits `bs`. -/
def codeValue (bs : List Bool) : ℕ := ofBits bs.reverse

@[simp] theorem codeBits_length (n v : ℕ) : (codeBits n v).length = n := by
  rw [codeBits, List.length_reverse, toBits_length]

@[simp] theorem codeValue_nil : codeValue [] = 0 := rfl

theorem codeValue_codeBits (n v : ℕ) : codeValue (codeBits n v) = v % 2 ^ n := by
  rw [codeValue, codeBits, List.reverse_reverse, ofBits_toBits]

theorem codeBits_codeValue (bs : List Bool) : codeBits bs.length (codeValue bs) = bs := by
  rw [codeBits, codeValue, ← List.length_reverse, toBits_ofBits, List.reverse_reverse]

theorem codeValue_lt (bs : List Bool) : codeValue bs < 2 ^ bs.length := by
  rw [codeValue, ← List.length_reverse]
  exact ofBits_lt _

theorem codeValue_append (as bs : List Bool) :
    codeValue (as ++ bs) = codeValue as * 2 ^ bs.length + codeValue bs := by
  unfold codeValue
  rw [List.reverse_append, ofBits_append, List.length_reverse]
  ring

theorem codeValue_concat (bs : List Bool) (b : Bool) :
    codeValue (bs ++ [b]) = 2 * codeValue bs + b.toNat := by
  rw [codeValue_append, codeValue, codeValue]
  simp only [List.length_singleton, Nat.pow_one, List.reverse_singleton, ofBits]
  ring

/-! ## Bytes -/

/-- The bits of a string of bytes. -/
def bitsOf (bs : List Byte) : List Bool := bs.flatMap fun b => toBits 8 b.toNat

@[simp] theorem bitsOf_nil : bitsOf [] = [] := rfl

theorem bitsOf_cons (b : Byte) (bs : List Byte) : bitsOf (b :: bs) = toBits 8 b.toNat ++ bitsOf bs :=
  rfl

theorem bitsOf_append (as bs : List Byte) : bitsOf (as ++ bs) = bitsOf as ++ bitsOf bs :=
  List.flatMap_append

@[simp] theorem bitsOf_length (bs : List Byte) : (bitsOf bs).length = 8 * bs.length := by
  induction bs with
  | nil => rfl
  | cons b bs ih =>
    rw [bitsOf_cons, List.length_append, toBits_length, ih, List.length_cons]
    ring

theorem bitsOf_drop (bs : List Byte) (n : ℕ) : (bitsOf bs).drop (8 * n) = bitsOf (bs.drop n) := by
  induction n generalizing bs with
  | zero => rfl
  | succ n ih =>
    cases bs with
    | nil => simp
    | cons b bs =>
      rw [bitsOf_cons, List.drop_succ_cons, ← ih, show 8 * (n + 1) = 8 + 8 * n by ring,
        ← List.drop_drop, List.drop_left' (toBits_length ..)]

theorem bitsOf_inj {as bs : List Byte} (h : bitsOf as = bitsOf bs) : as = bs := by
  induction as generalizing bs with
  | nil =>
    cases bs with
    | nil => rfl
    | cons b bs => simp [bitsOf_cons, toBits] at h
  | cons a as ih =>
    cases bs with
    | nil => simp [bitsOf_cons, toBits] at h
    | cons b bs =>
      rw [bitsOf_cons, bitsOf_cons] at h
      obtain ⟨hbyte, hrest⟩ := List.append_inj h (by simp)
      have hval := congrArg ofBits hbyte
      rw [ofBits_toBits, ofBits_toBits, Nat.mod_eq_of_lt a.isLt, Nat.mod_eq_of_lt b.isLt] at hval
      rw [BitVec.eq_of_toNat_eq hval, ih hrest]

/-! ## Packing -/

/-- The first `8 * n` bits as bytes; missing bits are zero. -/
def packBytes : ℕ → List Bool → List Byte
  | 0, _ => []
  | n + 1, bs => BitVec.ofNat 8 (ofBits (bs.take 8)) :: packBytes n (bs.drop 8)

theorem packBytes_length (n : ℕ) (bs : List Bool) : (packBytes n bs).length = n := by
  induction n generalizing bs with
  | zero => rfl
  | succ n ih => rw [packBytes, List.length_cons, ih]

theorem toBits_zero (n : ℕ) : toBits n 0 = List.replicate n false := by
  induction n with
  | zero => rfl
  | succ n ih =>
    rw [toBits, Nat.zero_div, ih, List.replicate_succ]
    rfl

/-- A number of more bits than it was made of. -/
theorem toBits_ofBits_of_le {bs : List Bool} {n : ℕ} (h : bs.length ≤ n) :
    toBits n (ofBits bs) = bs ++ List.replicate (n - bs.length) false := by
  obtain ⟨k, rfl⟩ := Nat.exists_eq_add_of_le h
  rw [toBits_add, toBits_ofBits, Nat.div_eq_of_lt (ofBits_lt bs), toBits_zero,
    Nat.add_sub_cancel_left]

/-- The bits of packed bits are these bits and zeros. -/
theorem bitsOf_packBytes {n : ℕ} {bs : List Bool} (h : bs.length ≤ 8 * n) :
    bitsOf (packBytes n bs) = bs ++ List.replicate (8 * n - bs.length) false := by
  induction n generalizing bs with
  | zero =>
    rw [List.length_eq_zero_iff.mp (Nat.le_zero.mp h)]
    rfl
  | succ n ih =>
    have hlt := ofBits_lt (bs.take 8)
    have hlen : (bs.take 8).length ≤ 8 := List.length_take_le 8 bs
    have hbyte : (BitVec.ofNat 8 (ofBits (bs.take 8))).toNat = ofBits (bs.take 8) := by
      rw [BitVec.toNat_ofNat, Nat.mod_eq_of_lt (hlt.trans_le (Nat.pow_le_pow_right two_pos hlen))]
    rw [packBytes, bitsOf_cons, hbyte, toBits_ofBits_of_le hlen,
      ih (by rw [List.length_drop]; omega)]
    by_cases hle : bs.length ≤ 8
    · rw [List.drop_eq_nil_of_le hle, List.take_of_length_le hle, List.nil_append, List.append_assoc,
        ← List.replicate_add, List.length_nil]
      congr 2
      omega
    · rw [List.length_take, min_eq_left (by omega), Nat.sub_self, List.replicate_zero, List.append_nil,
        ← List.append_assoc, List.take_append_drop, List.length_drop]
      congr 2
      omega

end BBoot
