import BBoot.Libc.Blocks

/-!
# `memset` of `string_ppc.S`

The byte is spread over a word. The first word is stored where the range starts;
the aligned words behind it begin in the first one and write some of its bytes
again.

Results:
* `memset_fills`, `bzero_clears`: the bytes of the range, and no others.
-/

namespace BBoot.Libc

open BBoot.Ppc

/-- The two `rlwimi` of `memset`. -/
def spread (x : Word) : Word :=
  let y := x.rotateLeft 8 &&& mask 16 23 ||| x &&& ~~~mask 16 23
  y.rotateLeft 16 &&& mask 0 15 ||| y &&& ~~~mask 0 15

theorem spread_extract (x : Word) {k : ℕ} (hk : k = 0 ∨ k = 8 ∨ k = 16 ∨ k = 24) :
    (spread x).extractLsb' k 8 = x.setWidth 8 := by
  have h1 : mask 16 23 = 0xff00#32 := by decide
  have h2 : mask 0 15 = 0xffff0000#32 := by decide
  unfold spread
  rw [h1, h2]
  apply BitVec.eq_of_getLsbD_eq
  intro i hi
  rcases hk with rfl | rfl | rfl | rfl <;> interval_cases i <;>
    simp

/-- Every byte of the word is the low byte of the argument. -/
theorem be32Bytes_spread (x : Word) : be32Bytes (spread x) = List.replicate 4 (x.setWidth 8) := by
  rw [be32Bytes, spread_extract x (by omega), spread_extract x (by omega),
    spread_extract x (by omega), spread_extract x (by omega)]
  rfl

theorem spread_setWidth (x : Word) : (spread x).setWidth 8 = x.setWidth 8 := by
  have := spread_extract x (k := 0) (by omega)
  rwa [← BitVec.setWidth_eq_extractLsb' (by omega)] at this

/-- `n` bytes were set to `b`, and `r3` kept. -/
def Filled (s : State) (d : Word) (n : ℕ) (b : Byte) (s' : State) : Prop :=
  s'.mem = fillBytes s.mem d n b ∧ s'.gpr 3 = s.gpr 3

/-- A piece and what is set behind it, or from inside it on. -/
theorem Filled.over {s t s' : State} {d : Word} {c i n : ℕ} {b : Byte} (hi : i ≤ c) (hn : c ≤ i + n)
    (hlt : i + n ≤ 2 ^ 32) (hm : t.mem = fillBytes s.mem d c b) (h3 : t.gpr 3 = s.gpr 3)
    (ht : Filled t (d + BitVec.ofNat 32 i) n b s') : Filled s d (i + n) b s' := by
  refine ⟨?_, ht.2.trans h3⟩
  rw [ht.1, hm, fillBytes_over s.mem d b hi hn hlt]

/-- The loop over the bytes that are left (label 8). -/
theorem memset_bytes {s : State} {d x : Word} {n : ℕ} (hn : n + 1 < 2 ^ 32)
    (h4 : s.gpr 4 = spread x) (h6 : s.gpr 6 = d - 1) (hctr : s.ctr = BitVec.ofNat 32 (n + 1)) :
    Returns stringPpc ⟨.memset, 23⟩ s (Filled s d (n + 1) (x.setWidth 8)) := by
  induction n generalizing s d with
  | zero =>
    refine returns_label rfl (returns_ops [.stbu 4 1 6] rfl ?_)
    refine returns_skip rfl ?_ (returns_leave rfl rfl ⟨?_, ?_⟩)
    · simp [hctr]
    · simp [h4, h6, Op.storeByte, spread_setWidth, fillBytes]
    · simp
  | succ n ih =>
    rw [Nat.add_comm (n + 1)]
    refine returns_label rfl (returns_ops [.stbu 4 1 6] rfl ?_)
    refine returns_goto (q := ⟨.memset, 23⟩) rfl ?_ rfl
      (Returns.mono (ih (d := d + BitVec.ofNat 32 1) (by omega) ?_ ?_ ?_) fun s' hs' => ?_)
    · have hpos := ctr_more hctr (by omega)
      simpa using hpos
    · simpa using h4
    · simp [h6]
    · simpa using ctr_last hctr
    · refine Filled.over (c := 1) (by omega) (by omega) (by omega) ?_ ?_ hs'
      · simp [h4, h6, Op.storeByte, spread_setWidth, fillBytes]
      · simp

/-- Less than four bytes are left, or none (label 7). -/
theorem memset_rest {s : State} {d x : Word} {n : ℕ} (hn : n < 2 ^ 32) (h4 : s.gpr 4 = spread x)
    (h6 : s.gpr 6 = d - 4) (h5 : s.gpr 5 = BitVec.ofNat 32 n) :
    Returns stringPpc ⟨.memset, 18⟩ s (Filled s d n (x.setWidth 8)) := by
  refine returns_label rfl (returns_ops [.cmpwi 0 5 0] rfl ?_)
  cases n with
  | zero =>
    refine returns_leave rfl ?_ ⟨?_, ?_⟩
    · simp [h5]
    · simp [fillBytes]
    · simp
  | succ n =>
    have hpos := ofNat_ne_zero hn
    have e3 : ∀ y : Word, y - 4#32 + 3#32 = y - 1#32 := by
      intro y
      bv_omega
    refine returns_skip rfl ?_ (returns_ops [.mtctr 5, .addi 6 6 3] rfl
      (Returns.mono (memset_bytes (d := d) (x := x) hn ?_ ?_ ?_) fun s' hs' => ?_))
    · simpa [h5] using hpos
    · simpa using h4
    · simp [h6, e3]
    · simp [h5]
    · simpa [Filled] using hs'

theorem low_two_ofNat {n : ℕ} (h : n < 2 ^ 32) :
    BitVec.ofNat 32 n &&& 3#32 = BitVec.ofNat 32 (n % 4) := by
  rw [low_two, toNat_ofNat h]

theorem shift_two {n : ℕ} (h : n < 2 ^ 32) :
    (BitVec.ofNat 32 n).rotateLeft 30 &&& mask 2 31 = BitVec.ofNat 32 (n / 4) := by
  rw [rotate_mask_shift (k := 2) _ (by omega) (by omega)]
  apply BitVec.eq_of_toNat_eq
  rw [BitVec.toNat_ushiftRight, toNat_ofNat h, toNat_ofNat (by omega), Nat.shiftRight_eq_div_pow]

/-- The words are stored (label 6). -/
theorem memset_tail {s : State} {d x : Word} {n : ℕ} (hn : n < 2 ^ 32) (h4 : s.gpr 4 = spread x)
    (h6 : s.gpr 6 = d - 4) (h5 : s.gpr 5 = BitVec.ofNat 32 n) :
    Returns stringPpc ⟨.memset, 16⟩ s (Filled s d (n % 4) (x.setWidth 8)) := by
  refine returns_label rfl (returns_ops [.andiRc 5 5 3] rfl
    (Returns.mono (memset_rest (d := d) (x := x) (n := n % 4) (by omega) ?_ ?_ ?_) fun s' hs' => ?_))
  · simpa using h4
  · simpa using h6
  · simpa [h5] using low_two_ofNat hn
  · simpa [Filled] using hs'

/-- The loop over the words (label 1). -/
theorem memset_words {s : State} {d x : Word} {c n : ℕ} (hlt : 4 * (c + 1) + n % 4 < 2 ^ 32)
    (hn : n < 2 ^ 32) (h4 : s.gpr 4 = spread x) (h6 : s.gpr 6 = d - 4)
    (h5 : s.gpr 5 = BitVec.ofNat 32 n) (hctr : s.ctr = BitVec.ofNat 32 (c + 1)) :
    Returns stringPpc ⟨.memset, 13⟩ s (Filled s d (4 * (c + 1) + n % 4) (x.setWidth 8)) := by
  induction c generalizing s d with
  | zero =>
    refine returns_label rfl (returns_ops [.stwu 4 4 6] rfl ?_)
    refine returns_skip rfl ?_
      (Returns.mono (memset_tail (d := d + BitVec.ofNat 32 4) (x := x) hn ?_ ?_ ?_) fun s' hs' => ?_)
    · simp [hctr]
    · simpa using h4
    · simp [h6]
    · simpa using h5
    · refine Filled.over (c := 4) (by omega) (by omega) (by omega) ?_ ?_ hs'
      · simp [h4, h6, store32, be32Bytes_spread, fillBytes]
      · simp
  | succ c ih =>
    rw [show 4 * (c + 1 + 1) + n % 4 = 4 + (4 * (c + 1) + n % 4) by omega]
    refine returns_label rfl (returns_ops [.stwu 4 4 6] rfl ?_)
    refine returns_goto (q := ⟨.memset, 13⟩) rfl ?_ rfl
      (Returns.mono (ih (d := d + BitVec.ofNat 32 4) (by omega) ?_ ?_ ?_ ?_) fun s' hs' => ?_)
    · have hpos := ctr_more hctr (by omega)
      simpa using hpos
    · simpa using h4
    · simp [h6]
    · simpa using h5
    · simpa using ctr_last hctr
    · refine Filled.over (c := 4) (by omega) (by omega) (by omega) ?_ ?_ hs'
      · simp [h4, h6, store32, be32Bytes_spread, fillBytes]
      · simp

/-- The words behind the first one, with `n` bytes from the last word boundary on
    (line 11 of the listing). -/
theorem memset_aligned {s : State} {d x : Word} {n : ℕ} (h4n : 4 ≤ n) (hn : n < 2 ^ 32)
    (h4 : s.gpr 4 = spread x) (h6 : s.gpr 6 = d - 4) (h5 : s.gpr 5 = BitVec.ofNat 32 n)
    (h0 : s.gpr 0 = BitVec.ofNat 32 (n / 4)) :
    Returns stringPpc ⟨.memset, 11⟩ s (Filled s d (n - 4) (x.setWidth 8)) := by
  refine returns_ops [.mtctr 0] rfl ?_
  obtain ⟨c, hc⟩ : ∃ c, n / 4 = c + 1 := Nat.exists_eq_succ_of_ne_zero (by omega)
  rw [hc] at h0
  cases c with
  | zero =>
    have he : n - 4 = n % 4 := by omega
    refine returns_goto (q := ⟨.memset, 16⟩) rfl ?_ rfl
      (Returns.mono (memset_tail (d := d) (x := x) hn ?_ ?_ ?_) fun s' hs' => ?_)
    · simp [h0]
    · simpa using h4
    · simpa using h6
    · simpa using h5
    · rw [he]
      simpa [Filled] using hs'
  | succ c =>
    have he : n - 4 = 4 * (c + 1) + n % 4 := by omega
    refine returns_skip rfl ?_ (Returns.mono
      (memset_words (d := d) (x := x) (c := c) (n := n) (by omega) hn ?_ ?_ ?_ ?_)
      fun s' hs' => ?_)
    · have hpos := ctr_more h0 (by omega)
      simpa using hpos
    · simpa using h4
    · simpa using h6
    · simpa using h5
    · simpa using ctr_last h0
    · rw [he]
      simpa [Filled] using hs'

/-- More than four bytes, the first word of which is stored (line 7 of the listing). -/
theorem memset_more {s : State} {d x : Word} {n : ℕ} (h4n : 4 < n) (hn : n + d.toNat % 4 < 2 ^ 32)
    (h4 : s.gpr 4 = spread x) (h6 : s.gpr 6 = d) (h5 : s.gpr 5 = BitVec.ofNat 32 n) :
    Returns stringPpc ⟨.memset, 7⟩ s
      (Filled s (d + BitVec.ofNat 32 (4 - d.toNat % 4)) (n + d.toNat % 4 - 4) (x.setWidth 8)) := by
  have hlow := low_two d
  obtain ⟨a, ha⟩ : ∃ a, d.toNat % 4 = a := ⟨_, rfl⟩
  have ha4 : a < 4 := ha ▸ Nat.mod_lt _ (by omega)
  rw [ha] at hn hlow ⊢
  have hsum : BitVec.ofNat 32 a + BitVec.ofNat 32 n = BitVec.ofNat 32 (n + a) := by
    rw [BitVec.ofNat_add, BitVec.add_comm]
  have hback : d - BitVec.ofNat 32 a = d + BitVec.ofNat 32 (4 - a) - 4#32 := by
    have hfour : 4#32 = BitVec.ofNat 32 (4 - a) + BitVec.ofNat 32 a := by
      rw [← BitVec.ofNat_add, Nat.sub_add_cancel ha4.le]
    rw [hfour]
    generalize BitVec.ofNat 32 (4 - a) = y
    generalize BitVec.ofNat 32 a = z
    bv_omega
  refine returns_ops [.andiRc 0 6 3, .add 5 0 5, .subf 6 0 6, .rlwinm 0 5 (32 - 2) 2 31] rfl
    (Returns.mono (memset_aligned (d := d + BitVec.ofNat 32 (4 - a)) (x := x) (n := n + a) (by omega)
      hn ?_ ?_ ?_ ?_) fun s' hs' => ?_)
  · simpa using h4
  · simpa [h6, hlow] using hback
  · simpa [h6, h5, hlow] using hsum
  · have := shift_two hn
    rw [← hsum] at this
    simpa [h6, h5, hlow] using this
  · simpa [Filled] using hs'

/-- `memset` from its first line, for `n` bytes. -/
theorem memset_returns {s : State} {n : ℕ} (h5 : s.gpr 5 = BitVec.ofNat 32 n)
    (hn : n + (s.gpr 3).toNat % 4 < 2 ^ 32) :
    Returns stringPpc ⟨.memset, 0⟩ s (Filled s (s.gpr 3) n ((s.gpr 4).setWidth 8)) := by
  refine returns_ops [.rlwimi 4 4 8 16 23, .rlwimi 4 4 16 0 15, .addi 6 3 (-4), .cmplwi 0 5 4] rfl ?_
  have hless : (BitVec.ofNat 32 n).ult 4#32 = decide (n < 4) := below_four (by omega)
  have hfour : BitVec.ofNat 32 n = 4#32 ↔ n = 4 := by
    constructor
    · intro h
      have := congrArg BitVec.toNat h
      rwa [toNat_ofNat (by omega)] at this
    · rintro rfl
      rfl
  generalize hu : Program.execAll s
    [.rlwimi 4 4 8 16 23, .rlwimi 4 4 16 0 15, .addi 6 3 (-4), .cmplwi 0 5 4] = u
  have u3 : u.gpr 3 = s.gpr 3 := by simp [← hu]
  have u4 : u.gpr 4 = spread (s.gpr 4) := by simp [← hu, spread]
  have u5 : u.gpr 5 = BitVec.ofNat 32 n := by simp [← hu, h5]
  have u6 : u.gpr 6 = s.gpr 3 - 4#32 := by simp [← hu, sub_four]
  have um : u.mem = s.mem := by simp [← hu]
  have uless : (u.cr 0).lt = decide (n < 4) := by simp [← hu, h5, hless]
  have ueq : (u.cr 0).eq = decide (n = 4) := by simp [← hu, h5, hfour]
  by_cases hlt : n < 4
  · refine returns_goto (q := ⟨.memset, 18⟩) rfl ?_ rfl (Returns.mono
      (memset_rest (d := s.gpr 3) (x := s.gpr 4) (n := n) (by omega) ?_ ?_ ?_) fun s' hs' => ?_)
    · simpa [uless] using hlt
    · exact u4
    · exact u6
    · exact u5
    · simpa [Filled, um, u3] using hs'
  · refine returns_skip rfl ?_ (returns_ops [.stwu 4 4 6] rfl ?_)
    · simpa [uless] using hlt
    have hfirst : (Program.execAll ((Test.set 0 .lt).step u) [.stwu 4 4 6]).mem =
        fillBytes s.mem (s.gpr 3) 4 ((s.gpr 4).setWidth 8) := by
      simp [u4, u6, um, store32, be32Bytes_spread, fillBytes]
    by_cases h4n : n = 4
    · refine returns_leave rfl ?_ ⟨?_, ?_⟩
      · simpa [ueq] using h4n
      · rw [h4n]
        exact hfirst
      · simpa using u3
    · refine returns_skip rfl ?_ (Returns.mono
        (memset_more (d := s.gpr 3) (x := s.gpr 4) (n := n) (by omega) hn ?_ ?_ ?_)
        fun s' hs' => ?_)
      · simpa [ueq] using h4n
      · simpa using u4
      · simp [u6]
      · simpa using u5
      · have he : 4 - (s.gpr 3).toNat % 4 + (n + (s.gpr 3).toNat % 4 - 4) = n := by omega
        have := Filled.over (s := s) (c := 4) (by omega) (by omega) (by omega) hfirst
          (by simpa using u3) hs'
        rwa [he] at this

/-! ## The functions -/

/-- `memset` sets the bytes of the range to the low byte of its second argument. The
    aligned count of bytes must not wrap. -/
theorem memset_fills (s : State) (hn : (s.gpr 5).toNat + (s.gpr 3).toNat % 4 < 2 ^ 32) :
    Returns stringPpc ⟨.memset, 0⟩ s fun s' =>
      s'.mem = fillBytes s.mem (s.gpr 3) (s.gpr 5).toNat ((s.gpr 4).setWidth 8) ∧
      s'.gpr 3 = s.gpr 3 :=
  memset_returns (by rw [BitVec.ofNat_toNat, BitVec.setWidth_eq]) hn

theorem memset_fills_nine :
    Returns stringPpc ⟨.memset, 0⟩ (callOf twoStrings 0x2003 0x141 9) fun s' =>
      s'.mem = fillBytes twoStrings 0x2003 (9 : Word).toNat ((0x141 : Word).setWidth 8) ∧
      s'.gpr 3 = 0x2003 :=
  memset_fills (callOf twoStrings 0x2003 0x141 9) (by decide)

/-- `__bzero` is `memset` with zeros. -/
theorem bzero_clears (s : State) (hn : (s.gpr 4).toNat + (s.gpr 3).toNat % 4 < 2 ^ 32) :
    Returns stringPpc ⟨.bzero, 0⟩ s fun s' =>
      s'.mem = fillBytes s.mem (s.gpr 3) (s.gpr 4).toNat 0 ∧ s'.gpr 3 = s.gpr 3 := by
  refine returns_ops [.mr 5 4, .li 4 0] rfl (returns_goto (q := ⟨.memset, 0⟩) rfl rfl rfl
    (Returns.mono (memset_returns (n := (s.gpr 4).toNat) ?_ ?_) fun s' hs' => ?_))
  · simp
  · simpa using hn
  · simpa [Filled] using hs'

end BBoot.Libc
