import BBoot.Libc.StringCopy

/-!
# `memcpy` and `memmove` of `string_ppc.S`

The copies go by words where they can: bytes until the destination is aligned, two
words at a time, one word, and the bytes that are left. Each part is proved with all
that follows it, so that it says "the `n` bytes that are left are copied"
(`Copied`); the parts before it add their piece by `copyBytes_up` or
`copyBytes_down`.

Results:
* `memcpy_copies`, `bcopy_copies`: correct if no byte is overwritten too early.
* `memmove_moves`: correct for any two ranges that do not wrap.
-/

namespace BBoot.Libc

open BBoot.Ppc

/-! ## Copying upwards -/

/-- `n` bytes were copied, and `r3` kept. -/
def Copied (s : State) (d q : Word) (n : ℕ) (s' : State) : Prop :=
  s'.mem = copyBytes s.mem d q n ∧ s'.gpr 3 = s.gpr 3

/-- A piece and the rest. -/
theorem Copied.up {s t s' : State} {d q : Word} {c n : ℕ} (h : Upward d q (c + n))
    (hlt : c + n ≤ 2 ^ 32) (hm : t.mem = copyBytes s.mem d q c) (h3 : t.gpr 3 = s.gpr 3)
    (ht : Copied t (d + BitVec.ofNat 32 c) (q + BitVec.ofNat 32 c) n s') :
    Copied s d q (c + n) s' := by
  refine ⟨?_, ht.2.trans h3⟩
  rw [ht.1, hm, copyBytes_up s.mem h hlt]

/-- The loop over the bytes that are left (label 4). -/
theorem memcpy_bytes {s : State} {d q : Word} {n : ℕ} (hup : Upward d q (n + 1))
    (hn : n + 1 < 2 ^ 32) (h4 : s.gpr 4 = q - 1) (h6 : s.gpr 6 = d - 1)
    (hctr : s.ctr = BitVec.ofNat 32 (n + 1)) :
    Returns stringPpc ⟨.memcpy, 26⟩ s (Copied s d q (n + 1)) := by
  induction n generalizing s d q with
  | zero =>
    refine returns_label rfl (returns_ops [.lbzu 0 1 4, .stbu 0 1 6] rfl ?_)
    refine returns_skip rfl ?_ (returns_leave rfl rfl ⟨?_, ?_⟩)
    · simp [hctr]
    · simp [h4, h6, Op.storeByte_setWidth, copyBytes, readBytes]
    · simp
  | succ n ih =>
    rw [Nat.add_comm (n + 1)] at hup ⊢
    refine returns_label rfl (returns_ops [.lbzu 0 1 4, .stbu 0 1 6] rfl ?_)
    refine returns_goto (q := ⟨.memcpy, 26⟩) rfl ?_ rfl
      (Returns.mono (ih hup.rest (by omega) ?_ ?_ ?_) fun s' hs' => ?_)
    · have hpos := ctr_more hctr (by omega)
      simpa using hpos
    · simp [h4]
    · simp [h6]
    · simpa using ctr_last hctr
    · refine Copied.up hup (by omega) ?_ ?_ hs'
      · simp [h4, h6, Op.storeByte_setWidth, copyBytes, readBytes]
      · simp

/-- Less than four bytes are left, or none (label 3). -/
theorem memcpy_rest {s : State} {d q : Word} {n : ℕ} (hup : Upward d q n) (hn : n < 2 ^ 32)
    (h4 : s.gpr 4 = q - 4) (h6 : s.gpr 6 = d - 4) (h5 : s.gpr 5 = BitVec.ofNat 32 n) :
    Returns stringPpc ⟨.memcpy, 20⟩ s (Copied s d q n) := by
  refine returns_label rfl (returns_ops [.cmpwi 0 5 0] rfl ?_)
  cases n with
  | zero =>
    refine returns_leave rfl ?_ ⟨?_, ?_⟩
    · simp [h5]
    · simp [copyBytes, readBytes]
    · simp
  | succ n =>
    have hpos := ofNat_ne_zero hn
    refine returns_skip rfl ?_ (returns_ops [.mtctr 5, .addi 4 4 3, .addi 6 6 3] rfl
      (Returns.mono (memcpy_bytes hup hn ?_ ?_ ?_) fun s' hs' => ?_))
    · simpa [h5] using hpos
    · simp [h4]
      bv_omega
    · simp [h6]
      bv_omega
    · simp [h5]
    · simpa [Copied] using hs'

/-- A number below `2^32` and its halves, for the tests and the counters. -/
theorem toNat_ofNat {n : ℕ} (h : n < 2 ^ 32) : (BitVec.ofNat 32 n).toNat = n := by
  rw [BitVec.toNat_ofNat, Nat.mod_eq_of_lt h]

theorem shift_three {n : ℕ} (h : n < 2 ^ 32) :
    (BitVec.ofNat 32 n).rotateLeft 29 &&& mask 3 31 = BitVec.ofNat 32 (n / 8) := by
  rw [rotate_mask_shift (k := 3) _ (by omega) (by omega)]
  apply BitVec.eq_of_toNat_eq
  rw [BitVec.toNat_ushiftRight, toNat_ofNat h, toNat_ofNat (by omega), Nat.shiftRight_eq_div_pow]

theorem low_three {n : ℕ} (h : n < 2 ^ 32) :
    BitVec.ofNat 32 n &&& 7 = BitVec.ofNat 32 (n % 8) := by
  have := and_low (BitVec.ofNat 32 n) (k := 3) (by omega)
  rwa [toNat_ofNat h] at this

theorem below_four {n : ℕ} (h : n < 2 ^ 32) : (BitVec.ofNat 32 n).ult 4#32 = decide (n < 4) := by
  rw [BitVec.ult, toNat_ofNat h]
  rfl

/-- Less than eight bytes are left (label 2); more would do as well. -/
theorem memcpy_word {s : State} {d q : Word} {n : ℕ} (hup : Upward d q n) (hn : n < 2 ^ 32)
    (h4 : s.gpr 4 = q - 4) (h6 : s.gpr 6 = d - 4) (h5 : s.gpr 5 = BitVec.ofNat 32 n) :
    Returns stringPpc ⟨.memcpy, 14⟩ s (Copied s d q n) := by
  refine returns_label rfl (returns_ops [.cmplwi 0 5 4] rfl ?_)
  by_cases hlt : n < 4
  · refine returns_goto (q := ⟨.memcpy, 20⟩) rfl ?_ rfl
      (Returns.mono (memcpy_rest hup hn ?_ ?_ ?_) fun s' hs' => ?_)
    · simpa [h5, below_four hn] using hlt
    · simpa using h4
    · simpa using h6
    · simpa using h5
    · simpa [Copied] using hs'
  · obtain ⟨k, rfl⟩ := Nat.exists_eq_add_of_le (Nat.le_of_not_lt hlt)
    refine returns_skip rfl ?_ (returns_ops [.lwzu 0 4 4, .addi 5 5 (-4), .stwu 0 4 6] rfl
      (Returns.mono (memcpy_rest hup.rest (by omega) ?_ ?_ ?_) fun s' hs' => ?_))
    · simp [h5, below_four hn]
    · simp [h4]
    · simp [h6]
    · simp [h5]
      bv_omega
    · refine Copied.up hup (by omega) ?_ ?_ hs'
      · simp [h4, h6, store32_load32]
      · simp

/-- The loop over two words at a time (label 1). -/
theorem memcpy_words {s : State} {d q : Word} {c n : ℕ} (hup : Upward d q (8 * (c + 1) + n % 8))
    (hn : 8 * (c + 1) + n % 8 < 2 ^ 32) (h4 : s.gpr 4 = q - 4) (h6 : s.gpr 6 = d - 4)
    (hctr : s.ctr = BitVec.ofNat 32 (c + 1)) (h5 : s.gpr 5 = BitVec.ofNat 32 n) (hlt : n < 2 ^ 32) :
    Returns stringPpc ⟨.memcpy, 7⟩ s (Copied s d q (8 * (c + 1) + n % 8)) := by
  have e4 : ∀ x : Word, x - 4#32 + 8#32 = x + 4#32 := by
    intro x
    bv_omega
  induction c generalizing s d q with
  | zero =>
    refine returns_label rfl (returns_ops [.lwz 7 4 4, .lwzu 8 8 4, .stw 7 4 6, .stwu 8 8 6] rfl ?_)
    refine returns_skip rfl ?_ (returns_ops [.andiRc 5 5 7] rfl
      (Returns.mono (memcpy_word hup.rest (by omega) ?_ ?_ ?_) fun s' hs' => ?_))
    · simp [hctr]
    · simp [h4]
      bv_omega
    · simp [h6]
      bv_omega
    · simpa [h5] using low_three hlt
    · refine Copied.up hup (by omega) ?_ ?_ hs'
      · have := store32_store32 s.mem d q
        simpa [h4, h6, e4] using this
      · simp
  | succ c ih =>
    rw [show 8 * (c + 1 + 1) + n % 8 = 8 + (8 * (c + 1) + n % 8) by omega] at hup hn ⊢
    refine returns_label rfl (returns_ops [.lwz 7 4 4, .lwzu 8 8 4, .stw 7 4 6, .stwu 8 8 6] rfl ?_)
    refine returns_goto (q := ⟨.memcpy, 7⟩) rfl ?_ rfl
      (Returns.mono (ih hup.rest (by omega) ?_ ?_ ?_ ?_) fun s' hs' => ?_)
    · have hpos := ctr_more hctr (by omega)
      simpa using hpos
    · simp [h4]
      bv_omega
    · simp [h6]
      bv_omega
    · simpa using ctr_last hctr
    · simpa using h5
    · refine Copied.up hup (by omega) ?_ ?_ hs'
      · have := store32_store32 s.mem d q
        simpa [h4, h6, e4] using this
      · simp

/-- The lines behind the loop that aligns the destination (line 208 on). -/
theorem memcpy_aligned {s : State} {d q : Word} {n : ℕ} (hup : Upward d q n) (hn : n < 2 ^ 32)
    (h4 : s.gpr 4 = q - 4) (h6 : s.gpr 6 = d - 4) (h5 : s.gpr 5 - s.gpr 0 = BitVec.ofNat 32 n) :
    Returns stringPpc ⟨.memcpy, 40⟩ s (Copied s d q n) := by
  have h7 : (s.gpr 5 - s.gpr 0).rotateLeft 29 &&& mask 3 31 = BitVec.ofNat 32 (n / 8) := by
    rw [h5, shift_three hn]
  refine returns_ops [.subf 5 0 5, .rlwinmRc 7 5 (32 - 3) 3 31] rfl ?_
  cases hc : n / 8 with
  | zero =>
    refine returns_goto (q := ⟨.memcpy, 14⟩) rfl ?_ rfl
      (Returns.mono (memcpy_word hup hn ?_ ?_ ?_) fun s' hs' => ?_)
    · simp [h7, hc]
    · simpa using h4
    · simpa using h6
    · simpa using h5
    · simpa [Copied] using hs'
  | succ c =>
    have he : 8 * (c + 1) + n % 8 = n := by omega
    refine returns_skip rfl ?_ (returns_ops [.mtctr 7] rfl
      (returns_goto (q := ⟨.memcpy, 7⟩) rfl rfl rfl
        (Returns.mono (memcpy_words (c := c) (n := n) (by rwa [he]) (by rwa [he]) ?_ ?_ ?_ ?_ hn)
          fun s' hs' => ?_)))
    · have hpos := ofNat_ne_zero (n := c) (by omega)
      simpa [h7, hc] using hpos
    · simpa using h4
    · simpa using h6
    · simpa [hc] using h7
    · simpa using h5
    · rw [he] at hs'
      simpa [Copied] using hs'

/-- The loop that aligns the destination, with `n` bytes behind it (label 6). -/
theorem memcpy_align {s : State} {d q : Word} {c n : ℕ} (hup : Upward d q (c + 1 + n))
    (hn : c + 1 + n < 2 ^ 32) (h4 : s.gpr 4 = q - 4) (h6 : s.gpr 6 = d - 4)
    (hctr : s.ctr = BitVec.ofNat 32 (c + 1)) (h5 : s.gpr 5 - s.gpr 0 = BitVec.ofNat 32 n) :
    Returns stringPpc ⟨.memcpy, 34⟩ s (Copied s d q (c + 1 + n)) := by
  have e1 : ∀ x : Word, x - 4#32 + 1#32 = x + 1#32 - 4#32 := by
    intro x
    bv_omega
  induction c generalizing s d q with
  | zero =>
    rw [Nat.zero_add] at hup hn ⊢
    refine returns_label rfl (returns_ops [.lbz 7 4 4, .addi 4 4 1, .stb 7 4 6, .addi 6 6 1] rfl ?_)
    refine returns_skip rfl ?_
      (Returns.mono (memcpy_aligned hup.rest (by omega) ?_ ?_ ?_) fun s' hs' => ?_)
    · simp [hctr]
    · simp [h4, e1]
    · simp [h6, e1]
    · simpa using h5
    · refine Copied.up hup (by omega) ?_ ?_ hs'
      · simp [h4, h6, Op.storeByte_setWidth, copyBytes, readBytes]
      · simp
  | succ c ih =>
    rw [show c + 1 + 1 + n = 1 + (c + 1 + n) by omega] at hup hn ⊢
    refine returns_label rfl (returns_ops [.lbz 7 4 4, .addi 4 4 1, .stb 7 4 6, .addi 6 6 1] rfl ?_)
    refine returns_goto (q := ⟨.memcpy, 34⟩) rfl ?_ rfl
      (Returns.mono (ih hup.rest (by omega) ?_ ?_ ?_ ?_) fun s' hs' => ?_)
    · have hpos := ctr_more hctr (by omega)
      simpa using hpos
    · simp [h4, e1]
    · simp [h6, e1]
    · simpa using ctr_last hctr
    · simpa using h5
    · refine Copied.up hup (by omega) ?_ ?_ hs'
      · simp [h4, h6, Op.storeByte_setWidth, copyBytes, readBytes]
      · simp

theorem ofNat_add_sub (c n : ℕ) :
    BitVec.ofNat 32 (c + n) - BitVec.ofNat 32 c = BitVec.ofNat 32 n := by
  rw [BitVec.ofNat_add, BitVec.add_comm, BitVec.add_sub_cancel]

theorem pad_four {a : ℕ} (h : a < 3) :
    4#32 - BitVec.ofNat 32 (a + 1) = BitVec.ofNat 32 (2 - a + 1) := by
  have h4 : 4#32 = BitVec.ofNat 32 (a + 1 + (2 - a + 1)) := by
    congr 1
    omega
  rw [h4, ofNat_add_sub]

theorem low_two (x : Word) : x &&& 3#32 = BitVec.ofNat 32 (x.toNat % 4) :=
  and_low x (k := 2) (by omega)

theorem sub_four (x : Word) : x + 4294967292#32 = x - 4#32 := by bv_omega

theorem memcpy_unaligned : findAhead memcpyCode 5 6 = some 31 := by decide +kernel

/-- The branch to label 5. -/
theorem memcpy_jump (s : State) :
    stringPpc.jump ⟨.memcpy, 6⟩ s (.ahead 5) = .goto ⟨.memcpy, 31⟩ s := by
  show Program.toLine _ (findAhead memcpyCode 5 6) s = _
  rw [memcpy_unaligned]
  rfl

/-- `memcpy` from its first line, for `n` bytes. -/
theorem memcpy_returns {s : State} (hup : Upward (s.gpr 3) (s.gpr 4) (s.gpr 5).toNat) :
    Returns stringPpc ⟨.memcpy, 0⟩ s (Copied s (s.gpr 3) (s.gpr 4) (s.gpr 5).toNat) := by
  obtain ⟨n, hn5⟩ : ∃ n, (s.gpr 5).toNat = n := ⟨_, rfl⟩
  have hn : n < 2 ^ 32 := hn5 ▸ (s.gpr 5).isLt
  have h5 : s.gpr 5 = BitVec.ofNat 32 n := by rw [← hn5, BitVec.ofNat_toNat, BitVec.setWidth_eq]
  have h7 : (s.gpr 5).rotateLeft 29 &&& mask 3 31 = BitVec.ofNat 32 (n / 8) := by
    rw [h5, shift_three hn]
  rw [hn5] at hup ⊢
  refine returns_ops [.rlwinmRc 7 5 (32 - 3) 3 31, .addi 6 3 (-4), .addi 4 4 (-4)] rfl ?_
  cases hc : n / 8 with
  | zero =>
    refine returns_goto (q := ⟨.memcpy, 14⟩) rfl ?_ rfl
      (Returns.mono (memcpy_word hup hn ?_ ?_ ?_) fun s' hs' => ?_)
    · simp [h7, hc]
    · simp [sub_four]
    · simp [sub_four]
    · simpa using h5
    · simpa [Copied] using hs'
  | succ c =>
    have he : 8 * (c + 1) + n % 8 = n := by omega
    have hlow := low_two (s.gpr 3 - 4#32)
    refine returns_skip rfl ?_ (returns_ops [.andiRc 0 6 3, .mtctr 7] rfl ?_)
    · have hpos := ofNat_ne_zero (n := c) (by omega)
      simpa [h7, hc] using hpos
    cases ha : (s.gpr 3 - 4#32).toNat % 4 with
    | zero =>
      refine returns_skip rfl ?_
        (Returns.mono (memcpy_words (c := c) (n := n) (by rwa [he]) (by rwa [he]) ?_ ?_ ?_ ?_ hn)
          fun s' hs' => ?_)
      · rw [ha] at hlow
        simpa [sub_four] using hlow
      · simp [sub_four]
      · simp [sub_four]
      · simpa [hc] using h7
      · simpa using h5
      · rw [he] at hs'
        simpa [Copied] using hs'
    | succ a =>
      -- one byte and `2 - a` more are missing to the next word
      have ha3 : a < 3 := by omega
      obtain ⟨k, hk⟩ : ∃ k, n = 2 - a + 1 + k := Nat.exists_eq_add_of_le (by omega)
      rw [hk] at hup hn
      refine returns_goto (q := ⟨.memcpy, 31⟩) rfl ?_ (memcpy_jump _) (returns_label rfl
        (returns_ops [.subfic 0 0 4, .mtctr 0] rfl
          (Returns.mono (memcpy_align hup hn ?_ ?_ ?_ ?_) fun s' hs' => ?_)))
      · have hpos := ofNat_ne_zero (n := a) (by omega)
        rw [ha] at hlow
        simpa [sub_four, hlow] using hpos
      · simp [sub_four]
      · simp [sub_four]
      · rw [ha] at hlow
        simpa [sub_four, hlow] using pad_four ha3
      · rw [ha] at hlow
        simpa [sub_four, hlow, h5, hk, pad_four ha3] using ofNat_add_sub (2 - a + 1) k
      · rw [← hk] at hs'
        simpa [Copied] using hs'

/-! ## Copying downwards -/

/-- A piece at the end and the rest. -/
theorem Copied.down {s t s' : State} {d q : Word} {n c : ℕ} (h : Upward q d (n + c))
    (hlt : n + c ≤ 2 ^ 32) (h3 : t.gpr 3 = s.gpr 3)
    (hm : t.mem = copyBytes s.mem (d + BitVec.ofNat 32 n) (q + BitVec.ofNat 32 n) c)
    (ht : Copied t d q n s') : Copied s d q (n + c) s' := by
  refine ⟨?_, ht.2.trans h3⟩
  rw [ht.1, hm, copyBytes_down s.mem h hlt]

/-- The ends of what is left, one byte, one word and two words lower. -/
theorem back_one (x : Word) (n : ℕ) :
    x + BitVec.ofNat 32 (n + 1) + 4294967295#32 = x + BitVec.ofNat 32 n := by
  rw [BitVec.ofNat_add]
  bv_omega

theorem back_four (x : Word) (n : ℕ) :
    x + BitVec.ofNat 32 (n + 4) + 4294967292#32 = x + BitVec.ofNat 32 n := by
  rw [BitVec.ofNat_add]
  bv_omega

theorem back_eight (x : Word) (n : ℕ) :
    x + BitVec.ofNat 32 (n + 8) + 4294967288#32 = x + BitVec.ofNat 32 n := by
  rw [BitVec.ofNat_add]
  bv_omega

theorem back_half (x : Word) (n : ℕ) :
    x + BitVec.ofNat 32 (n + 8) + 4294967292#32 = x + BitVec.ofNat 32 n + 4#32 := by
  rw [BitVec.ofNat_add]
  bv_omega

/-- The loop over the bytes that are left (label 4). -/
theorem backwards_bytes {s : State} {d q : Word} {n : ℕ} (hup : Upward q d (n + 1))
    (hn : n + 1 < 2 ^ 32) (h4 : s.gpr 4 = q + BitVec.ofNat 32 (n + 1))
    (h6 : s.gpr 6 = d + BitVec.ofNat 32 (n + 1)) (hctr : s.ctr = BitVec.ofNat 32 (n + 1)) :
    Returns stringPpc ⟨.backwardsMemcpy, 24⟩ s (Copied s d q (n + 1)) := by
  have hmem : (Program.execAll s [.lbzu 0 (-1) 4, .stbu 0 (-1) 6]).mem =
      copyBytes s.mem (d + BitVec.ofNat 32 n) (q + BitVec.ofNat 32 n) 1 := by
    simp [h4, h6, back_one, Op.storeByte_setWidth, copyBytes, readBytes]
  induction n generalizing s with
  | zero =>
    refine returns_label rfl (returns_ops [.lbzu 0 (-1) 4, .stbu 0 (-1) 6] rfl ?_)
    refine returns_skip rfl ?_ (returns_leave rfl rfl ⟨?_, ?_⟩)
    · simp [hctr]
    · simpa using hmem
    · simp
  | succ n ih =>
    refine returns_label rfl (returns_ops [.lbzu 0 (-1) 4, .stbu 0 (-1) 6] rfl ?_)
    refine returns_goto (q := ⟨.backwardsMemcpy, 24⟩) rfl ?_ rfl
      (Returns.mono (ih (hup.mono (by omega)) (by omega) ?_ ?_ ?_ ?_) fun s' hs' => ?_)
    · have hpos := ctr_more hctr (by omega)
      simpa using hpos
    · simp [h4, back_one]
    · simp [h6, back_one]
    · simpa using ctr_last hctr
    · simp [h4, h6, back_one, Op.storeByte_setWidth, copyBytes, readBytes]
    · exact Copied.down hup (by omega) (by simp) hmem hs'

/-- Less than four bytes are left, or none (label 3). -/
theorem backwards_rest {s : State} {d q : Word} {n : ℕ} (hup : Upward q d n) (hn : n < 2 ^ 32)
    (h4 : s.gpr 4 = q + BitVec.ofNat 32 n) (h6 : s.gpr 6 = d + BitVec.ofNat 32 n)
    (h5 : s.gpr 5 = BitVec.ofNat 32 n) :
    Returns stringPpc ⟨.backwardsMemcpy, 20⟩ s (Copied s d q n) := by
  refine returns_label rfl (returns_ops [.cmpwi 0 5 0] rfl ?_)
  cases n with
  | zero =>
    refine returns_leave rfl ?_ ⟨?_, ?_⟩
    · simp [h5]
    · simp [copyBytes, readBytes]
    · simp
  | succ n =>
    have hpos := ofNat_ne_zero hn
    refine returns_skip rfl ?_ (returns_ops [.mtctr 5] rfl
      (Returns.mono (backwards_bytes hup hn ?_ ?_ ?_) fun s' hs' => ?_))
    · simpa [h5] using hpos
    · simpa using h4
    · simpa using h6
    · simp [h5]
    · simpa [Copied] using hs'

/-- Less than eight bytes are left (label 2); more would do as well. -/
theorem backwards_word {s : State} {d q : Word} {n : ℕ} (hup : Upward q d n) (hn : n < 2 ^ 32)
    (h4 : s.gpr 4 = q + BitVec.ofNat 32 n) (h6 : s.gpr 6 = d + BitVec.ofNat 32 n)
    (h5 : s.gpr 5 = BitVec.ofNat 32 n) :
    Returns stringPpc ⟨.backwardsMemcpy, 14⟩ s (Copied s d q n) := by
  refine returns_label rfl (returns_ops [.cmplwi 0 5 4] rfl ?_)
  by_cases hlt : n < 4
  · refine returns_goto (q := ⟨.backwardsMemcpy, 20⟩) rfl ?_ rfl
      (Returns.mono (backwards_rest hup hn ?_ ?_ ?_) fun s' hs' => ?_)
    · simpa [h5, below_four hn] using hlt
    · simpa using h4
    · simpa using h6
    · simpa using h5
    · simpa [Copied] using hs'
  · obtain ⟨k, rfl⟩ := Nat.exists_eq_add_of_le' (Nat.le_of_not_lt hlt)
    refine returns_skip rfl ?_ (returns_ops [.lwzu 0 (-4) 4, .subi 5 5 4, .stwu 0 (-4) 6] rfl
      (Returns.mono (backwards_rest (hup.mono (Nat.le_add_right k 4)) (by omega) ?_ ?_ ?_)
        fun s' hs' => ?_))
    · simp [h5, below_four hn]
    · simp [h4, back_four]
    · simp [h6, back_four]
    · have := back_four 0 k
      simpa [h5] using this
    · refine Copied.down hup (by omega) (by simp) ?_ hs'
      simp [h4, h6, back_four, store32_load32]

/-- The loop over two words at a time (label 1). -/
theorem backwards_words {s : State} {d q : Word} {c n : ℕ} (hup : Upward q d (n % 8 + 8 * (c + 1)))
    (hn : n % 8 + 8 * (c + 1) < 2 ^ 32) (h4 : s.gpr 4 = q + BitVec.ofNat 32 (n % 8 + 8 * (c + 1)))
    (h6 : s.gpr 6 = d + BitVec.ofNat 32 (n % 8 + 8 * (c + 1)))
    (hctr : s.ctr = BitVec.ofNat 32 (c + 1)) (h5 : s.gpr 5 = BitVec.ofNat 32 n) (hlt : n < 2 ^ 32) :
    Returns stringPpc ⟨.backwardsMemcpy, 7⟩ s (Copied s d q (n % 8 + 8 * (c + 1))) := by
  induction c generalizing s with
  | zero =>
    rw [show n % 8 + 8 * (0 + 1) = n % 8 + 8 by omega] at hup hn h4 h6 ⊢
    refine returns_label rfl
      (returns_ops [.lwz 7 (-4) 4, .lwzu 8 (-8) 4, .stw 7 (-4) 6, .stwu 8 (-8) 6] rfl ?_)
    refine returns_skip rfl ?_ (returns_ops [.andiRc 5 5 7] rfl (Returns.mono
      (backwards_word (hup.mono (Nat.le_add_right _ 8)) (by omega) ?_ ?_ ?_) fun s' hs' => ?_))
    · simp [hctr]
    · simp [h4, back_eight]
    · simp [h6, back_eight]
    · simpa [h5] using low_three hlt
    · refine Copied.down hup (by omega) (by simp) ?_ hs'
      have := store32_store32_front s.mem (d + BitVec.ofNat 32 (n % 8)) (q + BitVec.ofNat 32 (n % 8))
      simpa [h4, h6, back_eight, back_half] using this
  | succ c ih =>
    rw [show n % 8 + 8 * (c + 1 + 1) = n % 8 + 8 * (c + 1) + 8 by omega] at hup hn h4 h6 ⊢
    refine returns_label rfl
      (returns_ops [.lwz 7 (-4) 4, .lwzu 8 (-8) 4, .stw 7 (-4) 6, .stwu 8 (-8) 6] rfl ?_)
    refine returns_goto (q := ⟨.backwardsMemcpy, 7⟩) rfl ?_ rfl (Returns.mono
      (ih (hup.mono (Nat.le_add_right _ 8)) (by omega) ?_ ?_ ?_ ?_) fun s' hs' => ?_)
    · have hpos := ctr_more hctr (by omega)
      simpa using hpos
    · simp [h4, back_eight]
    · simp [h6, back_eight]
    · simpa using ctr_last hctr
    · simpa using h5
    · refine Copied.down hup (by omega) (by simp) ?_ hs'
      have := store32_store32_front s.mem (d + BitVec.ofNat 32 (n % 8 + 8 * (c + 1)))
        (q + BitVec.ofNat 32 (n % 8 + 8 * (c + 1)))
      simpa [h4, h6, back_eight, back_half] using this

/-- The lines behind the loop that aligns the end (line 245 on). -/
theorem backwards_aligned {s : State} {d q : Word} {n : ℕ} (hup : Upward q d n) (hn : n < 2 ^ 32)
    (h4 : s.gpr 4 = q + BitVec.ofNat 32 n) (h6 : s.gpr 6 = d + BitVec.ofNat 32 n)
    (h5 : s.gpr 5 - s.gpr 0 = BitVec.ofNat 32 n) :
    Returns stringPpc ⟨.backwardsMemcpy, 35⟩ s (Copied s d q n) := by
  have h7 : (s.gpr 5 - s.gpr 0).rotateLeft 29 &&& mask 3 31 = BitVec.ofNat 32 (n / 8) := by
    rw [h5, shift_three hn]
  refine returns_ops [.subf 5 0 5, .rlwinmRc 7 5 (32 - 3) 3 31] rfl ?_
  cases hc : n / 8 with
  | zero =>
    refine returns_goto (q := ⟨.backwardsMemcpy, 14⟩) rfl ?_ rfl
      (Returns.mono (backwards_word hup hn ?_ ?_ ?_) fun s' hs' => ?_)
    · simp [h7, hc]
    · simpa using h4
    · simpa using h6
    · simpa using h5
    · simpa [Copied] using hs'
  | succ c =>
    have he : n % 8 + 8 * (c + 1) = n := by omega
    refine returns_skip rfl ?_ (returns_ops [.mtctr 7] rfl
      (returns_goto (q := ⟨.backwardsMemcpy, 7⟩) rfl rfl rfl
        (Returns.mono (backwards_words (d := d) (q := q) (c := c) (n := n) (by rwa [he]) (by rwa [he])
          ?_ ?_ ?_ ?_ hn) fun s' hs' => ?_)))
    · have hpos := ofNat_ne_zero (n := c) (by omega)
      simpa [h7, hc] using hpos
    · rw [he]
      simpa using h4
    · rw [he]
      simpa using h6
    · simpa [hc] using h7
    · simpa using h5
    · rw [he] at hs'
      simpa [Copied] using hs'

/-- The loop that aligns the end, with `n` bytes before it (label 6). -/
theorem backwards_align {s : State} {d q : Word} {c n : ℕ} (hup : Upward q d (n + (c + 1)))
    (hn : n + (c + 1) < 2 ^ 32) (h4 : s.gpr 4 = q + BitVec.ofNat 32 (n + (c + 1)))
    (h6 : s.gpr 6 = d + BitVec.ofNat 32 (n + (c + 1)))
    (hctr : s.ctr = BitVec.ofNat 32 (c + 1)) (h5 : s.gpr 5 - s.gpr 0 = BitVec.ofNat 32 n) :
    Returns stringPpc ⟨.backwardsMemcpy, 31⟩ s (Copied s d q (n + (c + 1))) := by
  induction c generalizing s with
  | zero =>
    rw [Nat.zero_add] at hup hn h4 h6 ⊢
    refine returns_label rfl (returns_ops [.lbzu 7 (-1) 4, .stbu 7 (-1) 6] rfl ?_)
    refine returns_skip rfl ?_ (Returns.mono
      (backwards_aligned (hup.mono (Nat.le_succ _)) (by omega) ?_ ?_ ?_) fun s' hs' => ?_)
    · simp [hctr]
    · simp [h4, back_one]
    · simp [h6, back_one]
    · simpa using h5
    · refine Copied.down hup (by omega) (by simp) ?_ hs'
      simp [h4, h6, back_one, Op.storeByte_setWidth, copyBytes, readBytes]
  | succ c ih =>
    rw [← Nat.add_assoc n (c + 1) 1] at hup hn h4 h6 ⊢
    refine returns_label rfl (returns_ops [.lbzu 7 (-1) 4, .stbu 7 (-1) 6] rfl ?_)
    refine returns_goto (q := ⟨.backwardsMemcpy, 31⟩) rfl ?_ rfl (Returns.mono
      (ih (hup.mono (Nat.le_succ _)) (by omega) ?_ ?_ ?_ ?_) fun s' hs' => ?_)
    · have hpos := ctr_more hctr (by omega)
      simpa using hpos
    · simp [h4, back_one]
    · simp [h6, back_one]
    · simpa using ctr_last hctr
    · simpa using h5
    · refine Copied.down hup (by omega) (by simp) ?_ hs'
      simp [h4, h6, back_one, Op.storeByte_setWidth, copyBytes, readBytes]

theorem backwards_unaligned : findAhead backwardsMemcpyCode 5 6 = some 29 := by decide +kernel

/-- The branch to label 5. -/
theorem backwards_jump (s : State) :
    stringPpc.jump ⟨.backwardsMemcpy, 6⟩ s (.ahead 5) = .goto ⟨.backwardsMemcpy, 29⟩ s := by
  show Program.toLine _ (findAhead backwardsMemcpyCode 5 6) s = _
  rw [backwards_unaligned]
  rfl

/-- `backwards_memcpy` from its first line. -/
theorem backwards_returns {s : State} (hup : Upward (s.gpr 4) (s.gpr 3) (s.gpr 5).toNat) :
    Returns stringPpc ⟨.backwardsMemcpy, 0⟩ s
      (Copied s (s.gpr 3) (s.gpr 4) (s.gpr 5).toNat) := by
  obtain ⟨n, hn5⟩ : ∃ n, (s.gpr 5).toNat = n := ⟨_, rfl⟩
  have hn : n < 2 ^ 32 := hn5 ▸ (s.gpr 5).isLt
  have h5 : s.gpr 5 = BitVec.ofNat 32 n := by rw [← hn5, BitVec.ofNat_toNat, BitVec.setWidth_eq]
  have h7 : (s.gpr 5).rotateLeft 29 &&& mask 3 31 = BitVec.ofNat 32 (n / 8) := by
    rw [h5, shift_three hn]
  rw [hn5] at hup ⊢
  refine returns_ops [.rlwinmRc 7 5 (32 - 3) 3 31, .add 6 3 5, .add 4 4 5] rfl ?_
  cases hc : n / 8 with
  | zero =>
    refine returns_goto (q := ⟨.backwardsMemcpy, 14⟩) rfl ?_ rfl
      (Returns.mono (backwards_word hup hn ?_ ?_ ?_) fun s' hs' => ?_)
    · simp [h7, hc]
    · simp [h5]
    · simp [h5]
    · simpa using h5
    · simpa [Copied] using hs'
  | succ c =>
    have he : n % 8 + 8 * (c + 1) = n := by omega
    have hlow := low_two (s.gpr 3 + s.gpr 5)
    refine returns_skip rfl ?_ (returns_ops [.andiRc 0 6 3, .mtctr 7] rfl ?_)
    · have hpos := ofNat_ne_zero (n := c) (by omega)
      simpa [h7, hc] using hpos
    cases ha : (s.gpr 3 + s.gpr 5).toNat % 4 with
    | zero =>
      refine returns_skip rfl ?_ (Returns.mono (backwards_words (d := s.gpr 3) (q := s.gpr 4) (c := c)
        (n := n) (by rwa [he]) (by rwa [he]) ?_ ?_ ?_ ?_ hn) fun s' hs' => ?_)
      · rw [ha] at hlow
        simpa using hlow
      · simp [he, h5]
      · simp [he, h5]
      · simpa [hc] using h7
      · simpa using h5
      · rw [he] at hs'
        simpa [Copied] using hs'
    | succ a =>
      obtain ⟨k, hk⟩ : ∃ k, n = k + (a + 1) := Nat.exists_eq_add_of_le' (by omega)
      rw [ha] at hlow
      rw [hk] at hup hn
      refine returns_goto (q := ⟨.backwardsMemcpy, 29⟩) rfl ?_ (backwards_jump _) (returns_label rfl
        (returns_ops [.mtctr 0] rfl
          (Returns.mono (backwards_align hup hn ?_ ?_ ?_ ?_) fun s' hs' => ?_)))
      · have hpos := ofNat_ne_zero (n := a) (by omega)
        simpa [hlow] using hpos
      · rw [← hk, ← h5]
        simp
      · rw [← hk, ← h5]
        simp
      · simpa using hlow
      · have hsub := ofNat_add_sub (a + 1) k
        rw [Nat.add_comm, ← hk, ← h5] at hsub
        simpa [hlow] using hsub
      · rw [← hk] at hs'
        simpa [Copied] using hs'

/-! ## The functions -/

/-- `memcpy` copies if no byte is overwritten before it is read: to a lower address, or
    between ranges that do not meet. -/
theorem memcpy_copies (s : State) (hup : Upward (s.gpr 3) (s.gpr 4) (s.gpr 5).toNat) :
    Returns stringPpc ⟨.memcpy, 0⟩ s fun s' =>
      s'.mem = copyBytes s.mem (s.gpr 3) (s.gpr 4) (s.gpr 5).toNat ∧ s'.gpr 3 = s.gpr 3 :=
  memcpy_returns hup

theorem memcpy_copies_down :
    Returns stringPpc ⟨.memcpy, 0⟩ (callOf twoStrings 0xffd 0x1000 8) fun s' =>
      s'.mem = copyBytes twoStrings 0xffd 0x1000 (8 : Word).toNat ∧ s'.gpr 3 = 0xffd :=
  memcpy_copies (callOf twoStrings 0xffd 0x1000 8) (by decide)

/-- `bcopy` is `memcpy` with the first two arguments exchanged. -/
theorem bcopy_copies (s : State) (hup : Upward (s.gpr 4) (s.gpr 3) (s.gpr 5).toNat) :
    Returns stringPpc ⟨.bcopy, 0⟩ s fun s' =>
      s'.mem = copyBytes s.mem (s.gpr 4) (s.gpr 3) (s.gpr 5).toNat ∧ s'.gpr 3 = s.gpr 4 := by
  refine returns_ops [.mr 6 3, .mr 3 4, .mr 4 6] rfl (returns_goto (q := ⟨.memcpy, 0⟩) rfl rfl rfl
    (Returns.mono (memcpy_returns ?_) fun s' hs' => ?_))
  · simpa using hup
  · simpa [Copied] using hs'

/-- `memmove` copies between any two ranges that do not wrap: downwards if the
    destination is higher, upwards otherwise. -/
theorem memmove_moves (s : State) (hd : (s.gpr 3).toNat + (s.gpr 5).toNat ≤ 2 ^ 32)
    (hq : (s.gpr 4).toNat + (s.gpr 5).toNat ≤ 2 ^ 32) :
    Returns stringPpc ⟨.memmove, 0⟩ s fun s' =>
      s'.mem = copyBytes s.mem (s.gpr 3) (s.gpr 4) (s.gpr 5).toNat ∧ s'.gpr 3 = s.gpr 3 := by
  refine returns_ops [.cmplw 0 3 4] rfl ?_
  by_cases hgt : s.gpr 4 < s.gpr 3
  · refine returns_goto (q := ⟨.backwardsMemcpy, 0⟩) rfl ?_ rfl
      (Returns.mono (backwards_returns ?_) fun s' hs' => ?_)
    · simpa [BitVec.ult, BitVec.lt_def] using hgt
    · simpa using upward_of_fits (BitVec.le_of_lt hgt) hd
    · simpa [Copied] using hs'
  · refine returns_skip rfl ?_ (returns_through rfl rfl
      (Returns.mono (memcpy_returns ?_) fun s' hs' => ?_))
    · simpa [BitVec.ult, BitVec.lt_def] using hgt
    · simpa using upward_of_fits (BitVec.not_lt.mp hgt) hq
    · simpa [Copied] using hs'

theorem memmove_moves_up :
    Returns stringPpc ⟨.memmove, 0⟩ (callOf twoStrings 0x1003 0x1000 8) fun s' =>
      s'.mem = copyBytes twoStrings 0x1003 0x1000 (8 : Word).toNat ∧ s'.gpr 3 = 0x1003 :=
  memmove_moves (callOf twoStrings 0x1003 0x1000 8) (by decide) (by decide)

end BBoot.Libc
