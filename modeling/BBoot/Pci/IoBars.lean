import BBoot.Pci.Decoding

/-!
# I/O base address registers on sam460

A device may leave the upper 16 address bits of an I/O register wired to zero.
`setup_pci_device` takes the complement over 32 bits, so the size it decodes has
the upper 16 bits set, and `addr_for_bar` uses that size to round and to find the
end of the range.

Results:
* `addrForBar_io32`, `addrForBar_io16`: what a range that fits is answered with.
* `ioBar_assigned_iff`: in every state that devices set up one after the other
  can lead to, a register that fits is assigned an address exactly when its
  range does not start at 0 or, with 16 address bits, ends with the window.
-/

namespace BBoot.Pci

/-! ## Model -/

/-- The allocator behind the devices `ds`, set up one after the other from what
    `setup_pci_params` of the sam460 stores. -/
def windowsAfter (ds : List (Word × ConfigSpace)) : PciWindows :=
  ds.foldl (fun w d => (setupPciDevice .sam460 0 d.1 ⟨w, d.2, [], []⟩).windows)
    sam460SetupPciParams

/-- What an I/O register of `2^k` bytes reads after all ones were written to it:
    with all its address bits, or with the upper 16 of them wired to zero. -/
def ioBar (wide : Bool) (k : ℕ) : Word :=
  (if wide then -BitVec.twoPow 32 k else -BitVec.twoPow 32 k &&& 0xffff) ||| barSpaceIo

/-- The sizes such a register can have: two bits are taken by the attributes, and
    one address bit is left. -/
def IoSize (wide : Bool) (k : ℕ) : Prop := 2 ≤ k ∧ k < if wide then 32 else 16

/-- The aligned range of `2^k` bytes behind the cursor. -/
def PciWindows.ioRange (w : PciWindows) (k : ℕ) : Span := ⟨alignUp w.ioavail.toNat (2 ^ k), 2 ^ k⟩

/-! ## The decoded size -/

theorem barType_ioBar {wide : Bool} {k : ℕ} (hk : IoSize wide k) :
    barType (ioBar wide k) = barSpaceIo := by
  obtain ⟨h2, hlt⟩ := hk
  cases wide
  · have : ∀ k < 16, 2 ≤ k → barType (ioBar false k) = barSpaceIo := by decide
    exact this k hlt h2
  · have : ∀ k < 32, 2 ≤ k → barType (ioBar true k) = barSpaceIo := by decide
    exact this k hlt h2

theorem barSize_io32 {k : ℕ} (h2 : 2 ≤ k) (hlt : k < 32) :
    barSize (ioBar true k) = BitVec.twoPow 32 k := by
  have : ∀ k < 32, 2 ≤ k → barSize (ioBar true k) = BitVec.twoPow 32 k := by decide
  exact this k hlt h2

theorem barSize_io16 {k : ℕ} (h2 : 2 ≤ k) (hlt : k < 16) :
    barSize (ioBar false k) = BitVec.twoPow 32 k + 0xffff0000 ∧
      -barSize (ioBar false k) = -BitVec.twoPow 32 k &&& 0xffff := by
  have : ∀ k < 16, 2 ≤ k → barSize (ioBar false k) = BitVec.twoPow 32 k + 0xffff0000 ∧
      -barSize (ioBar false k) = -BitVec.twoPow 32 k &&& 0xffff := by decide
  exact this k hlt h2

theorem and_ffff_toNat (a : Word) : (a &&& 0xffff).toNat = a.toNat % 2 ^ 16 := by
  rw [BitVec.toNat_and]
  exact Nat.and_two_pow_sub_one_eq_mod a.toNat 16

/-- The upper half of a size does not reach the low 16 bits of a sum. -/
theorem add_high_low (n t : Word) : (n + (t + 0xffff0000) - 1) &&& 0xffff = (n + t - 1) &&& 0xffff := by
  apply BitVec.eq_of_toNat_eq
  have hhigh : (0xffff0000 : Word).toNat = 0xffff0000 := by decide
  have hone : (1 : Word).toNat = 1 := by decide
  rw [and_ffff_toNat, and_ffff_toNat, BitVec.toNat_sub, BitVec.toNat_add, BitVec.toNat_add,
    BitVec.toNat_sub, BitVec.toNat_add, hhigh, hone]
  omega

/-- Rounding to the size decoded from 16 address bits is rounding to the true
    size, and keeps 16 bits. -/
theorem roundUp_io16 (n : Word) {k : ℕ} (h2 : 2 ≤ k) (hlt : k < 16) :
    roundUp n (barSize (ioBar false k)) = roundUp n (BitVec.twoPow 32 k) &&& 0xffff := by
  obtain ⟨hsize, hneg⟩ := barSize_io16 h2 hlt
  rw [roundUp, roundDown, hneg, hsize, BitVec.and_comm (-BitVec.twoPow 32 k), ← BitVec.and_assoc,
    add_high_low, BitVec.and_assoc, BitVec.and_comm 0xffff, ← BitVec.and_assoc]
  rfl

/-! ## One request -/

theorem addrForBar_ioSpace (w : PciWindows) {size : Word} (h0 : size ≠ 0) :
    (addrForBar w barSpaceIo size).1 =
      if roundUp w.ioavail size + size > w.iolen then 0 else roundUp w.ioavail size := by
  unfold addrForBar
  rw [if_neg h0, if_pos rfl]
  dsimp only
  split_ifs <;> rfl

/-- A range that fits is handed out to a register with 32 address bits. -/
theorem addrForBar_io32 {w : PciWindows} {k : ℕ} (h2 : 2 ≤ k) (hlt : k < 32)
    (hfit : (w.ioRange k).stop ≤ w.iolen.toNat) :
    (addrForBar w barSpaceIo (barSize (ioBar true k))).1.toNat = (w.ioRange k).start := by
  have hiolen := w.iolen.isLt
  have hstop : alignUp w.ioavail.toNat (2 ^ k) + 2 ^ k ≤ w.iolen.toNat := hfit
  have hpos := Nat.two_pow_pos k
  have hret : (roundUp w.ioavail (BitVec.twoPow 32 k)).toNat = alignUp w.ioavail.toNat (2 ^ k) := by
    rw [roundUp_toNat _ hlt, Nat.mod_eq_of_lt (by omega)]
  have hend : (roundUp w.ioavail (BitVec.twoPow 32 k) + BitVec.twoPow 32 k).toNat =
      alignUp w.ioavail.toNat (2 ^ k) + 2 ^ k := by
    rw [BitVec.toNat_add, hret, two_pow_toNat hlt, Nat.mod_eq_of_lt (by omega)]
  rw [barSize_io32 h2 hlt, addrForBar_ioSpace w (IsPow2.ne_zero ⟨k, hlt, rfl⟩), if_neg, hret]
  · rfl
  · rw [gt_iff_lt, BitVec.lt_def, hend]
    omega

/-- A register with 16 address bits gets it only if it ends with the window: the
    end that is compared is `2^32` then, and above the window otherwise. -/
theorem addrForBar_io16 {w : PciWindows} (hiolen : w.iolen = 0x10000) {k : ℕ} (h2 : 2 ≤ k)
    (hlt : k < 16) (hfit : (w.ioRange k).stop ≤ w.iolen.toNat) :
    (addrForBar w barSpaceIo (barSize (ioBar false k))).1.toNat =
      if (w.ioRange k).stop = 0x10000 then (w.ioRange k).start else 0 := by
  have hlen : w.iolen.toNat = 0x10000 := by
    rw [hiolen]
    rfl
  have hstop : alignUp w.ioavail.toNat (2 ^ k) + 2 ^ k ≤ 0x10000 := by
    rw [← hlen]
    exact hfit
  have hpos := Nat.two_pow_pos k
  have hsmall : 2 ^ k ≤ 2 ^ 15 := Nat.pow_le_pow_right (by norm_num) (Nat.le_of_lt_succ hlt)
  have hret : (roundUp w.ioavail (barSize (ioBar false k))).toNat =
      alignUp w.ioavail.toNat (2 ^ k) := by
    rw [roundUp_io16 _ h2 hlt, and_ffff_toNat, roundUp_toNat _ (by omega), Nat.mod_eq_of_lt
      (show alignUp w.ioavail.toNat (2 ^ k) < 2 ^ 32 by omega), Nat.mod_eq_of_lt (by omega)]
  have hsize : (barSize (ioBar false k)).toNat = 2 ^ k + 0xffff0000 := by
    rw [(barSize_io16 h2 hlt).1, BitVec.toNat_add, two_pow_toNat (by omega),
      show (0xffff0000 : Word).toNat = 0xffff0000 from rfl, Nat.mod_eq_of_lt (by omega)]
  have hend : (roundUp w.ioavail (barSize (ioBar false k)) + barSize (ioBar false k)).toNat =
      (alignUp w.ioavail.toNat (2 ^ k) + (2 ^ k + 0xffff0000)) % 2 ^ 32 := by
    rw [BitVec.toNat_add, hret, hsize]
  have h0 : barSize (ioBar false k) ≠ 0 := by
    intro h
    rw [h] at hsize
    have : 0 = 2 ^ k + 0xffff0000 := hsize
    omega
  rw [addrForBar_ioSpace w h0]
  show _ = if alignUp w.ioavail.toNat (2 ^ k) + 2 ^ k = 0x10000 then _ else 0
  by_cases htop : alignUp w.ioavail.toNat (2 ^ k) + 2 ^ k = 0x10000
  · rw [if_pos htop, if_neg, hret]
    · rfl
    · rw [gt_iff_lt, BitVec.lt_def, hend, hlen]
      omega
  · rw [if_neg htop, if_pos]
    · rfl
    · rw [gt_iff_lt, BitVec.lt_def, hend, hlen]
      omega

/-! ## Runs -/

theorem addrForBar_iolen (w : PciWindows) (type size : Word) :
    (addrForBar w type size).2.iolen = w.iolen := by
  unfold addrForBar
  dsimp only
  split_ifs <;> rfl

theorem allocate_iolen (w : PciWindows) (ps : List (ℕ × Word)) :
    (allocate w ps).2.iolen = w.iolen := by
  induction ps generalizing w with
  | nil => rfl
  | cons p ps ih => exact (ih _).trans (addrForBar_iolen ..)

theorem sam460_special (devfn : Word) : Board.sam460.special devfn = false := by
  unfold Board.special
  simp

/-- No device changes the length of the window. -/
theorem setupPciDevice_iolen (port : Byte) (devfn : Word) (d : Dev) :
    (setupPciDevice .sam460 port devfn d).windows.iolen = d.windows.iolen := by
  by_cases hpresent : Board.sam460.present (pciReadConfig32 d.config regVendorId) = true
  · rw [setupPciDevice_eq port hpresent (sam460_special devfn)]
    exact allocate_iolen ..
  · unfold setupPciDevice
    rw [if_pos (Bool.eq_false_iff.mpr hpresent)]

theorem windowsAfter_iolen (ds : List (Word × ConfigSpace)) : (windowsAfter ds).iolen = 0x10000 := by
  unfold windowsAfter
  generalize hw : sam460SetupPciParams = w
  have hstart : w.iolen = 0x10000 := by rw [← hw]; rfl
  clear hw
  induction ds generalizing w with
  | nil => exact hstart
  | cons d ds ih => exact ih _ ((setupPciDevice_iolen ..).trans hstart)

theorem allocate_append (w : PciWindows) (ps qs : List (ℕ × Word)) :
    (allocate w (ps ++ qs)).1 = (allocate w ps).1 ++ (allocate (allocate w ps).2 qs).1 := by
  induction ps generalizing w with
  | nil => rfl
  | cons p ps ih =>
    show _ :: (allocate _ (ps ++ qs)).1 = _
    rw [ih]
    rfl

/-- The pass of one register, among those of its device. -/
theorem assigned_iff {w : PciWindows} {c : ConfigSpace} {pre post : List (ℕ × Word)} {i : ℕ}
    {bar : Word} (himpl : implemented c 0 = pre ++ (i, bar) :: post) :
    (∃ v ∈ (allocate w (implemented c 0)).1, v.index = i ∧ v.base ≠ 0) ↔
      (addrForBar (allocate w pre).2 (barType bar) (barSize bar)).1 ≠ 0 := by
  have hother : ∀ p ∈ pre ++ post, p.1 ≠ i := by
    have horder := implemented_inOrder c 0
    rw [himpl, List.pairwise_append, List.pairwise_cons] at horder
    obtain ⟨-, ⟨hpost, -⟩, hpre⟩ := horder
    intro p hp
    rcases List.mem_append.mp hp with hp | hp
    · exact (hpre p hp _ List.mem_cons_self).ne
    · exact (hpost p hp).ne'
  have hvisits : ∀ (w : PciWindows) (ps : List (ℕ × Word)), ∀ v ∈ (allocate w ps).1,
      (v.index, v.bar) ∈ ps := by
    intro w ps v hv
    rw [← allocate_map w ps]
    exact List.mem_map_of_mem hv
  rw [himpl, allocate_append]
  constructor
  · rintro ⟨v, hv, hi, hbase⟩
    rcases List.mem_append.mp hv with hv | hv
    · exact absurd hi (hother _ (List.mem_append_left _ (hvisits _ _ v hv)))
    · rcases List.mem_cons.mp hv with rfl | hv
      · exact hbase
      · exact absurd hi (hother _ (List.mem_append_right _ (hvisits _ _ v hv)))
  · intro h
    exact ⟨_, List.mem_append_right _ List.mem_cons_self, rfl, h⟩

/-- **I/O registers on sam460.** Behind any devices set up from the state
    `setup_pci_params` leaves and any registers of the same device, an I/O
    register of `2^k` bytes whose aligned range fits between the cursor and the
    end of the window is assigned an address if and only if the cursor is not at
    0, for one with 32 address bits, or the range ends with the window, for one
    with the upper 16 bits wired to zero. -/
theorem ioBar_assigned_iff (ds : List (Word × ConfigSpace)) (port : Byte) (devfn : Word)
    {c : ConfigSpace} (hpresent : Board.sam460.present (pciReadConfig32 c regVendorId) = true)
    {wide : Bool} {k : ℕ} (hk : IoSize wide k) {pre post : List (ℕ × Word)} {i : ℕ}
    (himpl : implemented c 0 = pre ++ (i, ioBar wide k) :: post)
    (hfit : ((allocate (windowsAfter ds) pre).2.ioRange k).stop ≤
      (allocate (windowsAfter ds) pre).2.iolen.toNat) :
    (∃ v ∈ (setupPciDevice .sam460 port devfn ⟨windowsAfter ds, c, [], []⟩).visits,
        v.index = i ∧ v.base ≠ 0) ↔
      if wide then (allocate (windowsAfter ds) pre).2.ioavail ≠ 0
      else ((allocate (windowsAfter ds) pre).2.ioRange k).stop = 0x10000 := by
  have hvisits : (setupPciDevice .sam460 port devfn ⟨windowsAfter ds, c, [], []⟩).visits =
      (allocate (windowsAfter ds) (implemented c 0)).1 := by
    rw [setupPciDevice_eq port hpresent (sam460_special devfn)]
    rfl
  have hiolen : (allocate (windowsAfter ds) pre).2.iolen = 0x10000 := by
    rw [allocate_iolen, windowsAfter_iolen]
  rw [hvisits, assigned_iff himpl, barType_ioBar hk]
  generalize (allocate (windowsAfter ds) pre).2 = w at *
  have hzero : ∀ a : Word, a ≠ 0 ↔ a.toNat ≠ 0 := fun a =>
    not_congr ⟨fun h => by rw [h]; rfl, fun h => BitVec.eq_of_toNat_eq h⟩
  have hpos := Nat.two_pow_pos k
  have hle := le_alignUp w.ioavail.toNat hpos
  obtain ⟨h2, hlt⟩ := hk
  cases wide
  · have hstop : (w.ioRange k).stop = alignUp w.ioavail.toNat (2 ^ k) + 2 ^ k := rfl
    have hstart : (w.ioRange k).start = alignUp w.ioavail.toNat (2 ^ k) := rfl
    have hsmall : 2 ^ k ≤ 2 ^ 15 := Nat.pow_le_pow_right (by norm_num) (Nat.le_of_lt_succ hlt)
    rw [hzero, addrForBar_io16 hiolen h2 hlt hfit, if_neg Bool.false_ne_true]
    split_ifs <;> omega
  · have hstart : (w.ioRange k).start = alignUp w.ioavail.toNat (2 ^ k) := rfl
    rw [hzero, addrForBar_io32 h2 hlt hfit, if_pos rfl, hzero, hstart, not_iff_not]
    constructor
    · intro h
      omega
    · intro h
      rw [h, alignUp_eq_self hpos (dvd_zero _)]

/-- A function with one I/O register that reads `bar` after all ones were
    written to it. -/
def ioFunction (bar : Word) : ConfigSpace where
  reg k := if k = 0 then 0x12341234 else if k = 4 then barSpaceIo else 0
  writable k :=
    match k with
    | 1 => 0xffff
    | 3 => 0xffff
    | 4 => bar &&& ~~~3
    | 15 => 0xff
    | _ => 0

theorem implemented_ioFunction {bar : Word} (hbar : (ioFunction bar).sizing 4 = bar) (h0 : bar ≠ 0)
    (h64 : barType bar &&& barMemLimit64 = 0) : implemented (ioFunction bar) 0 = [(0, bar)] := by
  have habsent : ∀ k, k = 5 ∨ k = 6 ∨ k = 7 ∨ k = 8 ∨ k = 9 → (ioFunction bar).sizing k = 0 := by
    rintro k (rfl | rfl | rfl | rfl | rfl) <;> simp [ConfigSpace.sizing, ConfigSpace.wired, ioFunction]
  have hnext : nextIndex 0 (barType bar) = 1 := by rw [nextIndex, if_neg (by rw [h64]; decide)]
  rw [implemented_present (by decide) (by rw [hbar]; exact h0), hbar, hnext,
    implemented_absent (by decide) (habsent 5 (by decide)),
    implemented_absent (by decide) (habsent 6 (by decide)),
    implemented_absent (by decide) (habsent 7 (by decide)),
    implemented_absent (by decide) (habsent 8 (by decide)),
    implemented_absent (by decide) (habsent 9 (by decide)), implemented_end (by decide)]

/-- The first device has an I/O register of 256 bytes with 16 address bits. Its
    range `[0x100, 0x200)` is free, and it is not assigned. -/
theorem ioBar16_refused :
    Board.sam460.present (pciReadConfig32 (ioFunction (ioBar false 8)) regVendorId) = true ∧
      implemented (ioFunction (ioBar false 8)) 0 = [(0, ioBar false 8)] ∧
      ((allocate (windowsAfter []) []).2.ioRange 8).stop ≤
        (allocate (windowsAfter []) []).2.iolen.toNat ∧
      ¬ ∃ v ∈ (setupPciDevice .sam460 0 0x80000000
          ⟨windowsAfter [], ioFunction (ioBar false 8), [], []⟩).visits,
        v.index = 0 ∧ v.base ≠ 0 := by
  have himpl : implemented (ioFunction (ioBar false 8)) 0 = [] ++ (0, ioBar false 8) :: [] :=
    implemented_ioFunction (by decide) (by decide) (by decide)
  have hpresent : Board.sam460.present
      (pciReadConfig32 (ioFunction (ioBar false 8)) regVendorId) = true := by decide
  refine ⟨hpresent, himpl, by decide, ?_⟩
  rw [setupPciDevice_eq 0 hpresent (sam460_special _)]
  show ¬ ∃ v ∈ (allocate (windowsAfter []) (implemented (ioFunction (ioBar false 8)) 0)).1,
    v.index = 0 ∧ v.base ≠ 0
  rw [assigned_iff himpl]
  decide

/-- The same register with all its address bits is assigned. -/
theorem ioBar32_assigned :
    ∃ v ∈ (setupPciDevice .sam460 0 0x80000000
        ⟨windowsAfter [], ioFunction (ioBar true 8), [], []⟩).visits, v.index = 0 ∧ v.base ≠ 0 := by
  have himpl : implemented (ioFunction (ioBar true 8)) 0 = [] ++ (0, ioBar true 8) :: [] :=
    implemented_ioFunction (by decide) (by decide) (by decide)
  exact (ioBar_assigned_iff [] 0 0x80000000 (by decide) ⟨by decide, by decide⟩ himpl
    (by decide)).mpr (by decide)

end BBoot.Pci
