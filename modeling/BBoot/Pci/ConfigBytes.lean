import BBoot.Pci.Config

/-!
# Configuration registers as bytes

A function's registers are words of which an access reads or writes some byte
lanes. Seen as bytes, an access of `n` bytes at a register is one of the bytes at
that offset, the least significant byte first.

Results:
* `readConfig16_bytes`, `readConfig32_bytes`: what a wide read returns.
* `readConfig8_writeConfig`: the bytes behind a write of any width, where all
  bits can be written; `readConfig8_writeConfig_other`: the bytes no write of a
  width touches, whatever can be written.
-/

namespace BBoot.Pci

/-! ## Words as bytes -/

/-- The word of up to four bytes, least significant byte first. -/
def leWord : List Byte → Word
  | [] => 0
  | b :: bs => b.setWidth 32 ||| leWord bs <<< 8

/-- The `n` low bytes of a word, least significant byte first. -/
def leBytes (n : ℕ) (v : Word) : List Byte := (List.range n).map fun i => v.extractLsb' (8 * i) 8

theorem leWord_getLsbD (bs : List Byte) {i : ℕ} (hi : i < 32) :
    (leWord bs).getLsbD i = (bs.getD (i / 8) 0).getLsbD (i % 8) := by
  induction bs generalizing i with
  | nil =>
    show (0 : Word).getLsbD i = (0 : Byte).getLsbD (i % 8)
    rw [show (0 : Word).getLsbD i = false from BitVec.getLsbD_zero,
      show (0 : Byte).getLsbD (i % 8) = false from BitVec.getLsbD_zero]
  | cons b bs ih =>
    rw [leWord, BitVec.getLsbD_or, BitVec.getLsbD_setWidth, BitVec.getLsbD_shiftLeft,
      decide_eq_true hi, Bool.true_and, Bool.true_and]
    rcases Nat.lt_or_ge i 8 with h8 | h8
    · rw [decide_eq_true h8, Bool.not_true, Bool.false_and, Bool.or_false, Nat.div_eq_of_lt h8,
        Nat.mod_eq_of_lt h8, List.getD_cons_zero]
    · have hdiv : i / 8 = (i - 8) / 8 + 1 := by omega
      have hmod : i % 8 = (i - 8) % 8 := by omega
      rw [BitVec.getLsbD_of_ge b i h8, Bool.false_or, decide_eq_false (by omega), Bool.not_false,
        Bool.true_and, ih (by omega), hdiv, hmod, List.getD_cons_succ]

theorem leBytes_getLsbD (n : ℕ) (v : Word) {i j : ℕ} (hi : i < n) (hj : j < 8) :
    ((leBytes n v).getD i 0).getLsbD j = v.getLsbD (8 * i + j) := by
  have hlen : i < (leBytes n v).length := by simpa [leBytes] using hi
  rw [List.getD_eq_getElem _ _ hlen]
  simp only [leBytes, List.getElem_map, List.getElem_range]
  rw [BitVec.getLsbD_extractLsb', decide_eq_true hj, Bool.true_and]

/-- The bytes of a value that has no more make it up again. -/
theorem leWord_leBytes {n : ℕ} {v : Word} (hv : ∀ i < 32, 8 * n ≤ i → v.getLsbD i = false) :
    leWord (leBytes n v) = v := by
  apply BitVec.eq_of_getLsbD_eq
  intro i hi
  rw [leWord_getLsbD _ hi]
  rcases Nat.lt_or_ge i (8 * n) with h | h
  · rw [leBytes_getLsbD n v (by omega) (Nat.mod_lt _ (by norm_num)), Nat.div_add_mod]
  · have hlen : (leBytes n v).length ≤ i / 8 := by
      simp only [leBytes, List.length_map, List.length_range]
      omega
    rw [hv i hi h, List.getD_eq_default _ _ hlen]
    exact BitVec.getLsbD_zero

/-! ## Reads -/

theorem readConfig8_getLsbD (c : ConfigSpace) (r : ℕ) {j : ℕ} (hj : j < 8) :
    (pciReadConfig8 c r).getLsbD j = (c.reg (r / 4)).getLsbD (8 * (r % 4) + j) := by
  rw [pciReadConfig8, BitVec.getLsbD_setWidth, BitVec.getLsbD_ushiftRight, decide_eq_true hj,
    Bool.true_and]

/-- The bytes of a function from an offset on. -/
def configBytes (c : ConfigSpace) (reg n : ℕ) : List Byte :=
  (List.range n).map fun i => pciReadConfig8 c (reg + i)

theorem configBytes_getD (c : ConfigSpace) (reg : ℕ) {n i : ℕ} (hi : i < n) :
    (configBytes c reg n).getD i 0 = pciReadConfig8 c (reg + i) := by
  have hlen : i < (configBytes c reg n).length := by simpa [configBytes] using hi
  rw [List.getD_eq_getElem _ _ hlen]
  simp [configBytes]

/-- The lanes of a word from that of `reg` on are the bytes at `reg`. -/
theorem leWord_configBytes (c : ConfigSpace) {reg n : ℕ} (hfit : reg % 4 + n ≤ 4) {i : ℕ}
    (hi : i < 8 * n) :
    (leWord (configBytes c reg n)).getLsbD i = (c.reg (reg / 4)).getLsbD (8 * (reg % 4) + i) := by
  have hdiv : (reg + i / 8) / 4 = reg / 4 := by omega
  have hbit : 8 * ((reg + i / 8) % 4) + i % 8 = 8 * (reg % 4) + i := by omega
  rw [leWord_getLsbD _ (by omega), configBytes_getD c reg (by omega),
    readConfig8_getLsbD _ _ (Nat.mod_lt _ (by norm_num)), hdiv, hbit]

theorem leWord_configBytes_high (c : ConfigSpace) (reg : ℕ) {n i : ℕ} (hi : 8 * n ≤ i) (h32 : i < 32) :
    (leWord (configBytes c reg n)).getLsbD i = false := by
  have hlen : (configBytes c reg n).length ≤ i / 8 := by
    rw [configBytes, List.length_map, List.length_range]
    omega
  rw [leWord_getLsbD _ h32, List.getD_eq_default _ _ hlen]
  exact BitVec.getLsbD_zero

theorem readConfig8_bytes (c : ConfigSpace) (reg : ℕ) :
    (pciReadConfig8 c reg).setWidth 32 = leWord (configBytes c reg 1) := by
  apply BitVec.eq_of_getLsbD_eq
  intro i hi
  rw [BitVec.getLsbD_setWidth, decide_eq_true hi, Bool.true_and]
  rcases Nat.lt_or_ge i 8 with h | h
  · rw [leWord_configBytes c (by omega) (by omega), readConfig8_getLsbD _ _ h]
  · rw [leWord_configBytes_high c reg (by omega) hi, BitVec.getLsbD_of_ge _ _ h]

/-- The lane of an even register. -/
theorem and_two_eq {reg : ℕ} (heven : 2 ∣ reg) : reg &&& 2 = reg % 4 := by
  have hlow : reg &&& 2 = (reg &&& 3) &&& 2 := by
    rw [Nat.and_assoc]
    rfl
  rw [hlow, show reg &&& 3 = reg % 4 from Nat.and_two_pow_sub_one_eq_mod reg 2]
  rcases (show reg % 4 = 0 ∨ reg % 4 = 2 by omega) with h | h <;> rw [h] <;> rfl

/-- **A 16-bit read** returns the two bytes at its offset. -/
theorem readConfig16_bytes (c : ConfigSpace) {reg : ℕ} (heven : 2 ∣ reg) :
    (pciReadConfig16 c reg).setWidth 32 = leWord (configBytes c reg 2) := by
  apply BitVec.eq_of_getLsbD_eq
  intro i hi
  rw [BitVec.getLsbD_setWidth, decide_eq_true hi, Bool.true_and, pciReadConfig16, and_two_eq heven]
  rcases Nat.lt_or_ge i 16 with h | h
  · rw [leWord_configBytes c (by omega) (by omega), BitVec.getLsbD_setWidth,
      BitVec.getLsbD_ushiftRight, decide_eq_true h, Bool.true_and]
  · rw [leWord_configBytes_high c reg (by omega) hi, BitVec.getLsbD_of_ge _ _ h]

/-- **A 32-bit read** returns the four bytes at its offset. -/
theorem readConfig32_bytes (c : ConfigSpace) {reg : ℕ} (haligned : 4 ∣ reg) :
    pciReadConfig32 c reg = leWord (configBytes c reg 4) := by
  apply BitVec.eq_of_getLsbD_eq
  intro i hi
  rw [leWord_configBytes c (by omega) (by omega), pciReadConfig32, Nat.mod_eq_zero_of_dvd haligned,
    Nat.mul_zero, Nat.zero_add]

/-! ## Writes -/

/-- The low `n` byte lanes. -/
def laneMask (n : ℕ) : Word := BitVec.ofNat 32 (2 ^ (8 * n) - 1)

theorem laneMask_getLsbD (n : ℕ) {i : ℕ} (hi : i < 32) :
    (laneMask n).getLsbD i = decide (i < 8 * n) := by
  rw [laneMask, BitVec.getLsbD_ofNat, decide_eq_true hi, Bool.true_and, Nat.testBit_two_pow_sub_one]

/-- A write of the `n` low bytes of `val` at `reg`, in the lanes of its word. -/
def writeLanes (c : ConfigSpace) (reg n : ℕ) (val : Word) : ConfigSpace :=
  c.write (reg / 4) (laneMask n <<< (8 * (reg % 4))) (val <<< (8 * (reg % 4)))

theorem pciWriteConfig8_lanes (c : ConfigSpace) (reg : ℕ) (val : Byte) :
    pciWriteConfig8 c reg val = writeLanes c reg 1 (val.setWidth 32) := rfl

theorem pciWriteConfig16_lanes (c : ConfigSpace) {reg : ℕ} (heven : 2 ∣ reg) (val : BitVec 16) :
    pciWriteConfig16 c reg val = writeLanes c reg 2 (val.setWidth 32) := by
  rw [pciWriteConfig16, and_two_eq heven]
  rfl

theorem pciWriteConfig32_lanes (c : ConfigSpace) {reg : ℕ} (haligned : 4 ∣ reg) (val : Word) :
    pciWriteConfig32 c reg val = writeLanes c reg 4 val := by
  rw [writeLanes, Nat.mod_eq_zero_of_dvd haligned, Nat.mul_zero, BitVec.shiftLeft_zero,
    BitVec.shiftLeft_zero]
  rfl

/-- **A byte behind a write**: bits that were addressed and can be written are those
    of the value. -/
theorem readConfig8_writeLanes (c : ConfigSpace) {reg n : ℕ} (hfit : reg % 4 + n ≤ 4) (val : Word)
    (r : ℕ) {j : ℕ} (hj : j < 8) :
    (pciReadConfig8 (writeLanes c reg n val) r).getLsbD j =
      if (reg ≤ r ∧ r < reg + n) ∧ (c.writable (r / 4)).getLsbD (8 * (r % 4) + j) = true then
        val.getLsbD (8 * (r - reg) + j)
      else (pciReadConfig8 c r).getLsbD j := by
  rw [readConfig8_getLsbD _ _ hj, readConfig8_getLsbD _ _ hj, writeLanes]
  by_cases hword : r / 4 = reg / 4
  · have hbit : 8 * (r % 4) + j < 32 := by omega
    rw [hword, ConfigSpace.write_reg, getLsbD_merge, BitVec.getLsbD_and, BitVec.getLsbD_shiftLeft,
      BitVec.getLsbD_shiftLeft, laneMask_getLsbD n (by omega), decide_eq_true hbit, Bool.true_and]
    by_cases hin : reg ≤ r ∧ r < reg + n
    · rw [decide_eq_false (by omega), Bool.not_false, Bool.true_and, decide_eq_true (by omega),
        Bool.true_and, Bool.true_and]
      have hshift : 8 * (r % 4) + j - 8 * (reg % 4) = 8 * (r - reg) + j := by omega
      simp only [hin, and_self, true_and, hshift]
    · have hoff : (!decide (8 * (r % 4) + j < 8 * (reg % 4)) &&
          decide (8 * (r % 4) + j - 8 * (reg % 4) < 8 * n)) = false := by
        rw [Bool.and_eq_false_iff, Bool.not_eq_false', decide_eq_true_eq, decide_eq_false_iff_not]
        omega
      rw [hoff, Bool.false_and, if_neg Bool.false_ne_true, if_neg fun h => hin h.1]
  · rw [ConfigSpace.write_reg_ne _ _ _ hword, if_neg]
    rintro ⟨hin, -⟩
    omega

/-- All bits of a function can be written. -/
def Plain (c : ConfigSpace) : Prop := ∀ k, c.writable k = 0xffffffff

theorem plain_writeLanes {c : ConfigSpace} (hc : Plain c) (reg n : ℕ) (val : Word) :
    Plain (writeLanes c reg n val) := hc

/-- **The bytes behind a write** where all bits can be written: those of the value
    at its offset, and all others as they were. -/
theorem readConfig8_plain {c : ConfigSpace} (hc : Plain c) {reg n : ℕ} (hfit : reg % 4 + n ≤ 4)
    (val : Word) (r : ℕ) :
    pciReadConfig8 (writeLanes c reg n val) r =
      if reg ≤ r ∧ r < reg + n then (leBytes n val).getD (r - reg) 0 else pciReadConfig8 c r := by
  have hall : ∀ i < 32, (0xffffffff : Word).getLsbD i = true := by decide
  apply BitVec.eq_of_getLsbD_eq
  intro j hj
  rw [readConfig8_writeLanes c hfit val r hj, hc, hall _ (by omega)]
  by_cases hin : reg ≤ r ∧ r < reg + n
  · rw [if_pos ⟨hin, rfl⟩, if_pos hin, leBytes_getLsbD n val (by omega) hj]
  · rw [if_neg fun h => hin h.1, if_neg hin]

/-- A byte outside the range of a write is as it was, whatever can be written. -/
theorem readConfig8_writeLanes_other (c : ConfigSpace) {reg n : ℕ} (hfit : reg % 4 + n ≤ 4)
    (val : Word) {r : ℕ} (hr : ¬ (reg ≤ r ∧ r < reg + n)) :
    pciReadConfig8 (writeLanes c reg n val) r = pciReadConfig8 c r := by
  apply BitVec.eq_of_getLsbD_eq
  intro j hj
  rw [readConfig8_writeLanes c hfit val r hj, if_neg fun h => hr h.1]

end BBoot.Pci
