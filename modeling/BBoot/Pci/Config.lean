import BBoot.Common.Word

/-!
# PCI configuration space

The registers of one function, as 32-bit words, with the bits of each that a
write changes; the other bits are wired. The accesses of `drivers/pci.c` (lines
56–90) put the dword number in the address register and take the byte lane from
the offset, so a narrow write changes some lanes of one word.

Results:
* `ConfigSpace.wired_write`: no write changes a wired bit.
* `ConfigSpace.write_write`: a write is idempotent.
* `ConfigSpace.write_ones`: what a register reads after all ones were written.
-/

namespace BBoot.Pci

/-- The configuration registers of a function: their contents and the bits that
    can be written. -/
structure ConfigSpace where
  reg : ℕ → Word
  writable : ℕ → Word

/-- `old` with the bits of `mask` taken from `v`. -/
def merge (old mask v : Word) : Word := (v &&& mask) ||| (old &&& ~~~mask)

theorem getElem_merge (old mask v : Word) (i : ℕ) (hi : i < 32) :
    (merge old mask v)[i] = if mask[i] then v[i] else old[i] := by
  simp only [merge, BitVec.getElem_or, BitVec.getElem_and, BitVec.getElem_not]
  cases mask[i] <;> simp

theorem getLsbD_merge (old mask v : Word) (i : ℕ) :
    (merge old mask v).getLsbD i = if mask.getLsbD i then v.getLsbD i else old.getLsbD i := by
  by_cases hi : i < 32
  · simp only [BitVec.getLsbD_eq_getElem hi, getElem_merge]
  · simp only [BitVec.getLsbD_of_ge _ _ (Nat.le_of_not_lt hi), ite_self]

namespace ConfigSpace

/-- A write of `v` to the byte lanes `lanes` of word `k`. -/
def write (c : ConfigSpace) (k : ℕ) (lanes v : Word) : ConfigSpace :=
  ⟨Function.update c.reg k (merge (c.reg k) (lanes &&& c.writable k) v), c.writable⟩

/-- The bits of word `k` that no write changes. -/
def wired (c : ConfigSpace) (k : ℕ) : Word := c.reg k &&& ~~~c.writable k

/-- What word `k` reads after all ones were written to it. -/
def sizing (c : ConfigSpace) (k : ℕ) : Word := c.writable k ||| c.wired k

@[simp] theorem write_writable (c : ConfigSpace) (k : ℕ) (lanes v : Word) :
    (c.write k lanes v).writable = c.writable := rfl

theorem write_reg (c : ConfigSpace) (k : ℕ) (lanes v : Word) :
    (c.write k lanes v).reg k = merge (c.reg k) (lanes &&& c.writable k) v :=
  Function.update_self ..

theorem write_reg_ne (c : ConfigSpace) {k k' : ℕ} (lanes v : Word) (h : k' ≠ k) :
    (c.write k lanes v).reg k' = c.reg k' :=
  Function.update_of_ne h ..

/-- No write changes a wired bit. -/
@[simp] theorem wired_write (c : ConfigSpace) (k k' : ℕ) (lanes v : Word) :
    (c.write k lanes v).wired k' = c.wired k' := by
  unfold wired
  by_cases h : k' = k
  · subst h
    rw [write_reg, write_writable]
    ext i hi
    simp only [BitVec.getElem_and, BitVec.getElem_not, getElem_merge]
    cases (c.writable k')[i] <;> simp
  · rw [write_reg_ne c lanes v h, write_writable]

@[simp] theorem sizing_write (c : ConfigSpace) (k k' : ℕ) (lanes v : Word) :
    (c.write k lanes v).sizing k' = c.sizing k' := by
  rw [sizing, wired_write, write_writable, sizing]

/-- Writing what a register holds changes nothing. -/
theorem write_same (c : ConfigSpace) (k : ℕ) (lanes : Word) : c.write k lanes (c.reg k) = c := by
  show (⟨Function.update c.reg k _, c.writable⟩ : ConfigSpace) = ⟨c.reg, c.writable⟩
  congr 1
  apply Function.update_eq_self_iff.mpr
  ext i hi
  rw [getElem_merge, ite_self]

/-- A write to the whole of a word. -/
theorem write_word (c : ConfigSpace) (k : ℕ) (v : Word) :
    (c.write k 0xffffffff v).reg k = (v &&& c.writable k) ||| c.wired k := by
  have hall : (0xffffffff : Word) = BitVec.allOnes 32 := by decide
  rw [write_reg, hall, BitVec.allOnes_and]
  rfl

theorem write_ones (c : ConfigSpace) (k : ℕ) :
    (c.write k 0xffffffff 0xffffffff).reg k = c.sizing k := by
  have hall : (0xffffffff : Word) = BitVec.allOnes 32 := by decide
  rw [write_word, hall, BitVec.allOnes_and]
  rfl

end ConfigSpace

/-! ## Addresses and registers -/

/-- `PCI_SLOT(_d)` (`drivers/pci.h` line 112). -/
def pciSlot (d : Word) : Word := (d >>> 11) &&& 0x1f

/-- `PCI_FUNC(_d)` (line 113). -/
def pciFunc (d : Word) : Word := (d >>> 8) &&& 0x7

/-- The registers used (lines 38–63). -/
def regVendorId : ℕ := 0x00
def regCommand : ℕ := 0x04
def regProgIf : ℕ := 0x09
def regCacheLineSize : ℕ := 0x0c
def regLatencyTimer : ℕ := 0x0d
def regInterruptLine : ℕ := 0x3c
def regInterruptPin : ℕ := 0x3d

/-! ## The accesses -/

/-- `pci_read_config8` (`drivers/pci.c` lines 56–60). -/
def pciReadConfig8 (c : ConfigSpace) (reg : ℕ) : Byte :=
  (c.reg (reg / 4) >>> (8 * (reg % 4))).setWidth 8

/-- `pci_read_config16` (lines 62–66). -/
def pciReadConfig16 (c : ConfigSpace) (reg : ℕ) : BitVec 16 :=
  (c.reg (reg / 4) >>> (8 * (reg &&& 2))).setWidth 16

/-- `pci_read_config32` (lines 68–72). -/
def pciReadConfig32 (c : ConfigSpace) (reg : ℕ) : Word := c.reg (reg / 4)

/-- `pci_write_config8` (lines 74–78). -/
def pciWriteConfig8 (c : ConfigSpace) (reg : ℕ) (val : Byte) : ConfigSpace :=
  c.write (reg / 4) ((0xff : Word) <<< (8 * (reg % 4))) (val.setWidth 32 <<< (8 * (reg % 4)))

/-- `pci_write_config16` (lines 80–84). -/
def pciWriteConfig16 (c : ConfigSpace) (reg : ℕ) (val : BitVec 16) : ConfigSpace :=
  c.write (reg / 4) ((0xffff : Word) <<< (8 * (reg &&& 2)))
    (val.setWidth 32 <<< (8 * (reg &&& 2)))

/-- `pci_write_config32` (lines 86–90). -/
def pciWriteConfig32 (c : ConfigSpace) (reg : ℕ) (val : Word) : ConfigSpace :=
  c.write (reg / 4) 0xffffffff val

end BBoot.Pci
