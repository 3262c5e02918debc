import BBoot.Pci.ConfigBytes

/-!
# The configuration ports

`drivers/pci.c` puts the function and the dword-aligned register number into
`CONFIG_ADDRESS` and takes the byte lane from the offset within the four bytes
of `CONFIG_DATA`. Both ports are little-endian and the machine is not, so the
wide accesses of `ppc-mmio.h` reverse their bytes.

Results:
* `HostBridge.read8_eq`, .., `HostBridge.write32_eq`: each access through the
  ports is the access to the registers of the one function addressed.
* `HostBridge.run_eq`: every sequence of accesses is one on an array of bytes.
-/

namespace BBoot.Pci

/-! ## Model -/

/-- The number of a function: `_bus`, `_dev` and `_fn` of `PCI_DEV`. -/
structure PciAddress where
  bus : BitVec 8
  dev : BitVec 5
  fn : BitVec 3
deriving DecidableEq, Repr

/-- `PCI_DEV(_bus, _dev, _fn)` (`drivers/pci.h` lines 108–109). -/
def pciDev (p : PciAddress) : Word :=
  (0x80000000 : Word) ||| p.bus.setWidth 32 <<< 16 ||| p.dev.setWidth 32 <<< 11 |||
    p.fn.setWidth 32 <<< 8

/-- The bits of `CONFIG_ADDRESS` that select a function, and the dword they select. -/
def functionBits (a : Word) : Word := a &&& 0x00ffff00
def dwordBits (a : Word) : ℕ := (a &&& 0xfc).toNat / 4

/-- The host bridge: where `pci_set_addr` says that its ports are (lines 34–40),
    what is in `CONFIG_ADDRESS`, and the registers of the functions behind it. -/
structure HostBridge where
  confAddr : Word
  dataAddr : Word
  apart : confAddr ≠ dataAddr
  latch : Word
  functions : Word → ConfigSpace

namespace HostBridge

/-- A store of bytes. `CONFIG_ADDRESS` takes whole words; a store to
    `CONFIG_DATA` goes to the dword selected if bit 31 is set. -/
def store (br : HostBridge) (addr : Word) (bytes : List Byte) : HostBridge :=
  let lane := (addr - br.dataAddr).toNat
  let f := functionBits br.latch
  if addr = br.confAddr ∧ bytes.length = 4 then { br with latch := leWord bytes }
  else if br.latch.getLsbD 31 = true ∧ lane + bytes.length ≤ 4 then
    { br with functions := Function.update br.functions f
                (writeLanes (br.functions f) (4 * dwordBits br.latch + lane) bytes.length
                  (leWord bytes)) }
  else br

/-- A load of bytes from `CONFIG_DATA`; nothing else answers. -/
def load (br : HostBridge) (addr : Word) (n : ℕ) : List Byte :=
  let lane := (addr - br.dataAddr).toNat
  if br.latch.getLsbD 31 = true ∧ lane + n ≤ 4 then
    configBytes (br.functions (functionBits br.latch)) (4 * dwordBits br.latch + lane) n
  else List.replicate n 0xff

/-- `read8`, `read16_le` and `read32_le` (`ppc-mmio.h`): the byte at the address
    is the least significant one. -/
def read8 (br : HostBridge) (addr : Word) : Byte := (leWord (br.load addr 1)).setWidth 8
def read16Le (br : HostBridge) (addr : Word) : BitVec 16 := (leWord (br.load addr 2)).setWidth 16
def read32Le (br : HostBridge) (addr : Word) : Word := leWord (br.load addr 4)

/-- `write8`, `write16_le` and `write32_le`. -/
def write8 (br : HostBridge) (addr : Word) (val : Byte) : HostBridge := br.store addr [val]
def write16Le (br : HostBridge) (addr : Word) (val : BitVec 16) : HostBridge :=
  br.store addr (leBytes 2 (val.setWidth 32))
def write32Le (br : HostBridge) (addr : Word) (val : Word) : HostBridge :=
  br.store addr (leBytes 4 val)

/-- `pci_set_conf_addr` (lines 51–54). -/
def pciSetConfAddr (br : HostBridge) (device : Word) (reg : BitVec 16) : HostBridge :=
  br.write32Le br.confAddr (device ||| (reg.setWidth 32 &&& ~~~3) ||| 0x80000000)

/-- `pci_read_config8` (lines 56–60). -/
def pciReadConfig8 (br : HostBridge) (device : Word) (reg : BitVec 16) : Byte × HostBridge :=
  let br := br.pciSetConfAddr device reg
  (br.read8 (br.dataAddr + (reg.setWidth 32 &&& 3)), br)

/-- `pci_read_config16` (lines 62–66). -/
def pciReadConfig16 (br : HostBridge) (device : Word) (reg : BitVec 16) :
    BitVec 16 × HostBridge :=
  let br := br.pciSetConfAddr device reg
  (br.read16Le (br.dataAddr + (reg.setWidth 32 &&& 2)), br)

/-- `pci_read_config32` (lines 68–72). -/
def pciReadConfig32 (br : HostBridge) (device : Word) (reg : BitVec 16) : Word × HostBridge :=
  let br := br.pciSetConfAddr device reg
  (br.read32Le br.dataAddr, br)

/-- `pci_write_config8` (lines 74–78). -/
def pciWriteConfig8 (br : HostBridge) (device : Word) (reg : BitVec 16) (val : Byte) : HostBridge :=
  let br := br.pciSetConfAddr device reg
  br.write8 (br.dataAddr + (reg.setWidth 32 &&& 3)) val

/-- `pci_write_config16` (lines 80–84). -/
def pciWriteConfig16 (br : HostBridge) (device : Word) (reg : BitVec 16) (val : BitVec 16) :
    HostBridge :=
  let br := br.pciSetConfAddr device reg
  br.write16Le (br.dataAddr + (reg.setWidth 32 &&& 2)) val

/-- `pci_write_config32` (lines 86–90). -/
def pciWriteConfig32 (br : HostBridge) (device : Word) (reg : BitVec 16) (val : Word) :
    HostBridge :=
  let br := br.pciSetConfAddr device reg
  br.write32Le br.dataAddr val

end HostBridge

/-! ## What is selected -/

theorem functionBits_pciDev_getLsbD (p : PciAddress) {i : ℕ} (hi : i < 16) :
    (functionBits (pciDev p)).getLsbD (8 + i) =
      if i < 3 then p.fn.getLsbD i
      else if i < 8 then p.dev.getLsbD (i - 3) else p.bus.getLsbD (i - 8) := by
  have hmask : ∀ i < 16, (0x00ffff00 : Word).getLsbD (8 + i) = true := by decide
  have hbit : ∀ i < 16, (0x80000000 : Word).getLsbD (8 + i) = false := by decide
  have hi32 : 8 + i < 32 := by omega
  rw [functionBits, BitVec.getLsbD_and, hmask i hi, Bool.and_true, pciDev, BitVec.getLsbD_or,
    BitVec.getLsbD_or, BitVec.getLsbD_or, hbit i hi, Bool.false_or]
  simp only [BitVec.getLsbD_shiftLeft, BitVec.getLsbD_setWidth, hi32, decide_true, Bool.true_and]
  have hfn : 8 + i - 8 = i := by omega
  have hdev : 8 + i - 11 = i - 3 := by omega
  have hbus : 8 + i - 16 = i - 8 := by omega
  rw [hfn, hdev, hbus]
  split_ifs with h3 h8
  · simp [show 8 + i < 16 by omega, show 8 + i < 11 by omega, show i < 32 by omega]
  · simp [show 8 + i < 16 by omega, show ¬ 8 + i < 11 by omega, show i - 3 < 32 by omega,
      BitVec.getLsbD_of_ge p.fn i (by omega)]
  · simp [show ¬ 8 + i < 16 by omega, show i - 8 < 32 by omega,
      BitVec.getLsbD_of_ge p.fn i (by omega), BitVec.getLsbD_of_ge p.dev (i - 3) (by omega)]

/-- Different functions are selected by different bits. -/
theorem functionBits_pciDev_inj {p q : PciAddress}
    (h : functionBits (pciDev p) = functionBits (pciDev q)) : p = q := by
  have hbit : ∀ i < 16, (functionBits (pciDev p)).getLsbD (8 + i) =
      (functionBits (pciDev q)).getLsbD (8 + i) := fun i _ => by rw [h]
  obtain ⟨bus, dev, fn⟩ := p
  obtain ⟨bus', dev', fn'⟩ := q
  have hfn : fn = fn' := by
    apply BitVec.eq_of_getLsbD_eq
    intro i hi
    have hi16 : i < 16 := by omega
    simpa only [functionBits_pciDev_getLsbD _ hi16, hi, if_true] using hbit i hi16
  have hdev : dev = dev' := by
    apply BitVec.eq_of_getLsbD_eq
    intro i hi
    have hi16 : i + 3 < 16 := by omega
    have h3 : ¬ i + 3 < 3 := by omega
    have h8 : i + 3 < 8 := by omega
    simpa only [functionBits_pciDev_getLsbD _ hi16, h3, h8, if_true, if_false,
      Nat.add_sub_cancel] using hbit (i + 3) hi16
  have hbus : bus = bus' := by
    apply BitVec.eq_of_getLsbD_eq
    intro i hi
    have hi16 : i + 8 < 16 := by omega
    have h3 : ¬ i + 8 < 3 := by omega
    have h8 : ¬ i + 8 < 8 := by omega
    simpa only [functionBits_pciDev_getLsbD _ hi16, h3, h8, if_false, Nat.add_sub_cancel] using
      hbit (i + 8) hi16
  rw [hfn, hdev, hbus]

/-- What `pci_set_conf_addr` writes. -/
def confValue (p : PciAddress) (reg : BitVec 16) : Word :=
  pciDev p ||| (reg.setWidth 32 &&& ~~~3) ||| 0x80000000

/-- The low bits of a function's number are zero. -/
theorem pciDev_low (p : PciAddress) {i : ℕ} (hi : i < 8) : (pciDev p).getLsbD i = false := by
  have hbit : ∀ i < 8, (0x80000000 : Word).getLsbD i = false := by decide
  rw [pciDev, BitVec.getLsbD_or, BitVec.getLsbD_or, BitVec.getLsbD_or, hbit i hi]
  simp only [BitVec.getLsbD_shiftLeft, show i < 8 from hi, show i < 11 by omega,
    show i < 16 by omega, decide_true, Bool.not_true, Bool.and_false, Bool.false_and, Bool.or_false]

/-- The register number does not reach the bits of the function, nor these it. -/
theorem confValue_select (p : PciAddress) {reg : BitVec 16} (hreg : reg.toNat < 256) :
    functionBits (confValue p reg) = functionBits (pciDev p) ∧
      dwordBits (confValue p reg) = reg.toNat / 4 ∧ (confValue p reg).getLsbD 31 = true := by
  have hbit31 : ∀ i < 31, (0x80000000 : Word).getLsbD i = false := by decide
  have hhigh : ∀ i, 8 ≤ i → reg.getLsbD i = false := by
    intro i hi
    rw [BitVec.getLsbD, Nat.testBit_eq_false_of_lt]
    exact lt_of_lt_of_le hreg (Nat.pow_le_pow_right (show 0 < 2 by norm_num) hi)
  refine ⟨?_, ?_, ?_⟩
  · have hmask : ∀ i < 32, i < 8 ∨ i = 31 → (0x00ffff00 : Word).getLsbD i = false := by decide
    apply BitVec.eq_of_getLsbD_eq
    intro i hi
    rw [functionBits, functionBits, confValue, BitVec.getLsbD_and, BitVec.getLsbD_and,
      BitVec.getLsbD_or, BitVec.getLsbD_or, BitVec.getLsbD_and, BitVec.getLsbD_setWidth]
    by_cases hout : i < 8 ∨ i = 31
    · simp only [hmask i hi hout, Bool.and_false]
    · rw [hhigh i (by omega), hbit31 i (by omega)]
      simp
  · have hmask : ∀ i < 32, (0xfc : Word).getLsbD i = decide (2 ≤ i ∧ i < 8) := by decide
    have hdword : ∀ i < 32, 2 ≤ i → (~~~3 : Word).getLsbD i = true := by decide
    have hword : confValue p reg &&& 0xfc = reg.setWidth 32 &&& 0xfc := by
      apply BitVec.eq_of_getLsbD_eq
      intro i hi
      rw [confValue, BitVec.getLsbD_and, BitVec.getLsbD_and, BitVec.getLsbD_or, BitVec.getLsbD_or,
        BitVec.getLsbD_and, hmask i hi]
      by_cases hin : 2 ≤ i ∧ i < 8
      · rw [pciDev_low p hin.2, hdword i hi hin.1, hbit31 i (by omega)]
        simp
      · simp only [hin, decide_false, Bool.and_false]
    have hsmall : ∀ r < 256, (r &&& 0xfc) / 4 = r / 4 := by decide +kernel
    rw [dwordBits, hword, BitVec.toNat_and, BitVec.toNat_setWidth, Nat.mod_eq_of_lt (by omega)]
    exact hsmall _ hreg
  · rw [confValue, BitVec.getLsbD_or]
    simp

/-! ## Accesses through the ports -/

namespace HostBridge

variable (br : HostBridge) (p : PciAddress) {reg : BitVec 16}

/-- The bridge with a register of a function addressed. -/
def addressed (reg : BitVec 16) : HostBridge := { br with latch := confValue p reg }

theorem pciSetConfAddr_eq (reg : BitVec 16) :
    br.pciSetConfAddr (pciDev p) reg = br.addressed p reg := by
  have hword : leWord (leBytes 4 (confValue p reg)) = confValue p reg :=
    leWord_leBytes fun i hi h => absurd hi (by omega)
  show br.store br.confAddr (leBytes 4 (confValue p reg)) = _
  rw [store, if_pos ⟨rfl, rfl⟩, hword]
  rfl

theorem lane_toNat (a lane : Word) : (a + lane - a).toNat = lane.toNat := by
  rw [BitVec.add_comm, BitVec.add_sub_cancel]

theorem addressed_load (hreg : reg.toNat < 256) {n : ℕ} (hfit : reg.toNat % 4 + n ≤ 4)
    {lane : Word} (hlane : lane.toNat = reg.toNat % 4) :
    (br.addressed p reg).load (br.dataAddr + lane) n =
      configBytes (br.functions (functionBits (pciDev p))) reg.toNat n := by
  obtain ⟨hfn, hdword, hon⟩ := confValue_select p hreg
  show (if (confValue p reg).getLsbD 31 = true ∧ (br.dataAddr + lane - br.dataAddr).toNat + n ≤ 4
    then configBytes (br.functions (functionBits (confValue p reg)))
      (4 * dwordBits (confValue p reg) + (br.dataAddr + lane - br.dataAddr).toNat) n else _) = _
  rw [lane_toNat, hlane, if_pos ⟨hon, hfit⟩, hfn, hdword, Nat.div_add_mod]

theorem addressed_store (hreg : reg.toNat < 256) {bytes : List Byte}
    (hfit : reg.toNat % 4 + bytes.length ≤ 4) {lane : Word} (hlane : lane.toNat = reg.toNat % 4) :
    (br.addressed p reg).store (br.dataAddr + lane) bytes =
      { br.addressed p reg with
        functions := Function.update br.functions (functionBits (pciDev p))
          (writeLanes (br.functions (functionBits (pciDev p))) reg.toNat bytes.length
            (leWord bytes)) } := by
  obtain ⟨hfn, hdword, hon⟩ := confValue_select p hreg
  have hdata : ¬ (br.dataAddr + lane = br.confAddr ∧ bytes.length = 4) := by
    rintro ⟨haddr, hlen⟩
    have hzero : lane = 0 := by
      apply BitVec.eq_of_toNat_eq
      show lane.toNat = 0
      omega
    rw [hzero] at haddr
    exact br.apart (haddr.symm.trans (BitVec.add_zero _))
  rw [store, if_neg (by exact hdata)]
  have hlanes : (br.addressed p reg).latch.getLsbD 31 = true ∧
      (br.dataAddr + lane - (br.addressed p reg).dataAddr).toNat + bytes.length ≤ 4 :=
    ⟨hon, by rw [addressed, lane_toNat, hlane]; exact hfit⟩
  rw [if_pos hlanes]
  simp only [addressed, lane_toNat, hlane, hfn, hdword, Nat.div_add_mod]

theorem lane8_toNat (hreg : reg.toNat < 256) : (reg.setWidth 32 &&& 3 : Word).toNat = reg.toNat % 4 := by
  rw [BitVec.toNat_and, BitVec.toNat_setWidth, Nat.mod_eq_of_lt (by omega)]
  exact Nat.and_two_pow_sub_one_eq_mod reg.toNat 2

theorem lane16_toNat (hreg : reg.toNat < 256) (heven : 2 ∣ reg.toNat) :
    (reg.setWidth 32 &&& 2 : Word).toNat = reg.toNat % 4 := by
  rw [BitVec.toNat_and, BitVec.toNat_setWidth, Nat.mod_eq_of_lt (by omega)]
  exact and_two_eq heven

/-- The bridge with other registers of the function behind a number. -/
def withFunction (reg : BitVec 16) (c : ConfigSpace) : HostBridge :=
  { br.addressed p reg with
    functions := Function.update br.functions (functionBits (pciDev p)) c }

/-- The registers of the function behind a number. -/
def function : ConfigSpace := br.functions (functionBits (pciDev p))

/-! Each access through the ports is that access to the one function addressed. -/

theorem read8_eq (hreg : reg.toNat < 256) : br.pciReadConfig8 (pciDev p) reg =
    (Pci.pciReadConfig8 (br.function p) reg.toNat, br.addressed p reg) := by
  have hload := br.addressed_load p hreg (n := 1) (by omega) (lane8_toNat hreg)
  rw [pciReadConfig8, pciSetConfAddr_eq]
  refine Prod.ext ?_ rfl
  show (leWord ((br.addressed p reg).load (br.dataAddr + _) 1)).setWidth 8 = _
  rw [hload, ← readConfig8_bytes, BitVec.setWidth_setWidth_of_le _ (by norm_num),
    BitVec.setWidth_eq]
  rfl

theorem read16_eq (hreg : reg.toNat < 256) (heven : 2 ∣ reg.toNat) :
    br.pciReadConfig16 (pciDev p) reg =
      (Pci.pciReadConfig16 (br.function p) reg.toNat, br.addressed p reg) := by
  have hload := br.addressed_load p hreg (n := 2) (by omega) (lane16_toNat hreg heven)
  rw [pciReadConfig16, pciSetConfAddr_eq]
  refine Prod.ext ?_ rfl
  show (leWord ((br.addressed p reg).load (br.dataAddr + _) 2)).setWidth 16 = _
  rw [hload, ← readConfig16_bytes _ heven, BitVec.setWidth_setWidth_of_le _ (by norm_num),
    BitVec.setWidth_eq]
  rfl

theorem read32_eq (hreg : reg.toNat < 256) (haligned : 4 ∣ reg.toNat) :
    br.pciReadConfig32 (pciDev p) reg =
      (Pci.pciReadConfig32 (br.function p) reg.toNat, br.addressed p reg) := by
  have hlane : (0 : Word).toNat = reg.toNat % 4 := (Nat.mod_eq_zero_of_dvd haligned).symm
  have hload := br.addressed_load p hreg (n := 4) (by omega) hlane
  rw [pciReadConfig32, pciSetConfAddr_eq]
  refine Prod.ext ?_ rfl
  show leWord ((br.addressed p reg).load br.dataAddr 4) = _
  rw [← BitVec.add_zero br.dataAddr]
  exact (congrArg leWord hload).trans (readConfig32_bytes _ haligned).symm

theorem write8_eq (hreg : reg.toNat < 256) (val : Byte) : br.pciWriteConfig8 (pciDev p) reg val =
    br.withFunction p reg (Pci.pciWriteConfig8 (br.function p) reg.toNat val) := by
  have hword : leWord [val] = val.setWidth 32 := by
    simp [leWord]
  have hfit : reg.toNat % 4 + [val].length ≤ 4 := Nat.succ_le_of_lt (Nat.mod_lt _ (by norm_num))
  have hstore := br.addressed_store p hreg hfit (lane8_toNat hreg)
  rw [pciWriteConfig8, pciSetConfAddr_eq]
  show (br.addressed p reg).store (br.dataAddr + _) [val] = _
  rw [hstore, hword]
  rfl

theorem write16_eq (hreg : reg.toNat < 256) (heven : 2 ∣ reg.toNat) (val : BitVec 16) :
    br.pciWriteConfig16 (pciDev p) reg val =
      br.withFunction p reg (Pci.pciWriteConfig16 (br.function p) reg.toNat val) := by
  have hword : leWord (leBytes 2 (val.setWidth 32)) = val.setWidth 32 := by
    apply leWord_leBytes
    intro i _ hi
    rw [BitVec.getLsbD_setWidth, BitVec.getLsbD_of_ge _ _ hi, Bool.and_false]
  have hfit : reg.toNat % 4 + (leBytes 2 (val.setWidth 32)).length ≤ 4 := by
    show reg.toNat % 4 + 2 ≤ 4
    omega
  have hstore := br.addressed_store p hreg hfit (lane16_toNat hreg heven)
  rw [pciWriteConfig16, pciSetConfAddr_eq, pciWriteConfig16_lanes _ heven]
  show (br.addressed p reg).store (br.dataAddr + _) (leBytes 2 _) = _
  rw [hstore, hword]
  rfl

theorem write32_eq (hreg : reg.toNat < 256) (haligned : 4 ∣ reg.toNat) (val : Word) :
    br.pciWriteConfig32 (pciDev p) reg val =
      br.withFunction p reg (Pci.pciWriteConfig32 (br.function p) reg.toNat val) := by
  have hword : leWord (leBytes 4 val) = val := leWord_leBytes fun i hi h => absurd hi (by omega)
  have hlane : (0 : Word).toNat = reg.toNat % 4 := (Nat.mod_eq_zero_of_dvd haligned).symm
  have hfit : reg.toNat % 4 + (leBytes 4 val).length ≤ 4 := by
    show reg.toNat % 4 + 4 ≤ 4
    omega
  have hstore := br.addressed_store p hreg hfit hlane
  rw [pciWriteConfig32, pciSetConfAddr_eq, pciWriteConfig32_lanes _ haligned]
  show (br.addressed p reg).store br.dataAddr (leBytes 4 val) = _
  rw [show br.dataAddr + 0 = br.dataAddr from BitVec.add_zero _] at hstore
  rw [hstore, hword]
  rfl

@[simp] theorem function_addressed (q : PciAddress) (reg : BitVec 16) :
    (br.addressed p reg).function q = br.function q := rfl

@[simp] theorem function_withFunction (q : PciAddress) (reg : BitVec 16) (c : ConfigSpace) :
    (br.withFunction p reg c).function q = if q = p then c else br.function q := by
  show Function.update br.functions (functionBits (pciDev p)) c (functionBits (pciDev q)) = _
  by_cases h : q = p
  · rw [h, Function.update_self, if_pos rfl]
  · rw [Function.update_of_ne fun heq => h (functionBits_pciDev_inj heq), if_neg h]
    rfl

end HostBridge

/-! ## Sequences of accesses -/

/-- The accesses of `drivers/pci.c`. -/
inductive ConfigOp
  | read8
  | read16
  | read32
  | write8 (val : Byte)
  | write16 (val : BitVec 16)
  | write32 (val : Word)
deriving DecidableEq, Repr

/-- The number of bytes an access is about. -/
def ConfigOp.width : ConfigOp → ℕ
  | .read8 | .write8 _ => 1
  | .read16 | .write16 _ => 2
  | .read32 | .write32 _ => 4

/-- One call: the function, the register and what is done. -/
structure ConfigAccess where
  device : PciAddress
  reg : BitVec 16
  op : ConfigOp
deriving DecidableEq, Repr

/-- The register is one of the 256 and aligned to the width of the access. -/
def ConfigAccess.Aligned (a : ConfigAccess) : Prop := a.reg.toNat < 256 ∧ a.op.width ∣ a.reg.toNat

/-- The call through the ports, with the value a read returns. -/
def HostBridge.access (br : HostBridge) (a : ConfigAccess) : Option Word × HostBridge :=
  match a.op with
  | .read8 =>
    let (val, br) := br.pciReadConfig8 (pciDev a.device) a.reg
    (some (val.setWidth 32), br)
  | .read16 =>
    let (val, br) := br.pciReadConfig16 (pciDev a.device) a.reg
    (some (val.setWidth 32), br)
  | .read32 =>
    let (val, br) := br.pciReadConfig32 (pciDev a.device) a.reg
    (some val, br)
  | .write8 val => (none, br.pciWriteConfig8 (pciDev a.device) a.reg val)
  | .write16 val => (none, br.pciWriteConfig16 (pciDev a.device) a.reg val)
  | .write32 val => (none, br.pciWriteConfig32 (pciDev a.device) a.reg val)

/-- The bytes of all functions. -/
abbrev ConfigArray := PciAddress → ℕ → Byte

namespace ConfigArray

/-- The little-endian value of the `n` bytes of a function at an offset. -/
def get (m : ConfigArray) (p : PciAddress) (reg n : ℕ) : Word :=
  leWord ((List.range n).map fun i => m p (reg + i))

/-- These bytes changed to the encoding of a value. -/
def put (m : ConfigArray) (p : PciAddress) (reg n : ℕ) (val : Word) : ConfigArray := fun q r =>
  if q = p ∧ reg ≤ r ∧ r < reg + n then (leBytes n val).getD (r - reg) 0 else m q r

/-- The call on the array. -/
def access (m : ConfigArray) (a : ConfigAccess) : Option Word × ConfigArray :=
  match a.op with
  | .read8 | .read16 | .read32 => (some (m.get a.device a.reg.toNat a.op.width), m)
  | .write8 val => (none, m.put a.device a.reg.toNat 1 (val.setWidth 32))
  | .write16 val => (none, m.put a.device a.reg.toNat 2 (val.setWidth 32))
  | .write32 val => (none, m.put a.device a.reg.toNat 4 val)

end ConfigArray

/-- The calls one after the other, with what the reads return. -/
def runAccesses {σ : Type} (access : σ → ConfigAccess → Option Word × σ) :
    σ → List ConfigAccess → List (Option Word) × σ
  | s, [] => ([], s)
  | s, a :: as =>
    let (val, s) := access s a
    let (vals, s) := runAccesses access s as
    (val :: vals, s)

namespace HostBridge

/-- The bytes of the functions behind the bridge. -/
def array (br : HostBridge) : ConfigArray := fun p r => Pci.pciReadConfig8 (br.function p) r

/-- All bits of all functions can be written. -/
def AllPlain (br : HostBridge) : Prop := ∀ f, Plain (br.functions f)

theorem array_withFunction {br : HostBridge} (hplain : br.AllPlain) (p : PciAddress)
    (reg : BitVec 16) {n : ℕ} (hfit : reg.toNat % 4 + n ≤ 4) (val : Word) :
    (br.withFunction p reg (writeLanes (br.function p) reg.toNat n val)).array =
        br.array.put p reg.toNat n val ∧
      (br.withFunction p reg (writeLanes (br.function p) reg.toNat n val)).AllPlain := by
  have hp : Plain (br.function p) := hplain _
  constructor
  · funext q r
    unfold array ConfigArray.put
    rw [function_withFunction]
    by_cases h : q = p
    · rw [if_pos h, readConfig8_plain hp hfit]
      simp only [h, true_and]
    · rw [if_neg h, if_neg fun h' => h h'.1]
  · intro f
    show Plain (Function.update br.functions _ _ f)
    by_cases hf : f = functionBits (pciDev p)
    · rw [hf, Function.update_self]
      exact plain_writeLanes hp _ _ _
    · rw [Function.update_of_ne hf]
      exact hplain f

/-- **One access** through the ports is that access to the array of bytes. -/
theorem access_eq {br : HostBridge} (hplain : br.AllPlain) {a : ConfigAccess} (ha : a.Aligned) :
    (br.access a).1 = (br.array.access a).1 ∧ (br.access a).2.array = (br.array.access a).2 ∧
      (br.access a).2.AllPlain := by
  obtain ⟨p, reg, op⟩ := a
  obtain ⟨hreg, hdvd⟩ := ha
  have hreg : reg.toNat < 256 := hreg
  cases op with
  | read8 =>
    show (some ((br.pciReadConfig8 (pciDev p) reg).1.setWidth 32) = some (leWord _)) ∧
      (br.pciReadConfig8 (pciDev p) reg).2.array = br.array ∧
      (br.pciReadConfig8 (pciDev p) reg).2.AllPlain
    rw [read8_eq br p hreg]
    exact ⟨congrArg some (readConfig8_bytes _ _), rfl, hplain⟩
  | read16 =>
    have heven : 2 ∣ reg.toNat := hdvd
    show (some ((br.pciReadConfig16 (pciDev p) reg).1.setWidth 32) = some (leWord _)) ∧
      (br.pciReadConfig16 (pciDev p) reg).2.array = br.array ∧
      (br.pciReadConfig16 (pciDev p) reg).2.AllPlain
    rw [read16_eq br p hreg heven]
    exact ⟨congrArg some (readConfig16_bytes _ heven), rfl, hplain⟩
  | read32 =>
    have haligned : 4 ∣ reg.toNat := hdvd
    show (some (br.pciReadConfig32 (pciDev p) reg).1 = some (leWord _)) ∧
      (br.pciReadConfig32 (pciDev p) reg).2.array = br.array ∧
      (br.pciReadConfig32 (pciDev p) reg).2.AllPlain
    rw [read32_eq br p hreg haligned]
    exact ⟨congrArg some (readConfig32_bytes _ haligned), rfl, hplain⟩
  | write8 val =>
    show none = none ∧ (br.pciWriteConfig8 (pciDev p) reg val).array = br.array.put p reg.toNat 1 _ ∧
      (br.pciWriteConfig8 (pciDev p) reg val).AllPlain
    rw [write8_eq br p hreg, pciWriteConfig8_lanes]
    exact ⟨rfl, array_withFunction hplain p reg (by omega) _⟩
  | write16 val =>
    have heven : 2 ∣ reg.toNat := hdvd
    show none = none ∧ (br.pciWriteConfig16 (pciDev p) reg val).array = br.array.put p reg.toNat 2 _ ∧
      (br.pciWriteConfig16 (pciDev p) reg val).AllPlain
    rw [write16_eq br p hreg heven, pciWriteConfig16_lanes _ heven]
    exact ⟨rfl, array_withFunction hplain p reg (by omega) _⟩
  | write32 val =>
    have haligned : 4 ∣ reg.toNat := hdvd
    show none = none ∧ (br.pciWriteConfig32 (pciDev p) reg val).array = br.array.put p reg.toNat 4 _ ∧
      (br.pciWriteConfig32 (pciDev p) reg val).AllPlain
    rw [write32_eq br p hreg haligned, pciWriteConfig32_lanes _ haligned]
    exact ⟨rfl, array_withFunction hplain p reg (by omega) _⟩

/-- **The accessors form one byte-addressed space.** For every content of the
    registers and every sequence of accesses of any widths to any functions,
    aligned and below register 256, the reads return what the same accesses to
    an array of bytes return, and the registers hold what that array holds. -/
theorem run_eq {br : HostBridge} (hplain : br.AllPlain) {as : List ConfigAccess}
    (has : ∀ a ∈ as, a.Aligned) :
    (runAccesses access br as).1 = (runAccesses ConfigArray.access br.array as).1 ∧
      (runAccesses access br as).2.array = (runAccesses ConfigArray.access br.array as).2 := by
  induction as generalizing br with
  | nil => exact ⟨rfl, rfl⟩
  | cons a as ih =>
    obtain ⟨ha, has⟩ := List.forall_mem_cons.mp has
    obtain ⟨hval, harray, hplain'⟩ := access_eq hplain ha
    obtain ⟨hvals, hend⟩ := ih hplain' has
    rw [harray] at hvals hend
    show (br.access a).1 :: (runAccesses access (br.access a).2 as).1 =
        (br.array.access a).1 :: (runAccesses ConfigArray.access (br.array.access a).2 as).1 ∧
      (runAccesses access (br.access a).2 as).2.array =
        (runAccesses ConfigArray.access (br.array.access a).2 as).2
    rw [hval, hvals]
    exact ⟨rfl, hend⟩

end HostBridge

/-- A bridge at the ports of the amigaone, with all registers zero. -/
def zeroBridge : HostBridge where
  confAddr := 0xfec00cf8
  dataAddr := 0xfee00cfc
  apart := by decide
  latch := 0
  functions _ := ⟨fun _ => 0, fun _ => 0xffffffff⟩

/-- A word, a byte inside it and the upper half of the word read back. -/
theorem zeroBridge_run :
    (runAccesses HostBridge.access zeroBridge
      [⟨⟨0, 3, 0⟩, 0x10, .write32 0x11223344⟩, ⟨⟨0, 3, 0⟩, 0x12, .write8 0xaa⟩,
        ⟨⟨0, 3, 1⟩, 0x10, .write32 0xffffffff⟩, ⟨⟨0, 3, 0⟩, 0x12, .read16⟩]).1 =
      [none, none, none, some 0x11aa] := by
  have hplain : zeroBridge.AllPlain := fun _ _ => rfl
  refine (HostBridge.run_eq hplain ?_).1.trans (by decide)
  simp [ConfigAccess.Aligned, ConfigOp.width]

end BBoot.Pci
