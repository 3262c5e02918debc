import BBoot.Pci.Config
import BBoot.Pci.Windows

/-!
# Setting up one PCI device on amigaone and sam460

`setup_pci_device` of the two boards (`brd_amigaone.c` lines 95–172,
`brd_sam460.c` lines 366–416) ends in the same loop over the six base address
registers. It collects the decode enable bits in `cmd` before it knows whether a
register can be served, and stores `cmd` with each one that can.

Results:
* `barLoop_eq`: the loop, from the implemented registers and what `addr_for_bar`
  hands out for them.
* `program_bar`, `program_command`: what the passes leave in the base address
  registers and in the command register.
-/

namespace BBoot.Pci

/-! ## Model -/

/-- `PCI_BAR(_bar)` (`drivers/pci.h` line 103). -/
def pciBar (i : ℕ) : ℕ := 0x10 + 4 * i

/-- `REG_COMMAND_IO`, `REG_COMMAND_MEM`, `REG_COMMAND_BM` (lines 85–87). -/
def regCommandIo : BitVec 16 := 1
def regCommandMem : BitVec 16 := 2
def regCommandBm : BitVec 16 := 4

/-- `BAR_MEM_LIMIT_64` (line 98). -/
def barMemLimit64 : Word := 4

/-- The attribute bits of a register: `BAR_IO_ATTR_MASK` or `BAR_MEM_ATTR_MASK`
    (lines 100–101). -/
def barAttrMask (bar : Word) : Word := if bar &&& barSpaceIo ≠ 0 then 3 else 0xf

/-- One pass of the loop that asked `addr_for_bar`. -/
structure BarVisit where
  index : ℕ
  bar : Word
  type : Word
  size : Word
  base : Word
deriving DecidableEq, Repr

/-- The allocator and a device, with the I/O ports written and the base address
    registers served so far. -/
structure Dev where
  windows : PciWindows
  config : ConfigSpace
  ports : List (Word × Byte)
  visits : List BarVisit

/-- The values the loop computes from what a base address register reads after
    all ones were written to it. -/
def barType (bar : Word) : Word := bar &&& barAttrMask bar
def barSize (bar : Word) : Word := ~~~(bar &&& ~~~barAttrMask bar) + 1
def barCommand (bar : Word) : BitVec 16 :=
  if bar &&& barSpaceIo ≠ 0 then regCommandIo else regCommandMem

/-- What is written once an address was handed out. -/
def programBar (latencyTimer : Byte) (i : ℕ) (cmd : BitVec 16) (base type : Word)
    (c : ConfigSpace) : ConfigSpace :=
  let c := pciWriteConfig32 c (pciBar i) (base ||| type)
  let c := pciWriteConfig16 c regCommand (cmd ||| regCommandBm)
  let c := pciWriteConfig8 c regCacheLineSize 8
  pciWriteConfig8 c regLatencyTimer latencyTimer

/-- The index of the next pass: `if (type & BAR_MEM_LIMIT_64) ++i;` before `i++`. -/
def nextIndex (i : ℕ) (type : Word) : ℕ := if type &&& barMemLimit64 ≠ 0 then i + 2 else i + 1

theorem lt_nextIndex (i : ℕ) (type : Word) : i < nextIndex i type := by
  unfold nextIndex
  split_ifs <;> omega

/-- The loop over the base address registers (`brd_amigaone.c` lines 148–171,
    `brd_sam460.c` lines 391–415). -/
def barLoop (latencyTimer : Byte) (i : ℕ) (cmd : BitVec 16) (d : Dev) : Dev :=
  if _h : i < 6 then
    let c := pciWriteConfig32 d.config (pciBar i) 0xffffffff
    let bar := pciReadConfig32 c (pciBar i)
    if bar = 0 then barLoop latencyTimer (i + 1) cmd { d with config := c }
    else
      let type := barType bar
      let size := barSize bar
      let cmd := cmd ||| barCommand bar
      let (base, w) := addrForBar d.windows type size
      let c := if base ≠ 0 then programBar latencyTimer i cmd base type c else c
      let d := { d with windows := w, config := c,
                        visits := d.visits ++ [⟨i, bar, type, size, base⟩] }
      barLoop latencyTimer (nextIndex i type) cmd d
  else d
termination_by 6 - i
decreasing_by
  · omega
  · exact Nat.sub_lt_sub_left _h (lt_nextIndex ..)

/-- `pci_irq_map` of the two boards. -/
def Board.pciIrqMap : Board → List Byte
  | .amigaone => [9, 10, 11, 7]
  | .sam460 => [32, 32, 32, 32]

/-- `setup_isa` (`brd_amigaone.c` lines 47–63). -/
def setupIsa (c : ConfigSpace) : ConfigSpace :=
  let map := Board.amigaone.pciIrqMap
  let c := pciWriteConfig8 c 0x4a 0x04
  let c := pciWriteConfig8 c 0x50 0x0e
  let c := pciWriteConfig8 c 0x51 0x76
  let c := pciWriteConfig8 c 0x52 0x34
  let c := pciWriteConfig8 c 0x54 0x00
  let c := pciWriteConfig8 c 0x55 (map.getD 0 0 <<< 4)
  let c := pciWriteConfig8 c 0x56 (map.getD 2 0 <<< 4 ||| map.getD 1 0)
  pciWriteConfig8 c 0x57 (map.getD 3 0 <<< 4)

/-- `setup_fdc` (lines 65–79); `port` is what the port `0x3f1` reads. -/
def setupFdc (port : Byte) (d : Dev) : Dev :=
  let c := pciWriteConfig8 d.config 0x85 3
  let io := d.windows.iobase
  let ports : List (Word × Byte) := [(io + 0x3f0, 0xe3), (io + 0x3f1, 0x3f <<< 2), (io + 0x3f0, 0xe2),
    (io + 0x3f0, 0xe2), (io + 0x3f1, port ||| 0x10)]
  { d with config := pciWriteConfig8 c 0x85 1, ports := d.ports ++ ports }

/-- `setup_ide` (lines 81–93). -/
def setupIde (c : ConfigSpace) : ConfigSpace :=
  let c := pciWriteConfig8 c 0x40 0x03
  let c := pciWriteConfig8 c regCommand 0x07
  let c := pciWriteConfig8 c regProgIf 0x8a
  let c := pciWriteConfig8 c regInterruptPin 0x00
  let c := pciWriteConfig8 c regInterruptLine 0xff
  pciWriteConfig8 c regLatencyTimer 0x20

/-- The writes to the USB functions of slot 7 (lines 118–122). -/
def setupUsb (c : ConfigSpace) : ConfigSpace :=
  let c := pciWriteConfig8 c 0x05 0x17
  let c := pciWriteConfig8 c 0x06 0x01
  let c := pciWriteConfig8 c 0x41 0x12
  pciWriteConfig8 c 0x42 0x03

/-- `if (irq != 0xff) pci_write_config8(devfn, REG_INTERRUPT_LINE, irq);` -/
def setInterruptLine (irq : Byte) (c : ConfigSpace) : ConfigSpace :=
  if irq ≠ 0xff then pciWriteConfig8 c regInterruptLine irq else c

/-- The interrupt of a pin on amigaone (lines 134–143), and of one on sam460
    (`brd_sam460.c` lines 382–387). -/
def amigaoneIrq (devfn : Word) (pin : Byte) : Byte :=
  let map := Board.amigaone.pciIrqMap
  if pciSlot devfn = 6 then map.getD 3 0
  else if pciSlot devfn = 7 then map.getD (pin.toNat - 1) 0
  else map.getD (((pciSlot devfn).toNat + pin.toNat - 1) % 4) 0

def sam460Irq (devfn vendev : Word) (pin : Byte) : Byte :=
  if vendev.setWidth 16 = (0x126f : BitVec 16) ∧ (vendev >>> 16).setWidth 16 = (0x0501 : BitVec 16)
  then 116
  else Board.sam460.pciIrqMap.getD (((pciSlot devfn).toNat + pin.toNat - 1) % 4) 0

/-- A device is there: `vendev` is not all ones and, on sam460, not zero. -/
def Board.present (b : Board) (vendev : Word) : Bool :=
  match b with
  | .amigaone => vendev ≠ 0xffffffff
  | .sam460 => vendev ≠ 0xffffffff ∧ vendev ≠ 0

/-- The functions of slot 7 of the amigaone that do not get to the loop. -/
def Board.special (b : Board) (devfn : Word) : Bool :=
  b = .amigaone ∧ pciSlot devfn = 7 ∧
    (pciFunc devfn = 0 ∨ pciFunc devfn = 1 ∨ pciFunc devfn = 4 ∨ pciFunc devfn = 6)

/-- The USB functions of slot 7 of the amigaone. -/
def Board.usb (b : Board) (devfn : Word) : Bool :=
  b = .amigaone ∧ pciSlot devfn = 7 ∧ (pciFunc devfn = 2 ∨ pciFunc devfn = 3)

/-- `cmd` without its enable bits, as it is read and stored first. -/
def commandOff (c : ConfigSpace) : BitVec 16 :=
  pciReadConfig16 c regCommand &&& ~~~(regCommandBm ||| regCommandMem ||| regCommandIo)

/-- What is set up before the loop on the path that gets to it. -/
def beforeBars (b : Board) (devfn : Word) (c : ConfigSpace) : ConfigSpace :=
  let vendev := pciReadConfig32 c regVendorId
  let c := pciWriteConfig16 c regCommand (commandOff c)
  let c := if b.usb devfn then setupUsb c else c
  let pin := pciReadConfig8 c regInterruptPin
  let irq : Byte :=
    if b.usb devfn then 5
    else if 0 < pin ∧ pin < 5 then
      match b with
      | .amigaone => amigaoneIrq devfn pin
      | .sam460 => sam460Irq devfn vendev pin
    else 0xff
  setInterruptLine irq c

/-- `latency_timer`. -/
def latencyTimer (b : Board) (devfn : Word) : Byte := if b.usb devfn then 0x40 else 0x80

/-- `setup_pci_device` of `brd_amigaone.c` (lines 95–172) and of `brd_sam460.c`
    (lines 366–416). -/
def setupPciDevice (b : Board) (port : Byte) (devfn : Word) (d : Dev) : Dev :=
  if b.present (pciReadConfig32 d.config regVendorId) = false then d
  else if b.special devfn then
    let c := pciWriteConfig16 d.config regCommand (commandOff d.config)
    if pciFunc devfn = 0 then setupFdc port { d with config := setupIsa c }
    else if pciFunc devfn = 1 then { d with config := setupIde c }
    else { d with config := c }
  else
    barLoop (latencyTimer b devfn) 0 (commandOff d.config)
      { d with config := beforeBars b devfn d.config }

/-! ## What is there and what is handed out -/

/-- The base address registers that are implemented, with what each reads after all
    ones were written. The word behind a 64-bit one is its upper half. -/
def implemented (c : ConfigSpace) (i : ℕ) : List (ℕ × Word) :=
  if _h : i < 6 then
    let bar := c.sizing (4 + i)
    if bar = 0 then implemented c (i + 1)
    else (i, bar) :: implemented c (nextIndex i (barType bar))
  else []
termination_by 6 - i
decreasing_by
  · omega
  · exact Nat.sub_lt_sub_left _h (lt_nextIndex ..)

/-- The calls of `addr_for_bar` for these registers, in order. -/
def allocate (w : PciWindows) : List (ℕ × Word) → List BarVisit × PciWindows
  | [] => ([], w)
  | (i, bar) :: ps =>
    let r := addrForBar w (barType bar) (barSize bar)
    let rest := allocate r.2 ps
    (⟨i, bar, barType bar, barSize bar, r.1⟩ :: rest.1, rest.2)

/-- What one pass of the loop writes. -/
def visitConfig (latencyTimer : Byte) (cmd : BitVec 16) (v : BarVisit) (c : ConfigSpace) :
    ConfigSpace :=
  let c := pciWriteConfig32 c (pciBar v.index) 0xffffffff
  if v.base ≠ 0 then programBar latencyTimer v.index cmd v.base v.type c else c

/-- What the passes write that asked `addr_for_bar`. -/
def program (latencyTimer : Byte) : List BarVisit → BitVec 16 → ConfigSpace → ConfigSpace
  | [], _, c => c
  | v :: vs, cmd, c =>
    program latencyTimer vs (cmd ||| barCommand v.bar)
      (visitConfig latencyTimer (cmd ||| barCommand v.bar) v c)

theorem pciBar_div (i : ℕ) : pciBar i / 4 = 4 + i := by
  unfold pciBar
  omega

theorem implemented_absent {c : ConfigSpace} {i : ℕ} (hi : i < 6) (h : c.sizing (4 + i) = 0) :
    implemented c i = implemented c (i + 1) := by
  rw [implemented.eq_1, dif_pos hi]
  exact if_pos h

theorem implemented_present {c : ConfigSpace} {i : ℕ} (hi : i < 6) (h : c.sizing (4 + i) ≠ 0) :
    implemented c i =
      (i, c.sizing (4 + i)) :: implemented c (nextIndex i (barType (c.sizing (4 + i)))) := by
  rw [implemented.eq_1, dif_pos hi]
  exact if_neg h

theorem implemented_end {c : ConfigSpace} {i : ℕ} (hi : ¬ i < 6) : implemented c i = [] := by
  rw [implemented.eq_1, dif_neg hi]

/-- Induction over the passes of the loop. -/
theorem bar_induction {motive : ℕ → Prop} (hend : ∀ i, ¬ i < 6 → motive i)
    (hstep : ∀ i, i < 6 → (∀ j, i < j → motive j) → motive i) (i : ℕ) : motive i := by
  induction hn : 6 - i using Nat.strong_induction_on generalizing i with
  | _ n ih =>
    by_cases hi : i < 6
    · exact hstep i hi fun j hj => ih (6 - j) (by omega) j rfl
    · exact hend i hi

theorem implemented_congr {c c' : ConfigSpace} (h : ∀ k, c.sizing k = c'.sizing k) (i : ℕ) :
    implemented c i = implemented c' i := by
  induction i using bar_induction with
  | hend i hi => rw [implemented_end hi, implemented_end hi]
  | hstep i hi ih =>
    by_cases hbar : c.sizing (4 + i) = 0
    · rw [implemented_absent hi hbar, implemented_absent hi (by rw [← h]; exact hbar),
        ih (i + 1) (by omega)]
    · rw [implemented_present hi hbar, implemented_present hi (by rw [← h]; exact hbar), ← h,
        ih _ (lt_nextIndex ..)]

/-- The accesses of a pass keep the wired bits and which bits are writable. -/
theorem visitConfig_wired (latencyTimer : Byte) (cmd : BitVec 16) (v : BarVisit) (c : ConfigSpace)
    (k : ℕ) :
    (visitConfig latencyTimer cmd v c).writable = c.writable ∧
      (visitConfig latencyTimer cmd v c).wired k = c.wired k := by
  unfold visitConfig programBar
  dsimp only
  split_ifs
  · exact ⟨rfl, by
      rw [pciWriteConfig8, pciWriteConfig8, pciWriteConfig16, pciWriteConfig32, pciWriteConfig32,
        ConfigSpace.wired_write, ConfigSpace.wired_write, ConfigSpace.wired_write,
        ConfigSpace.wired_write, ConfigSpace.wired_write]⟩
  · exact ⟨rfl, by rw [pciWriteConfig32, ConfigSpace.wired_write]⟩

theorem visitConfig_sizing (latencyTimer : Byte) (cmd : BitVec 16) (v : BarVisit) (c : ConfigSpace)
    (k : ℕ) : (visitConfig latencyTimer cmd v c).sizing k = c.sizing k := by
  obtain ⟨h1, h2⟩ := visitConfig_wired latencyTimer cmd v c k
  rw [ConfigSpace.sizing, h1, h2, ConfigSpace.sizing]

/-- A register that reads zero after all ones were written is not there. -/
theorem ConfigSpace.write_absent {c : ConfigSpace} {k : ℕ} (h : c.sizing k = 0) (lanes v : Word) :
    c.write k lanes v = c := by
  have hw : c.writable k = 0 := by
    have hand : c.writable k &&& c.sizing k = c.writable k := by
      ext i hi
      simp only [ConfigSpace.sizing, BitVec.getElem_and, BitVec.getElem_or]
      cases (c.writable k)[i] <;> simp
    rw [← hand, h]
    exact BitVec.and_zero
  show (⟨Function.update c.reg k _, c.writable⟩ : ConfigSpace) = ⟨c.reg, c.writable⟩
  congr 1
  refine Function.update_eq_self_iff.mpr ?_
  ext i hi
  rw [hw, getElem_merge]
  simp

/-- **The loop** serves the implemented registers from `i` on, in order. -/
theorem barLoop_eq (latencyTimer : Byte) (i : ℕ) (cmd : BitVec 16) (d : Dev) :
    barLoop latencyTimer i cmd d =
      { d with
        windows := (allocate d.windows (implemented d.config i)).2
        config := program latencyTimer (allocate d.windows (implemented d.config i)).1 cmd d.config
        visits := d.visits ++ (allocate d.windows (implemented d.config i)).1 } := by
  induction i using bar_induction generalizing cmd d with
  | hend i hi =>
    rw [barLoop, dif_neg hi, implemented_end hi]
    show d = { d with visits := d.visits ++ [] }
    rw [List.append_nil]
  | hstep i hi ih =>
    have hread : pciReadConfig32 (pciWriteConfig32 d.config (pciBar i) 0xffffffff) (pciBar i) =
        d.config.sizing (4 + i) := by
      rw [pciReadConfig32, pciWriteConfig32, pciBar_div, ConfigSpace.write_ones]
    rw [barLoop, dif_pos hi]
    dsimp only
    rw [hread]
    by_cases hbar : d.config.sizing (4 + i) = 0
    · have hsame : pciWriteConfig32 d.config (pciBar i) 0xffffffff = d.config := by
        rw [pciWriteConfig32, pciBar_div]
        exact ConfigSpace.write_absent hbar _ _
      rw [if_pos hbar, hsame, ih (i + 1) (by omega), implemented_absent hi hbar]
    · rw [if_neg hbar, ih _ (lt_nextIndex ..), implemented_present hi hbar]
      let v : BarVisit := ⟨i, d.config.sizing (4 + i), barType (d.config.sizing (4 + i)),
        barSize (d.config.sizing (4 + i)), (addrForBar d.windows (barType (d.config.sizing (4 + i)))
          (barSize (d.config.sizing (4 + i)))).1⟩
      let c' := visitConfig latencyTimer (cmd ||| barCommand (d.config.sizing (4 + i))) v d.config
      have hsame : ∀ j, implemented c' j = implemented d.config j :=
        implemented_congr fun k => visitConfig_sizing latencyTimer _ v d.config k
      let w := (addrForBar d.windows v.type v.size).2
      show ({ d with
          windows := (allocate w (implemented c' (nextIndex i v.type))).2
          config := program latencyTimer (allocate w (implemented c' (nextIndex i v.type))).1
            (cmd ||| barCommand v.bar) c'
          visits := (d.visits ++ [v]) ++ (allocate w (implemented c' (nextIndex i v.type))).1 } :
        Dev) = _
      rw [hsame, List.append_assoc]
      rfl

/-! ## What the passes leave behind -/

/-- The space of a base address register. -/
def barIsIo (bar : Word) : Bool := bar &&& barSpaceIo ≠ 0

/-- The bit of the command register that enables decoding of a space. -/
def commandBit (io : Bool) : ℕ := if io then 0 else 1

theorem commandBit_lt (io : Bool) : commandBit io < 2 := by cases io <;> decide

/-- The cache line size and the latency timer are in word 3. -/
theorem programBar_reg (latencyTimer : Byte) (i : ℕ) (cmd : BitVec 16) (base type : Word)
    (c : ConfigSpace) {k : ℕ} (h3 : k ≠ 3) :
    (programBar latencyTimer i cmd base type c).reg k =
      (pciWriteConfig16 (pciWriteConfig32 c (pciBar i) (base ||| type)) regCommand
        (cmd ||| regCommandBm)).reg k := by
  unfold programBar
  dsimp only
  rw [pciWriteConfig8, ConfigSpace.write_reg_ne _ _ _ (show k ≠ regLatencyTimer / 4 from h3),
    pciWriteConfig8, ConfigSpace.write_reg_ne _ _ _ (show k ≠ regCacheLineSize / 4 from h3)]

theorem writeCommand_reg (c : ConfigSpace) (val : BitVec 16) {k : ℕ} (h1 : k ≠ 1) :
    (pciWriteConfig16 c regCommand val).reg k = c.reg k := by
  rw [pciWriteConfig16, ConfigSpace.write_reg_ne _ _ _ (show k ≠ regCommand / 4 from h1)]

theorem writeBar_reg (c : ConfigSpace) {i k : ℕ} (val : Word) (hk : k ≠ 4 + i) :
    (pciWriteConfig32 c (pciBar i) val).reg k = c.reg k := by
  rw [pciWriteConfig32, ConfigSpace.write_reg_ne _ _ _ (by rwa [pciBar_div])]

/-- Only the register of a pass, the command word and word 3 are written. -/
theorem visitConfig_other (latencyTimer : Byte) (cmd : BitVec 16) (v : BarVisit) (c : ConfigSpace)
    {k : ℕ} (h1 : k ≠ 1) (h3 : k ≠ 3) (hv : k ≠ 4 + v.index) :
    (visitConfig latencyTimer cmd v c).reg k = c.reg k := by
  unfold visitConfig
  dsimp only
  split_ifs
  · rw [programBar_reg _ _ _ _ _ _ h3, writeCommand_reg _ _ h1, writeBar_reg _ _ hv,
      writeBar_reg _ _ hv]
  · rw [writeBar_reg _ _ hv]

/-- The register of a pass reads the address and type, or all ones. -/
theorem visitConfig_bar (latencyTimer : Byte) (cmd : BitVec 16) (v : BarVisit) (c : ConfigSpace) :
    (visitConfig latencyTimer cmd v c).reg (4 + v.index) =
      if v.base ≠ 0 then ((v.base ||| v.type) &&& c.writable (4 + v.index)) ||| c.wired (4 + v.index)
      else c.sizing (4 + v.index) := by
  unfold visitConfig
  dsimp only
  split_ifs
  · rw [programBar_reg _ _ _ _ _ _ (by omega), writeCommand_reg _ _ (by omega), pciWriteConfig32,
      pciBar_div, ConfigSpace.write_word, pciWriteConfig32, pciBar_div, ConfigSpace.wired_write,
      ConfigSpace.write_writable]
  · rw [pciWriteConfig32, pciBar_div, ConfigSpace.write_ones]

/-- A write of the command register, bit by bit. -/
theorem writeCommand_getLsbD (c : ConfigSpace) (val : BitVec 16) {b : ℕ} (hb : b < 16) :
    ((pciWriteConfig16 c regCommand val).reg 1).getLsbD b =
      if (c.writable 1).getLsbD b then val.getLsbD b else (c.reg 1).getLsbD b := by
  have hlanes : (0xffff : Word).getLsbD b = true := by
    have : ∀ b < 16, (0xffff : Word).getLsbD b = true := by decide
    exact this b hb
  have hval : (val.setWidth 32).getLsbD b = val.getLsbD b := by
    rw [BitVec.getLsbD_setWidth, decide_eq_true (by omega), Bool.true_and]
  show ((c.write 1 ((0xffff : Word) <<< 0) (val.setWidth 32 <<< 0)).reg 1).getLsbD b = _
  rw [BitVec.shiftLeft_zero, BitVec.shiftLeft_zero, ConfigSpace.write_reg, getLsbD_merge,
    BitVec.getLsbD_and, hlanes, Bool.true_and, hval]

/-- A pass that was served stores `cmd` and the bus master bit. -/
theorem visitConfig_served (latencyTimer : Byte) (cmd : BitVec 16) {v : BarVisit} (hv : v.base ≠ 0)
    (c : ConfigSpace) {j : ℕ} (hj : j < 16) :
    ((visitConfig latencyTimer cmd v c).reg 1).getLsbD j =
      if (c.writable 1).getLsbD j then (cmd ||| regCommandBm).getLsbD j
      else (c.reg 1).getLsbD j := by
  unfold visitConfig
  dsimp only
  rw [if_pos hv, programBar_reg _ _ _ _ _ _ (by omega), writeCommand_getLsbD _ _ hj,
    writeBar_reg _ _ (by omega), writeBar_reg _ _ (by omega)]
  rfl

/-- The command bit of a pass: that of `cmd` where an address was handed out and the
    bit is writable, else what it was. -/
theorem visitConfig_command (latencyTimer : Byte) (cmd : BitVec 16) (v : BarVisit)
    (c : ConfigSpace) {b : ℕ} (hb : b < 2) :
    ((visitConfig latencyTimer cmd v c).reg 1).getLsbD b =
      if v.base ≠ 0 ∧ (c.writable 1).getLsbD b = true then cmd.getLsbD b
      else (c.reg 1).getLsbD b := by
  have hbm : (cmd ||| regCommandBm).getLsbD b = cmd.getLsbD b := by
    have : ∀ b < 2, regCommandBm.getLsbD b = false := by decide
    rw [BitVec.getLsbD_or, this b hb, Bool.or_false]
  by_cases hbase : v.base ≠ 0
  · rw [visitConfig_served _ _ hbase _ (by omega), hbm]
    simp only [ne_eq, hbase, not_false_eq_true, true_and]
  · unfold visitConfig
    dsimp only
    rw [if_neg hbase, writeBar_reg _ _ (by omega), if_neg fun h => hbase h.1]

theorem program_wired (latencyTimer : Byte) (vs : List BarVisit) (cmd : BitVec 16)
    (c : ConfigSpace) (k : ℕ) :
    (program latencyTimer vs cmd c).writable = c.writable ∧
      (program latencyTimer vs cmd c).wired k = c.wired k := by
  induction vs generalizing cmd c with
  | nil => exact ⟨rfl, rfl⟩
  | cons v vs ih =>
    obtain ⟨h1, h2⟩ := visitConfig_wired latencyTimer (cmd ||| barCommand v.bar) v c k
    rw [program, (ih ..).1, (ih ..).2, h1, h2]
    exact ⟨rfl, rfl⟩

/-- A word that no pass is about, other than the command word and that of the latency
    timer, stays as it is. -/
theorem program_other (latencyTimer : Byte) (vs : List BarVisit) (cmd : BitVec 16)
    (c : ConfigSpace) {k : ℕ} (h1 : k ≠ 1) (h3 : k ≠ 3) (hvs : ∀ v ∈ vs, k ≠ 4 + v.index) :
    (program latencyTimer vs cmd c).reg k = c.reg k := by
  induction vs generalizing cmd c with
  | nil => rfl
  | cons v vs ih =>
    rw [program, ih _ _ fun u hu => hvs u (List.mem_cons_of_mem _ hu),
      visitConfig_other _ _ _ _ h1 h3 (hvs v List.mem_cons_self)]

/-- The passes are about registers further and further on. -/
abbrev InOrder (vs : List BarVisit) : Prop := vs.Pairwise fun u v => u.index < v.index

theorem program_bar {latencyTimer : Byte} {vs : List BarVisit} (hvs : InOrder vs) (cmd : BitVec 16)
    (c : ConfigSpace) {v : BarVisit} (hv : v ∈ vs) :
    (program latencyTimer vs cmd c).reg (4 + v.index) =
      if v.base ≠ 0 then ((v.base ||| v.type) &&& c.writable (4 + v.index)) ||| c.wired (4 + v.index)
      else c.sizing (4 + v.index) := by
  induction vs generalizing cmd c with
  | nil => exact absurd hv List.not_mem_nil
  | cons u vs ih =>
    rw [program]
    rcases List.mem_cons.mp hv with rfl | hv
    · rw [program_other _ _ _ _ (by omega) (by omega) fun w hw => ?_, visitConfig_bar]
      have := List.rel_of_pairwise_cons hvs hw
      omega
    · obtain ⟨hwritable, hwired⟩ :=
        visitConfig_wired latencyTimer (cmd ||| barCommand u.bar) u c (4 + v.index)
      rw [ih hvs.of_cons _ _ hv, hwired, hwritable, visitConfig_sizing]

theorem barCommand_getLsbD (bar : Word) (io : Bool) :
    (barCommand bar).getLsbD (commandBit io) = decide (barIsIo bar = io) := by
  unfold barCommand barIsIo
  by_cases h : bar &&& barSpaceIo ≠ 0
  · rw [if_pos h, decide_eq_true h]
    cases io <;> decide
  · rw [if_neg h, decide_eq_false h]
    cases io <;> decide

/-- **The command bit of a space** after the passes, where it can be written: set if a
    register of the space stands at or before one that was served, or if `cmd` had it
    set when one was served; where none was served, as it was. -/
theorem program_command {latencyTimer : Byte} {vs : List BarVisit} (hvs : InOrder vs)
    (cmd : BitVec 16) (c : ConfigSpace) (io : Bool)
    (hw : (c.writable 1).getLsbD (commandBit io) = true) :
    ((program latencyTimer vs cmd c).reg 1).getLsbD (commandBit io) = true ↔
      ((c.reg 1).getLsbD (commandBit io) = true ∧ ∀ v ∈ vs, v.base = 0) ∨
        ∃ v ∈ vs, v.base ≠ 0 ∧ (cmd.getLsbD (commandBit io) = true ∨
          ∃ u ∈ vs, u.index ≤ v.index ∧ barIsIo u.bar = io) := by
  induction vs generalizing cmd c with
  | nil => simp [program]
  | cons v vs ih =>
    have hlt : ∀ w ∈ vs, v.index < w.index := fun _ hw => List.rel_of_pairwise_cons hvs hw
    have hw' : ((visitConfig latencyTimer (cmd ||| barCommand v.bar) v c).writable 1).getLsbD
        (commandBit io) = true := by
      rw [(visitConfig_wired latencyTimer (cmd ||| barCommand v.bar) v c 1).1]
      exact hw
    have hcmd : (cmd ||| barCommand v.bar).getLsbD (commandBit io) = true ↔
        cmd.getLsbD (commandBit io) = true ∨ barIsIo v.bar = io := by
      rw [BitVec.getLsbD_or, barCommand_getLsbD, Bool.or_eq_true, decide_eq_true_eq]
    -- the registers at or before `v`, and at or before one behind it
    have hfirst : (∃ u ∈ v :: vs, u.index ≤ v.index ∧ barIsIo u.bar = io) ↔ barIsIo v.bar = io := by
      rw [List.exists_mem_cons_iff, and_iff_right le_rfl, or_iff_left]
      rintro ⟨u, hu, hle, -⟩
      have := hlt u hu
      omega
    have hbehind : ∀ w ∈ vs, (∃ u ∈ v :: vs, u.index ≤ w.index ∧ barIsIo u.bar = io) ↔
        barIsIo v.bar = io ∨ ∃ u ∈ vs, u.index ≤ w.index ∧ barIsIo u.bar = io := by
      intro w hw
      rw [List.exists_mem_cons_iff, and_iff_right (hlt w hw).le]
    have hrest : (∃ w ∈ vs, w.base ≠ 0 ∧ (cmd.getLsbD (commandBit io) = true ∨
          ∃ u ∈ v :: vs, u.index ≤ w.index ∧ barIsIo u.bar = io)) ↔
        ∃ w ∈ vs, w.base ≠ 0 ∧ ((cmd.getLsbD (commandBit io) = true ∨ barIsIo v.bar = io) ∨
          ∃ u ∈ vs, u.index ≤ w.index ∧ barIsIo u.bar = io) := by
      refine exists_congr fun w => and_congr_right fun hw => and_congr_right fun _ => ?_
      rw [hbehind w hw, or_assoc]
    rw [program, ih hvs.of_cons _ _ hw', visitConfig_command _ _ _ _ (commandBit_lt io), hcmd,
      List.forall_mem_cons, List.exists_mem_cons_iff, hfirst, hrest]
    by_cases hbase : v.base = 0
    · rw [if_neg fun h => h.1 hbase, and_iff_right hbase]
      simp only [hbase, ne_eq, not_true_eq_false, false_and, false_or]
    · rw [if_pos ⟨hbase, hw⟩, hcmd]
      by_cases hany : ∀ w ∈ vs, w.base = 0
      · have hnone : ∀ P : BarVisit → Prop, ¬ ∃ w ∈ vs, w.base ≠ 0 ∧ P w := by
          rintro P ⟨w, hw, hne, -⟩
          exact hne (hany w hw)
        have hbefore : ¬ ((c.reg 1).getLsbD (commandBit io) = true ∧
            v.base = 0 ∧ ∀ w ∈ vs, w.base = 0) := fun h => hbase h.2.1
        rw [or_iff_right hbefore, or_iff_left (hnone _), or_iff_left (hnone _), and_iff_left hany,
          and_iff_right hbase]
      · push Not at hany
        obtain ⟨w, hw, hne⟩ := hany
        constructor
        · rintro (⟨h, -⟩ | h)
          · exact Or.inr (Or.inl ⟨hbase, h⟩)
          · exact Or.inr (Or.inr h)
        · rintro (⟨-, h, -⟩ | ⟨-, h⟩ | h)
          · exact absurd h hbase
          · exact Or.inr ⟨w, hw, hne, Or.inl h⟩
          · exact Or.inr h

/-! ## The generic path -/

section Slot

variable {b : Board} {devfn : Word} (hslot : b = .amigaone → pciSlot devfn ≠ 7)

include hslot

theorem special_of_slot : b.special devfn = false := by
  unfold Board.special
  rw [decide_eq_false]
  exact fun h => hslot h.1 h.2.1

theorem usb_of_slot : b.usb devfn = false := by
  unfold Board.usb
  rw [decide_eq_false]
  exact fun h => hslot h.1 h.2.1

end Slot

/-! ## The implemented registers and their addresses -/

/-- Each register of the list is where it says, and reads what it says. -/
theorem implemented_mem {c : ConfigSpace} {i : ℕ} {p : ℕ × Word} (hp : p ∈ implemented c i) :
    i ≤ p.1 ∧ p.1 < 6 ∧ p.2 = c.sizing (4 + p.1) ∧ p.2 ≠ 0 := by
  induction i using bar_induction with
  | hend i hi =>
    rw [implemented_end hi] at hp
    exact absurd hp List.not_mem_nil
  | hstep i hi ih =>
    by_cases hbar : c.sizing (4 + i) = 0
    · rw [implemented_absent hi hbar] at hp
      obtain ⟨hle, h⟩ := ih (i + 1) (by omega) hp
      exact ⟨by omega, h⟩
    · rw [implemented_present hi hbar] at hp
      rcases List.mem_cons.mp hp with rfl | hp
      · exact ⟨le_rfl, hi, rfl, hbar⟩
      · obtain ⟨hle, h⟩ := ih _ (lt_nextIndex ..) hp
        exact ⟨(lt_nextIndex ..).le.trans hle, h⟩

theorem implemented_inOrder (c : ConfigSpace) (i : ℕ) :
    (implemented c i).Pairwise fun p q => p.1 < q.1 := by
  induction i using bar_induction with
  | hend i hi =>
    rw [implemented_end hi]
    exact List.Pairwise.nil
  | hstep i hi ih =>
    by_cases hbar : c.sizing (4 + i) = 0
    · rw [implemented_absent hi hbar]
      exact ih (i + 1) (by omega)
    · rw [implemented_present hi hbar]
      exact List.Pairwise.cons
        (fun q hq => lt_of_lt_of_le (lt_nextIndex ..) (implemented_mem hq).1) (ih _ (lt_nextIndex ..))

/-- The word behind a 64-bit register is no register of its own. -/
theorem implemented_upper {c : ConfigSpace} {i : ℕ} {p q : ℕ × Word} (hp : p ∈ implemented c i)
    (h64 : barType p.2 &&& barMemLimit64 ≠ 0) (hq : q ∈ implemented c i) : q.1 ≠ p.1 + 1 := by
  induction i using bar_induction with
  | hend i hi =>
    rw [implemented_end hi] at hp
    exact absurd hp List.not_mem_nil
  | hstep i hi ih =>
    by_cases hbar : c.sizing (4 + i) = 0
    · rw [implemented_absent hi hbar] at hp hq
      exact ih (i + 1) (by omega) hp hq
    · rw [implemented_present hi hbar] at hp hq
      have hlt := lt_nextIndex i (barType (c.sizing (4 + i)))
      rcases List.mem_cons.mp hp with rfl | hp <;> rcases List.mem_cons.mp hq with rfl | hq
      · show i ≠ i + 1
        omega
      · have hle := (implemented_mem hq).1
        rw [nextIndex, if_pos h64] at hle
        show q.1 ≠ i + 1
        omega
      · have hle := (implemented_mem hp).1
        show i ≠ p.1 + 1
        omega
      · exact ih _ hlt hp hq

/-- The calls are about the registers of the list. -/
theorem allocate_map (w : PciWindows) (ps : List (ℕ × Word)) :
    (allocate w ps).1.map (fun v => (v.index, v.bar)) = ps := by
  induction ps generalizing w with
  | nil => rfl
  | cons p ps ih =>
    obtain ⟨i, bar⟩ := p
    show (i, bar) :: (allocate _ ps).1.map _ = _
    rw [ih]

/-- An address that is handed out has no bit below the size. -/
theorem addrForBar_and_neg (w : PciWindows) (type size : Word) :
    (addrForBar w type size).1 &&& -size = (addrForBar w type size).1 := by
  have hround : ∀ n, roundUp n size &&& -size = roundUp n size := by
    intro n
    rw [roundUp, roundDown, BitVec.and_assoc, BitVec.and_self]
  unfold addrForBar
  dsimp only
  split_ifs
  · exact BitVec.zero_and
  · exact BitVec.zero_and
  · exact hround _
  · exact BitVec.zero_and
  · exact hround _

theorem neg_barSize (bar : Word) : -barSize bar = bar &&& ~~~barAttrMask bar := by
  show -(~~~(bar &&& ~~~barAttrMask bar) + 1#32) = _
  rw [← BitVec.neg_eq_not_add, BitVec.neg_neg]

theorem allocate_visit {w : PciWindows} {ps : List (ℕ × Word)} {v : BarVisit}
    (hv : v ∈ (allocate w ps).1) :
    v.type = barType v.bar ∧ v.base &&& (v.bar &&& ~~~barAttrMask v.bar) = v.base := by
  induction ps generalizing w with
  | nil => exact absurd hv List.not_mem_nil
  | cons p ps ih =>
    rcases List.mem_cons.mp hv with rfl | hv
    · refine ⟨rfl, ?_⟩
      rw [← neg_barSize]
      exact addrForBar_and_neg ..
    · exact ih hv

/-- What a register holds after address and type were written, if its address bits
    are writable or read zero. -/
theorem bar_programmed {bar attr base w k : Word} (hbar : bar = w ||| k) (hwired : k &&& ~~~attr = 0)
    (hbase : base &&& (bar &&& ~~~attr) = base) :
    ((base ||| (bar &&& attr)) &&& w) ||| k = base ||| (bar &&& attr) := by
  ext i hi
  have h1 : (k &&& ~~~attr)[i] = false := by rw [hwired]; exact BitVec.getElem_zero ..
  have h2 : (base &&& (bar &&& ~~~attr))[i] = base[i] := by rw [hbase]
  simp only [hbar, BitVec.getElem_and, BitVec.getElem_or, BitVec.getElem_not] at h1 h2 ⊢
  revert h1 h2
  cases base[i] <;> cases attr[i] <;> cases w[i] <;> cases k[i] <;> decide

end BBoot.Pci
