import BBoot.Pci.Program

/-!
# What `setup_pci_device` changes

The loop of `setup_pci_device` runs over six base address registers whatever the
header type of the device says. A PCI-to-PCI bridge has two; behind them are its
bus numbers and forwarding windows.

Results:
* `setup_function`: the registers of all other devices keep their values.
* `program_frame`, `beforeBars_frame`: the bytes no access is about.
* `setup_frame_iff`: nothing but the registers to be set up is changed exactly
  when what the loop leaves behind the device's own base address registers is
  what was there.
-/

namespace BBoot.Pci

/-! ## Model -/

/-- `REG_HEADER_TYPE` (`drivers/pci.h` line 48) without
    `HEADER_TYPE_MULTIFUNCTION`. -/
def regHeaderType : ℕ := 0x0e
def headerType (c : ConfigSpace) : Byte := pciReadConfig8 c regHeaderType &&& ~~~0x80

/-- The base address registers of a header type: `HEADER_TYPE_NORMAL`,
    `HEADER_TYPE_BRIDGE`, `HEADER_TYPE_CARDBUS` (lines 89–91) or none that is
    known. -/
def numBars (header : Byte) : ℕ :=
  if header = 0 then 6 else if header = 1 then 2 else if header = 2 then 1 else 0

/-- The bytes to be set up: the command register, cache line size, latency timer,
    interrupt line and `n` base address registers. -/
def SetupRegister (n r : ℕ) : Prop :=
  (regCommand ≤ r ∧ r < regCommand + 2) ∨ r = regCacheLineSize ∨ r = regLatencyTimer ∨
    r = regInterruptLine ∨ (pciBar 0 ≤ r ∧ r < pciBar n)

/-- From one state of the bus to another only such bytes of the device `p` change. -/
def SetupFrame (br br' : HostBridge) (p : PciAddress) : Prop :=
  ∀ q r, br'.array q r ≠ br.array q r →
    q = p ∧ SetupRegister (numBars (headerType (br.function p))) r

/-- The bus after `setup_pci_device` was called for the device `p`. -/
def setupOnBus (b : Board) (w : PciWindows) (p : PciAddress) (br : HostBridge) : HostBridge :=
  ((setupProg b (pciDev p) w).run (HostBridge.accessOf p) br).2

/-- What a pass leaves in its register: address and type, as far as they can be
    written, or what the register reads after all ones were written. -/
def leftBar (c : ConfigSpace) (v : BarVisit) : Word :=
  if v.base ≠ 0 then ((v.base ||| v.type) &&& c.writable (4 + v.index)) ||| c.wired (4 + v.index)
  else c.sizing (4 + v.index)

/-! ## Bytes that are not accessed -/

theorem writeConfig8_other (c : ConfigSpace) {reg r : ℕ} (val : Byte) (h : r ≠ reg) :
    pciReadConfig8 (pciWriteConfig8 c reg val) r = pciReadConfig8 c r := by
  rw [pciWriteConfig8_lanes]
  apply readConfig8_writeLanes_other
  · omega
  · omega

theorem writeConfig16_other (c : ConfigSpace) {reg r : ℕ} (heven : 2 ∣ reg) (val : BitVec 16)
    (h : ¬ (reg ≤ r ∧ r < reg + 2)) :
    pciReadConfig8 (pciWriteConfig16 c reg val) r = pciReadConfig8 c r := by
  rw [pciWriteConfig16_lanes c heven]
  exact readConfig8_writeLanes_other c (by omega) _ h

theorem writeBar_other (c : ConfigSpace) {i r : ℕ} (val : Word) (h : r / 4 ≠ 4 + i) :
    pciReadConfig8 (pciWriteConfig32 c (pciBar i) val) r = pciReadConfig8 c r := by
  rw [pciReadConfig8, writeBar_reg _ _ h]
  rfl

theorem beforeBars_frame {b : Board} {devfn : Word} (husb : b.usb devfn = false) (c : ConfigSpace)
    {r : ℕ} (hcommand : ¬ (regCommand ≤ r ∧ r < regCommand + 2)) (hline : r ≠ regInterruptLine) :
    pciReadConfig8 (beforeBars b devfn c) r = pciReadConfig8 c r := by
  unfold beforeBars setInterruptLine
  rw [husb]
  simp only [Bool.false_eq_true, if_false]
  split_ifs <;> simp only [writeConfig8_other _ _ hline, writeConfig16_other c (by decide : 2 ∣ regCommand) _ hcommand]

/-- A pass writes its register, the command register and two bytes of word 3. -/
theorem visitConfig_frame (latencyTimer : Byte) (cmd : BitVec 16) (v : BarVisit) (c : ConfigSpace)
    {r : ℕ} (hcommand : ¬ (regCommand ≤ r ∧ r < regCommand + 2)) (hcache : r ≠ regCacheLineSize)
    (htimer : r ≠ regLatencyTimer) (hbar : r / 4 ≠ 4 + v.index) :
    pciReadConfig8 (visitConfig latencyTimer cmd v c) r = pciReadConfig8 c r := by
  unfold visitConfig programBar
  dsimp only
  split_ifs
  · rw [writeConfig8_other _ _ htimer, writeConfig8_other _ _ hcache,
      writeConfig16_other _ (by decide) _ hcommand, writeBar_other _ _ hbar, writeBar_other _ _ hbar]
  · rw [writeBar_other _ _ hbar]

theorem program_frame (latencyTimer : Byte) (vs : List BarVisit) (cmd : BitVec 16) (c : ConfigSpace)
    {r : ℕ} (hcommand : ¬ (regCommand ≤ r ∧ r < regCommand + 2)) (hcache : r ≠ regCacheLineSize)
    (htimer : r ≠ regLatencyTimer) (hbars : ∀ v ∈ vs, r / 4 ≠ 4 + v.index) :
    pciReadConfig8 (program latencyTimer vs cmd c) r = pciReadConfig8 c r := by
  induction vs generalizing cmd c with
  | nil => rfl
  | cons v vs ih =>
    obtain ⟨hbar, hbars⟩ := List.forall_mem_cons.mp hbars
    rw [program, ih _ _ hbars, visitConfig_frame _ _ _ _ hcommand hcache htimer hbar]

/-- A word is its four bytes. -/
theorem reg_eq_of_bytes {c c' : ConfigSpace} {k : ℕ}
    (h : ∀ lane < 4, pciReadConfig8 c (4 * k + lane) = pciReadConfig8 c' (4 * k + lane)) :
    c.reg k = c'.reg k := by
  have hreg : ∀ c : ConfigSpace, c.reg k = leWord (configBytes c (4 * k) 4) := by
    intro c
    rw [← readConfig32_bytes c (Nat.dvd_mul_right 4 k), pciReadConfig32,
      Nat.mul_div_cancel_left k (by norm_num)]
  rw [hreg c, hreg c']
  unfold configBytes
  congr 1
  apply List.map_congr_left
  intro lane hlane
  exact h lane (List.mem_range.mp hlane)

/-! ## The device on its bus -/

section Setup

variable {b : Board} {p : PciAddress} (hslot : b = .amigaone → pciSlot (pciDev p) ≠ 7)

include hslot

/-- **Other devices keep their registers**; the device has those that
    `setup_pci_device` leaves. -/
theorem setup_function (w : PciWindows) (br : HostBridge) (q : PciAddress) :
    (setupOnBus b w p br).function q =
      if q = p then (setupPciDevice b 0 (pciDev p) ⟨w, br.function p, [], []⟩).config
      else br.function q := by
  have hrun := setupProg_run (special_of_slot hslot) (usb_of_slot hslot) 0
    ⟨w, br.function p, [], []⟩
  rw [setupOnBus, (ConfigProg.run_function (setupProg_aligned b (pciDev p) w) br p).2 q, hrun]

variable {w : PciWindows} {br : HostBridge}
  (hpresent : b.present (pciReadConfig32 (br.function p) regVendorId) = true)

include hpresent

/-- The registers of the device are those of the passes. -/
theorem setup_config :
    (setupOnBus b w p br).function p =
      program (latencyTimer b (pciDev p)) (answers ⟨w, br.function p, [], []⟩)
        (commandOff (br.function p)) (beforeBars b (pciDev p) (br.function p)) := by
  have heq := setupPciDevice_eq (d := ⟨w, br.function p, [], []⟩) 0 hpresent (special_of_slot hslot)
  rw [setup_function hslot, if_pos rfl, heq]

/-- Each register that was taken for a base address register. -/
theorem setup_bar {v : BarVisit} (hv : v ∈ answers ⟨w, br.function p, [], []⟩) :
    ((setupOnBus b w p br).function p).reg (4 + v.index) = leftBar (br.function p) v := by
  obtain ⟨hsame, -⟩ := beforeBars_spec b (pciDev p) (br.function p)
  rw [setup_config hslot hpresent, program_bar (answers_inOrder _) _ _ hv, hsame.sizing, hsame.wired,
    hsame.writable]
  rfl

/-- **The frame of `setup_pci_device`.** For every population of the bus and every
    device on the generic path (amigaone: any slot but 7), whatever its header
    type, only the command register, cache line size, latency timer, interrupt
    line and base address registers of that device change, if and only if every
    register behind its own base address registers that the loop takes for one is
    left with what it held. -/
theorem setup_frame_iff :
    SetupFrame br (setupOnBus b w p br) p ↔
      ∀ v ∈ answers ⟨w, br.function p, [], []⟩, numBars (headerType (br.function p)) ≤ v.index →
        leftBar (br.function p) v = (br.function p).reg (4 + v.index) := by
  have hindex : ∀ v ∈ answers ⟨w, br.function p, [], []⟩, v.index < 6 := fun v hv =>
    (implemented_mem (mem_answers hv)).2.1
  constructor
  · intro hframe v hv hbehind
    rw [← setup_bar hslot hpresent hv]
    apply reg_eq_of_bytes
    intro lane hlane
    by_contra hne
    have hlt := hindex v hv
    obtain ⟨-, hreg⟩ := hframe p (4 * (4 + v.index) + lane) hne
    unfold SetupRegister regCommand regCacheLineSize regLatencyTimer regInterruptLine pciBar at hreg
    omega
  · intro hleft q r hne
    have hq : q = p := by
      by_contra hq
      apply hne
      unfold HostBridge.array
      rw [setup_function hslot, if_neg hq]
    subst hq
    refine ⟨rfl, ?_⟩
    by_contra hout
    apply hne
    unfold SetupRegister at hout
    push Not at hout
    obtain ⟨hcommand, hcache, htimer, hline, hbars⟩ := hout
    have hcommand' : ¬ (regCommand ≤ r ∧ r < regCommand + 2) := fun h =>
      absurd (hcommand h.1) (not_le.mpr h.2)
    by_cases hbar : ∃ v ∈ answers ⟨w, br.function q, [], []⟩, r / 4 = 4 + v.index
    · obtain ⟨v, hv, hr⟩ := hbar
      have hword := setup_bar hslot hpresent hv
      rw [hleft v hv ?_, ← hr] at hword
      · unfold HostBridge.array pciReadConfig8
        rw [hword]
      · unfold pciBar at hbars
        by_contra hlt
        omega
    · push Not at hbar
      unfold HostBridge.array
      rw [setup_config hslot hpresent, program_frame _ _ _ _ hcommand' hcache htimer hbar,
        beforeBars_frame (usb_of_slot hslot) _ hcommand' hline]

end Setup

/-- A PCI-to-PCI bridge without base address registers: bus 0 in front of it, bus
    1 behind it and bus 2 the last one below it. -/
def bridgeFunction : ConfigSpace where
  reg k :=
    match k with
    | 0 => 0x12341234
    | 3 => 0x00010000
    | 6 => 0x00020100
    | _ => 0
  writable k :=
    match k with
    | 1 => 0xffff
    | 3 => 0xffff
    | 6 => 0x00ffffff
    | 15 => 0xff
    | _ => 0

/-- The ports of the sam460 with the same registers in all functions. -/
def sam460Bridge (c : ConfigSpace) : HostBridge where
  confAddr := 0xdec00000
  dataAddr := 0xdec00004
  apart := by decide
  latch := 0
  functions _ := c

theorem answers_bridge :
    answers ⟨sam460SetupPciParams, bridgeFunction, [], []⟩ =
      [⟨2, 0x00ffffff, 3, 0xff000004, 0⟩] := by
  have himpl : implemented bridgeFunction 0 = [(2, 0x00ffffff)] := by
    rw [implemented_absent (by decide) (by decide), implemented_absent (by decide) (by decide),
      implemented_present (by decide) (by decide),
      show nextIndex 2 (barType (bridgeFunction.sizing (4 + 2))) = 3 by decide,
      implemented_absent (by decide) (by decide), implemented_absent (by decide) (by decide),
      implemented_absent (by decide) (by decide), implemented_end (by decide)]
    decide
  rw [answers]
  show (allocate sam460SetupPciParams (implemented bridgeFunction 0)).1 = _
  rw [himpl]
  decide

/-- The bus numbers of the bridge are taken for a base address register and are
    all ones afterwards. -/
theorem bridge_renumbered :
    headerType bridgeFunction = 1 ∧
      (sam460Bridge bridgeFunction).array ⟨0, 2, 0⟩ 0x19 = 1 ∧
      (setupOnBus .sam460 sam460SetupPciParams ⟨0, 2, 0⟩ (sam460Bridge bridgeFunction)).array
        ⟨0, 2, 0⟩ 0x19 = 0xff ∧
      ¬ SetupFrame (sam460Bridge bridgeFunction)
        (setupOnBus .sam460 sam460SetupPciParams ⟨0, 2, 0⟩ (sam460Bridge bridgeFunction))
        ⟨0, 2, 0⟩ := by
  have hslot : Board.sam460 = .amigaone → pciSlot (pciDev ⟨0, 2, 0⟩) ≠ 7 := by decide
  have hpresent : Board.sam460.present (pciReadConfig32
      ((sam460Bridge bridgeFunction).function ⟨0, 2, 0⟩) regVendorId) = true := by decide
  have hmem : (⟨2, 0x00ffffff, 3, 0xff000004, 0⟩ : BarVisit) ∈
      answers ⟨sam460SetupPciParams, (sam460Bridge bridgeFunction).function ⟨0, 2, 0⟩, [], []⟩ := by
    show _ ∈ answers ⟨sam460SetupPciParams, bridgeFunction, [], []⟩
    rw [answers_bridge]
    exact List.mem_cons_self
  have hleft := setup_bar hslot hpresent hmem
  have hbefore : (sam460Bridge bridgeFunction).array ⟨0, 2, 0⟩ 0x19 = 1 := by decide
  have hafter : (setupOnBus .sam460 sam460SetupPciParams ⟨0, 2, 0⟩
      (sam460Bridge bridgeFunction)).array ⟨0, 2, 0⟩ 0x19 = 0xff := by
    unfold HostBridge.array pciReadConfig8
    rw [show 0x19 / 4 = 4 + 2 from rfl]
    exact (congrArg (fun x : Word => (x >>> (8 * (0x19 % 4))).setWidth 8) hleft).trans (by decide)
  refine ⟨by decide, hbefore, hafter, fun hframe => ?_⟩
  have hne : (setupOnBus .sam460 sam460SetupPciParams ⟨0, 2, 0⟩ (sam460Bridge bridgeFunction)).array
      ⟨0, 2, 0⟩ 0x19 ≠ (sam460Bridge bridgeFunction).array ⟨0, 2, 0⟩ 0x19 := by
    rw [hafter, hbefore]
    decide
  obtain ⟨-, hreg⟩ := hframe _ _ hne
  have htwo : numBars (headerType ((sam460Bridge bridgeFunction).function ⟨0, 2, 0⟩)) = 2 := by decide
  rw [htwo] at hreg
  unfold SetupRegister regCommand regCacheLineSize regLatencyTimer regInterruptLine pciBar at hreg
  omega

/-- A device of header type 0 has no register behind its base address registers. -/
theorem twoBars_framed :
    SetupFrame (sam460Bridge (twoBars 0xfff00000 0xfffff000))
      (setupOnBus .sam460 sam460SetupPciParams ⟨0, 2, 0⟩
        (sam460Bridge (twoBars 0xfff00000 0xfffff000))) ⟨0, 2, 0⟩ := by
  have hslot : Board.sam460 = .amigaone → pciSlot (pciDev ⟨0, 2, 0⟩) ≠ 7 := by decide
  have hpresent : Board.sam460.present (pciReadConfig32
      ((sam460Bridge (twoBars 0xfff00000 0xfffff000)).function ⟨0, 2, 0⟩) regVendorId) = true := by
    decide
  refine (setup_frame_iff hslot hpresent).mpr fun v hv hbehind => ?_
  have hlt := (implemented_mem (mem_answers hv)).2.1
  have hsix : numBars (headerType
      ((sam460Bridge (twoBars 0xfff00000 0xfffff000)).function ⟨0, 2, 0⟩)) = 6 := by decide
  omega

end BBoot.Pci
