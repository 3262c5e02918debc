import BBoot.Pci.Devices

/-!
# What a PCI device is left decoding on amigaone and sam460

Before the loop over the base address registers `setup_pci_device` turns decoding
off. The loop adds the enable bit of a register to `cmd` when it meets the register
and stores `cmd` with each register that was handed an address, so a register that
was not still gets its space enabled by a later one.

Results:
* `setupPciDevice_eq`: the generic path as the calls of `addr_for_bar` for the
  implemented registers and what is written for each.
* `setupPciDevice_decoding`: which spaces are left enabled.
* `setupPciDevice_decodes_iff`: whether a device is left decoding an address that
  was not handed out to it.
-/

namespace BBoot.Pci

/-! ## Before the loop -/

theorem pciWriteConfig8_reg (c : ConfigSpace) {reg k : ℕ} (val : Byte) (h : k ≠ reg / 4) :
    (pciWriteConfig8 c reg val).reg k = c.reg k :=
  ConfigSpace.write_reg_ne _ _ _ h

/-- A byte access to lanes 1 to 3 leaves the low byte of its word. -/
theorem pciWriteConfig8_low (c : ConfigSpace) {reg : ℕ} (val : Byte) (hreg : 0 < reg % 4) (k : ℕ)
    {b : ℕ} (hb : b < 8) :
    ((pciWriteConfig8 c reg val).reg k).getLsbD b = (c.reg k).getLsbD b := by
  by_cases hk : k = reg / 4
  · subst hk
    have hlane : ((0xff : Word) <<< (8 * (reg % 4))).getLsbD b = false := by
      rw [BitVec.getLsbD_shiftLeft, decide_eq_true (show b < 8 * (reg % 4) by omega), Bool.not_true,
        Bool.and_false, Bool.false_and]
    rw [pciWriteConfig8, ConfigSpace.write_reg, getLsbD_merge, BitVec.getLsbD_and, hlane,
      Bool.false_and, if_neg Bool.false_ne_true]
  · rw [pciWriteConfig8_reg _ _ hk]

/-- The registers of a function as they were, but for the bits that can be written. -/
structure SameFunction (c c' : ConfigSpace) : Prop where
  writable : c'.writable = c.writable
  wired : ∀ k, c'.wired k = c.wired k
  bars : ∀ k, 4 ≤ k → k < 10 → c'.reg k = c.reg k

theorem SameFunction.sizing {c c' : ConfigSpace} (h : SameFunction c c') (k : ℕ) :
    c'.sizing k = c.sizing k := by
  rw [ConfigSpace.sizing, h.writable, h.wired, ConfigSpace.sizing]

theorem SameFunction.trans {c c' c'' : ConfigSpace} (h : SameFunction c c')
    (h' : SameFunction c' c'') : SameFunction c c'' where
  writable := h'.writable.trans h.writable
  wired k := (h'.wired k).trans (h.wired k)
  bars k hk hk' := (h'.bars k hk hk').trans (h.bars k hk hk')

theorem sameFunction_write (c : ConfigSpace) {k : ℕ} (lanes v : Word) (hk : k < 4 ∨ 10 ≤ k) :
    SameFunction c (c.write k lanes v) where
  writable := rfl
  wired _ := ConfigSpace.wired_write ..
  bars _ h h' := ConfigSpace.write_reg_ne _ _ _ (by omega)

/-- The accesses of `setup_usb` are to bytes above the low one of words 1 and 16. -/
theorem setupUsb_spec (c : ConfigSpace) : SameFunction c (setupUsb c) ∧
    ∀ b < 2, ((setupUsb c).reg 1).getLsbD b = (c.reg 1).getLsbD b := by
  unfold setupUsb
  dsimp only
  constructor
  · exact ((sameFunction_write _ _ _ (Or.inl (by decide))).trans
      (sameFunction_write _ _ _ (Or.inl (by decide)))).trans
      ((sameFunction_write _ _ _ (Or.inr (by decide))).trans
        (sameFunction_write _ _ _ (Or.inr (by decide))))
  · intro b hb
    rw [pciWriteConfig8_reg _ _ (by decide), pciWriteConfig8_reg _ _ (by decide),
      pciWriteConfig8_low _ _ (by decide) _ (by omega),
      pciWriteConfig8_low _ _ (by decide) _ (by omega)]

theorem setInterruptLine_spec (irq : Byte) (c : ConfigSpace) :
    SameFunction c (setInterruptLine irq c) ∧ (setInterruptLine irq c).reg 1 = c.reg 1 := by
  unfold setInterruptLine
  split_ifs
  · exact ⟨sameFunction_write _ _ _ (Or.inr (by decide)), pciWriteConfig8_reg _ _ (by decide)⟩
  · exact ⟨⟨rfl, fun _ => rfl, fun _ _ _ => rfl⟩, rfl⟩

theorem commandOff_getLsbD (c : ConfigSpace) {b : ℕ} (hb : b < 2) :
    (commandOff c).getLsbD b = false := by
  have hmask : ∀ b < 2, (~~~(regCommandBm ||| regCommandMem ||| regCommandIo)).getLsbD b = false := by
    decide
  rw [commandOff, BitVec.getLsbD_and, hmask b hb, Bool.and_false]

/-- **Before the loop** decoding is off where it can be turned off, and the base address
    registers have not been touched. -/
theorem beforeBars_spec (b : Board) (devfn : Word) (c : ConfigSpace) :
    SameFunction c (beforeBars b devfn c) ∧
      ∀ j < 2, ((beforeBars b devfn c).reg 1).getLsbD j =
        if (c.writable 1).getLsbD j then false else (c.reg 1).getLsbD j := by
  let off := pciWriteConfig16 c regCommand (commandOff c)
  have hoff : ∀ j < 2, (off.reg 1).getLsbD j =
      if (c.writable 1).getLsbD j then false else (c.reg 1).getLsbD j := by
    intro j hj
    rw [writeCommand_getLsbD _ _ (by omega), commandOff_getLsbD _ hj]
  have husb : SameFunction c (if b.usb devfn then setupUsb off else off) ∧
      ∀ j < 2, ((if b.usb devfn then setupUsb off else off).reg 1).getLsbD j =
        (off.reg 1).getLsbD j := by
    have hfirst : SameFunction c off := sameFunction_write _ _ _ (Or.inl (by decide))
    split_ifs
    · exact ⟨hfirst.trans (setupUsb_spec off).1, (setupUsb_spec off).2⟩
    · exact ⟨hfirst, fun _ _ => rfl⟩
  unfold beforeBars
  dsimp only
  refine ⟨husb.1.trans (setInterruptLine_spec _ _).1, fun j hj => ?_⟩
  rw [(setInterruptLine_spec _ _).2, husb.2 j hj, hoff j hj]

/-! ## What a device decodes -/

/-- Decoding of a space is enabled in the command register. -/
def Decoding (io : Bool) (c : ConfigSpace) : Prop :=
  (pciReadConfig16 c regCommand).getLsbD (commandBit io) = true

/-- A base address register holds the address that was handed out for it; the upper
    half of a 64-bit one is zero. -/
structure Granted (c : ConfigSpace) (v : BarVisit) : Prop where
  base : v.base ≠ 0
  reg : c.reg (4 + v.index) = v.base ||| v.type
  upper : v.type &&& barMemLimit64 ≠ 0 → v.index < 5 → c.reg (5 + v.index) = 0

/-- What `d`, left by `setup_pci_device`, decodes: with a space enabled, every register
    of that space among `bars` was granted its address, and none that could not be
    fitted reads as it does after all ones were written. -/
structure DecodesGranted (d : Dev) (bars : List (ℕ × Word)) : Prop where
  granted : ∀ io, Decoding io d.config → ∀ p ∈ bars, barIsIo p.2 = io →
    ∃ v ∈ d.visits, (v.index, v.bar) = p ∧ Granted d.config v
  notSizing : ∀ v ∈ d.visits, v.base = 0 → Decoding (barIsIo v.bar) d.config →
    d.config.reg (4 + v.index) ≠ v.bar

/-- The address bits of the implemented registers that cannot be written read zero. -/
def StandardBars (c : ConfigSpace) : Prop :=
  ∀ p ∈ implemented c 0, c.wired (4 + p.1) &&& ~~~barAttrMask p.2 = 0

/-- What `addr_for_bar` answers for the registers of a function. -/
def answers (d : Dev) : List BarVisit := (allocate d.windows (implemented d.config 0)).1

/-- The loop leaves decoding of a space enabled: a register of the space stands at or
    before one that is served, or the enable bit is wired. -/
def TurnedOn (d : Dev) (io : Bool) : Prop :=
  if (d.config.writable 1).getLsbD (commandBit io) then
    ∃ v ∈ answers d, v.base ≠ 0 ∧ ∃ u ∈ answers d, u.index ≤ v.index ∧ barIsIo u.bar = io
  else (d.config.reg 1).getLsbD (commandBit io) = true

theorem answers_inOrder (d : Dev) : InOrder (answers d) := by
  have h := implemented_inOrder d.config 0
  rw [← allocate_map d.windows (implemented d.config 0), List.pairwise_map] at h
  exact h

theorem mem_answers {d : Dev} {v : BarVisit} (hv : v ∈ answers d) :
    (v.index, v.bar) ∈ implemented d.config 0 := by
  rw [← allocate_map d.windows (implemented d.config 0)]
  exact List.mem_map.mpr ⟨v, hv, rfl⟩

theorem readCommand_getLsbD (c : ConfigSpace) {j : ℕ} (hj : j < 16) :
    (pciReadConfig16 c regCommand).getLsbD j = (c.reg 1).getLsbD j := by
  show ((c.reg 1 >>> 0).setWidth 16).getLsbD j = _
  rw [BitVec.ushiftRight_zero, BitVec.getLsbD_setWidth, decide_eq_true hj, Bool.true_and]

theorem decoding_iff (io : Bool) (c : ConfigSpace) :
    Decoding io c ↔ (c.reg 1).getLsbD (commandBit io) = true := by
  have hlt := commandBit_lt io
  rw [Decoding, readCommand_getLsbD c (by omega)]

section generic

variable {b : Board} {devfn : Word} {d : Dev} (port : Byte)
  (hpresent : b.present (pciReadConfig32 d.config regVendorId) = true)
  (hspecial : b.special devfn = false)

include hpresent hspecial

/-- The generic path: what is set up before the loop, then the loop. -/
theorem setupPciDevice_eq :
    setupPciDevice b port devfn d =
      { d with
        windows := (allocate d.windows (implemented d.config 0)).2
        config := program (latencyTimer b devfn) (answers d) (commandOff d.config)
          (beforeBars b devfn d.config)
        visits := d.visits ++ answers d } := by
  have hsame : implemented (beforeBars b devfn d.config) 0 = implemented d.config 0 :=
    implemented_congr (fun k => (beforeBars_spec b devfn d.config).1.sizing k) 0
  unfold setupPciDevice
  rw [if_neg (by rw [hpresent]; decide), hspecial, if_neg Bool.false_ne_true, barLoop_eq]
  dsimp only
  rw [hsame]
  rfl

/-- Decoding is left enabled as `TurnedOn` says. -/
theorem setupPciDevice_decoding (io : Bool) :
    Decoding io (setupPciDevice b port devfn d).config ↔ TurnedOn d io := by
  obtain ⟨hsame, hcommand⟩ := beforeBars_spec b devfn d.config
  have hstart := hcommand _ (commandBit_lt io)
  rw [decoding_iff, setupPciDevice_eq port hpresent hspecial, TurnedOn]
  dsimp only
  by_cases hw : (d.config.writable 1).getLsbD (commandBit io) = true
  · rw [program_command (answers_inOrder d) _ _ io (by rw [hsame.writable]; exact hw), if_pos hw,
      commandOff_getLsbD _ (commandBit_lt io), hstart, if_pos hw]
    simp only [Bool.false_eq_true, false_and, false_or]
  · -- a bit that is not writable is wired
    have hwired : ∀ c : ConfigSpace, (c.writable 1).getLsbD (commandBit io) = false →
        (c.wired 1).getLsbD (commandBit io) = (c.reg 1).getLsbD (commandBit io) := by
      intro c hc
      have := commandBit_lt io
      rw [ConfigSpace.wired, BitVec.getLsbD_and, BitVec.getLsbD_not, hc,
        decide_eq_true (by omega), Bool.not_false, Bool.and_true, Bool.and_true]
    obtain ⟨hprogw, hprog⟩ := program_wired (latencyTimer b devfn) (answers d)
      (commandOff d.config) (beforeBars b devfn d.config) 1
    have hfalse := Bool.eq_false_iff.mpr hw
    rw [if_neg hw, ← hwired d.config hfalse, ← hsame.wired 1, ← hprog, hwired]
    rw [hprogw, hsame.writable]
    exact hfalse

/-- Each register asked for holds its address, or reads as it was sized. -/
theorem setupPciDevice_bar (hbars : StandardBars d.config) {v : BarVisit} (hv : v ∈ answers d) :
    (setupPciDevice b port devfn d).config.reg (4 + v.index) =
      if v.base ≠ 0 then v.base ||| v.type else v.bar := by
  obtain ⟨hsame, -⟩ := beforeBars_spec b devfn d.config
  obtain ⟨-, -, hbar, -⟩ := implemented_mem (mem_answers hv)
  obtain ⟨htype, hbase⟩ := allocate_visit hv
  rw [setupPciDevice_eq port hpresent hspecial]
  dsimp only
  rw [program_bar (answers_inOrder d) _ _ hv, hsame.sizing, hsame.wired, hsame.writable, ← hbar,
    htype, barType, bar_programmed hbar (hbars _ (mem_answers hv)) hbase]

/-- The upper half of a 64-bit register is not written. -/
theorem setupPciDevice_upper {v : BarVisit} (hv : v ∈ answers d)
    (h64 : v.type &&& barMemLimit64 ≠ 0) (hlt : v.index < 5) :
    (setupPciDevice b port devfn d).config.reg (5 + v.index) = d.config.reg (5 + v.index) := by
  obtain ⟨hsame, -⟩ := beforeBars_spec b devfn d.config
  rw [(allocate_visit hv).1] at h64
  rw [setupPciDevice_eq port hpresent hspecial]
  dsimp only
  rw [program_other _ _ _ _ (by omega) (by omega) fun u hu => ?_, hsame.bars _ (by omega) (by omega)]
  have hne := implemented_upper (mem_answers hv) h64 (mem_answers hu)
  dsimp only at hne
  omega

/-- **What a device is left decoding.** After the generic path a device decodes only
    what was handed out to it if and only if, for each space that is turned on, every
    register of that space is served and the upper halves of the 64-bit ones were
    zero. -/
theorem setupPciDevice_decodes_iff (hbars : StandardBars d.config) (hvisits : d.visits = []) :
    DecodesGranted (setupPciDevice b port devfn d) (implemented d.config 0) ↔
      ∀ io, TurnedOn d io → ∀ v ∈ answers d, barIsIo v.bar = io →
        v.base ≠ 0 ∧
          (v.type &&& barMemLimit64 ≠ 0 → v.index < 5 → d.config.reg (5 + v.index) = 0) := by
  have hdecoding := setupPciDevice_decoding port hpresent hspecial
  have hmem : (setupPciDevice b port devfn d).visits = answers d := by
    rw [setupPciDevice_eq port hpresent hspecial, hvisits]
    rfl
  constructor
  · intro h io hon v hv hio
    obtain ⟨u, hu, heq, hgranted⟩ :=
      h.granted io ((hdecoding io).mpr hon) _ (mem_answers hv) hio
    rw [hmem] at hu
    have hnodup : ((answers d).map fun v => (v.index, v.bar)).Nodup := by
      rw [answers, allocate_map]
      refine (implemented_inOrder d.config 0).imp fun hlt heq => ?_
      rw [heq] at hlt
      exact lt_irrefl _ hlt
    obtain rfl : u = v := List.inj_on_of_nodup_map hnodup hu hv heq
    refine ⟨hgranted.base, fun h64 hlt => ?_⟩
    rw [← setupPciDevice_upper port hpresent hspecial hv h64 hlt]
    exact hgranted.upper h64 hlt
  · intro h
    constructor
    · intro io hon p hp hio
      rw [← allocate_map d.windows (implemented d.config 0)] at hp
      obtain ⟨v, hv, rfl⟩ := List.mem_map.mp hp
      obtain ⟨hbase, hupper⟩ := h io ((hdecoding io).mp hon) v hv hio
      refine ⟨v, by rw [hmem]; exact hv, rfl, hbase, ?_, fun h64 hlt => ?_⟩
      · rw [setupPciDevice_bar port hpresent hspecial hbars hv, if_pos hbase]
      · rw [setupPciDevice_upper port hpresent hspecial hv h64 hlt]
        exact hupper h64 hlt
    · intro v hv hbase hon
      rw [hmem] at hv
      exact absurd hbase (h _ ((hdecoding _).mp hon) v hv rfl).1

end generic

/-- A function with two memory registers, sized by the bits of each that can be
    written. -/
def twoBars (first second : Word) : ConfigSpace where
  reg k := if k = 0 then 0x12341234 else 0
  writable k :=
    match k with
    | 1 => 0xffff
    | 3 => 0xffff
    | 4 => first
    | 5 => second
    | 15 => 0xff
    | _ => 0

theorem implemented_twoBars {first second : Word} (h1 : first ≠ 0) (h2 : second ≠ 0)
    (t1 : barType first &&& barMemLimit64 = 0) (t2 : barType second &&& barMemLimit64 = 0) :
    implemented (twoBars first second) 0 = [(0, first), (1, second)] := by
  have hsizing : ∀ k ≠ 0, (twoBars first second).sizing k = (twoBars first second).writable k := by
    intro k hk
    show _ ||| ((if k = 0 then 0x12341234 else 0) &&& _) = _
    rw [if_neg hk, show ((0 : Word) &&& _) = 0 from BitVec.zero_and]
    exact BitVec.or_zero
  have hfirst : (twoBars first second).sizing 4 = first := hsizing 4 (by decide)
  have hsecond : (twoBars first second).sizing 5 = second := hsizing 5 (by decide)
  have hnext : nextIndex 0 (barType first) = 1 := by rw [nextIndex, if_neg (by rw [t1]; decide)]
  have hnext' : nextIndex 1 (barType second) = 2 := by rw [nextIndex, if_neg (by rw [t2]; decide)]
  rw [implemented_present (by decide) (by rw [hfirst]; exact h1), hfirst, hnext,
    implemented_present (by decide) (by rw [hsecond]; exact h2), hsecond, hnext',
    implemented_absent (by decide) (hsizing 6 (by decide)),
    implemented_absent (by decide) (hsizing 7 (by decide)),
    implemented_absent (by decide) (hsizing 8 (by decide)),
    implemented_absent (by decide) (hsizing 9 (by decide)), implemented_end (by decide)]

theorem standardBars_twoBars (first second : Word) : StandardBars (twoBars first second) := by
  intro p _
  have hreg : (twoBars first second).reg (4 + p.1) = 0 := if_neg (by omega)
  rw [ConfigSpace.wired, hreg, show ((0 : Word) &&& _) = 0 from BitVec.zero_and]
  exact BitVec.zero_and

/-- Such a function on the sam460, before anything was handed out. -/
def sam460TwoBars (first second : Word) : Dev :=
  ⟨sam460SetupPciParams, twoBars first second, [], []⟩

/-- One GiB does not fit the window of the sam460, but the 4 KiB behind it do: memory
    decoding is turned on while the first register reads as it was sized. -/
theorem gibibyteBar_decodes :
    ¬ DecodesGranted (setupPciDevice .sam460 0 0 (sam460TwoBars 0xc0000000 0xfffff000))
      (implemented (twoBars 0xc0000000 0xfffff000) 0) := by
  have hanswers : answers (sam460TwoBars 0xc0000000 0xfffff000) =
      [⟨0, 0xc0000000, 0, 0x40000000, 0⟩, ⟨1, 0xfffff000, 0, 0x1000, 0x80000000⟩] := by
    show (allocate sam460SetupPciParams (implemented (twoBars 0xc0000000 0xfffff000) 0)).1 = _
    rw [implemented_twoBars (by decide) (by decide) (by decide) (by decide)]
    decide
  have hpresent : Board.sam460.present (pciReadConfig32
      (sam460TwoBars 0xc0000000 0xfffff000).config regVendorId) = true := by decide
  have hspecial : Board.sam460.special 0 = false := by decide
  have hfirst : (⟨0, 0xc0000000, 0, 0x40000000, 0⟩ : BarVisit) ∈
      answers (sam460TwoBars 0xc0000000 0xfffff000) := by
    rw [hanswers]
    exact List.mem_cons_self
  intro h
  refine h.notSizing ⟨0, 0xc0000000, 0, 0x40000000, 0⟩ ?_ rfl ?_
    (setupPciDevice_bar 0 hpresent hspecial (standardBars_twoBars _ _) hfirst)
  · rw [setupPciDevice_eq 0 hpresent hspecial]
    exact hfirst
  · rw [setupPciDevice_decoding 0 hpresent hspecial, TurnedOn, if_pos (by decide), hanswers]
    decide

/-- One MiB and 4 KiB are both served. -/
theorem mebibyteBar_granted :
    DecodesGranted (setupPciDevice .sam460 0 0 (sam460TwoBars 0xfff00000 0xfffff000))
      (implemented (twoBars 0xfff00000 0xfffff000) 0) := by
  have hanswers : answers (sam460TwoBars 0xfff00000 0xfffff000) =
      [⟨0, 0xfff00000, 0, 0x100000, 0x80000000⟩, ⟨1, 0xfffff000, 0, 0x1000, 0x80100000⟩] := by
    show (allocate sam460SetupPciParams (implemented (twoBars 0xfff00000 0xfffff000) 0)).1 = _
    rw [implemented_twoBars (by decide) (by decide) (by decide) (by decide)]
    decide
  refine (setupPciDevice_decodes_iff 0 (by decide) (by decide) (standardBars_twoBars _ _) rfl).mpr ?_
  intro io _ v hv hio
  clear hio
  rw [hanswers] at hv
  revert v
  decide

end BBoot.Pci
