import BBoot.Pci.Assigned
import BBoot.Pci.Setup

/-!
# The device tree and the registers after `check_one_bus`

`check_one_bus` takes what `addr_for_bar` returned for an address, stores it in
`assigned-addresses` and writes it to the register, less `iobase` for I/O. The value 0
of a request that was refused takes the same way.

Results:
* `checkOneBus_bus`: what a bus of devices without `assigned-addresses` is left with.
* `busPass_written`: the register of every request, from what it held before.
* `checkOneBus_agrees_iff`: for which requests the registers agree with the tree, stay
  in the window and are left alone where the address was refused.
-/

namespace BBoot.Pegasos2

open Pci (ConfigSpace)

/-! ## Words of the configuration space -/

/-- An address of configuration space: bus, device and function only. -/
def ConfAddress (devfn : Word) : Prop := devfn &&& 0xff0000ff = 0

theorem ConfAddress.low {devfn : Word} (h : ConfAddress devfn) : devfn &&& 0xff = 0 := by
  have hmask : (0xff : Word) = 0xff0000ff &&& 0xff := by decide
  rw [hmask, ← BitVec.and_assoc, h]
  exact BitVec.zero_and

/-- A bit of the address in the number of the word. -/
theorem confWord_bit (devfn : Word) {reg : ℕ} (hreg : reg < 256) {i : ℕ} (hlow : 8 ≤ i) (hhigh : i < 24) :
    ((devfn ||| (BitVec.ofNat 32 reg &&& ~~~3) ||| 0x80000000) >>> 2).getLsbD (i - 2) =
      devfn.getLsbD i := by
  have htop : ∀ i < 24, (0x80000000 : Word).getLsbD i = false := by decide
  have hnum : (BitVec.ofNat 32 reg).getLsbD i = false := by
    have hpow : 2 ^ 8 ≤ 2 ^ i := Nat.pow_le_pow_right (by decide) hlow
    rw [BitVec.getLsbD_ofNat, Nat.testBit_lt_two_pow (by omega), Bool.and_false]
  rw [BitVec.getLsbD_ushiftRight, show 2 + (i - 2) = i by omega, BitVec.getLsbD_or, BitVec.getLsbD_or,
    BitVec.getLsbD_and, hnum, htop i hhigh, Bool.false_and, Bool.or_false, Bool.or_false]

/-- The word tells device and register. -/
theorem confWord_inj {devfn devfn' : Word} (h : ConfAddress devfn) (h' : ConfAddress devfn')
    {reg reg' : ℕ} (hreg : reg < 256) (hreg' : reg' < 256)
    (heq : confWord devfn reg = confWord devfn' reg') : devfn = devfn' ∧ reg / 4 = reg' / 4 := by
  have hout : ∀ devfn : Word, ConfAddress devfn → ∀ i < 32, ¬ (8 ≤ i ∧ i < 24) →
      devfn.getLsbD i = false := by
    intro devfn h i hi hrange
    have hmask : ∀ i < 32, ¬ (8 ≤ i ∧ i < 24) → (0xff0000ff : Word).getLsbD i = true := by decide
    have hbit := congrArg (fun x : Word => x.getLsbD i) h
    rw [BitVec.getLsbD_and, hmask i hi hrange, Bool.and_true] at hbit
    rw [hbit]
    exact BitVec.getLsbD_zero
  constructor
  · apply BitVec.eq_of_getLsbD_eq
    intro i hi
    by_cases hrange : 8 ≤ i ∧ i < 24
    · rw [← confWord_bit devfn hreg hrange.1 hrange.2, ← confWord_bit devfn' hreg' hrange.1 hrange.2,
        BitVec.eq_of_toNat_eq heq]
    · rw [hout devfn h i hi hrange, hout devfn' h' i hi hrange]
  · rw [← confWord_mod h.low hreg, ← confWord_mod h'.low hreg', heq]

theorem register_lt (e : Entry) : e.register < 256 := by
  rw [Entry.register, toNat_and_ff]
  omega

/-! ## Which words change -/

/-- Of the registers only those in `words` may differ, in bits that can be written. -/
structure ChangesOnly (words : Set ℕ) (c c' : ConfigSpace) : Prop where
  writable : c'.writable = c.writable
  wired : ∀ k, c'.wired k = c.wired k
  reg : ∀ k ∉ words, c'.reg k = c.reg k

theorem ChangesOnly.refl (words : Set ℕ) (c : ConfigSpace) : ChangesOnly words c c where
  writable := rfl
  wired _ := rfl
  reg _ _ := rfl

theorem ChangesOnly.trans {words : Set ℕ} {c c' c'' : ConfigSpace} (h : ChangesOnly words c c')
    (h' : ChangesOnly words c' c'') : ChangesOnly words c c'' where
  writable := h'.writable.trans h.writable
  wired k := (h'.wired k).trans (h.wired k)
  reg k hk := (h'.reg k hk).trans (h.reg k hk)

theorem ChangesOnly.mono {words words' : Set ℕ} {c c' : ConfigSpace} (h : ChangesOnly words c c')
    (hsub : words ⊆ words') : ChangesOnly words' c c' where
  writable := h.writable
  wired := h.wired
  reg k hk := h.reg k fun hmem => hk (hsub hmem)

theorem changesOnly_write (c : ConfigSpace) (k : ℕ) (lanes v : Word) :
    ChangesOnly {k} c (c.write k lanes v) where
  writable := rfl
  wired _ := ConfigSpace.wired_write ..
  reg _ hk := ConfigSpace.write_reg_ne _ _ _ hk

theorem enableDevice_changes (devfn vendorId deviceId : Word) (c : ConfigSpace) :
    ChangesOnly {confWord devfn Pci.regCommand} c (enableDevice devfn vendorId deviceId c) := by
  have hwrite : ∀ c : ConfigSpace, ChangesOnly {confWord devfn Pci.regCommand} c
      (Pci.pciWriteConfig16 c (confAddress devfn Pci.regCommand) 7) := by
    intro c
    rw [← confAddress_div]
    exact changesOnly_write ..
  unfold enableDevice
  dsimp only
  split_ifs
  · exact (hwrite c).trans (hwrite _)
  · exact hwrite c
  · exact hwrite c
  · exact ChangesOnly.refl ..

theorem setInterrupt_changes (devfn : Word) (same : Bool) (c : ConfigSpace) :
    ChangesOnly {confWord devfn Pci.regInterruptLine} c (setInterrupt devfn same c) := by
  unfold setInterrupt
  dsimp only
  split_ifs
  · rw [← confAddress_div]
    exact changesOnly_write ..
  · exact ChangesOnly.refl ..

theorem writeEntry_changes (iobase devfn : Word) (same : Bool) (e : Entry) (c : ConfigSpace) :
    ChangesOnly {confWord devfn e.register} c
      (writeEntry iobase devfn same e.physHi e.physLo c) := by
  rw [writeEntry_eq]
  dsimp only
  split_ifs
  · exact changesOnly_write ..
  · exact ChangesOnly.refl ..

theorem writeEntries_changes (iobase devfn : Word) (same : Bool) (es : List Entry) (c : ConfigSpace) :
    ChangesOnly {k | ∃ e ∈ es, k = confWord devfn e.register} c
      (writeEntries iobase devfn same es c) := by
  induction es generalizing c with
  | nil => exact ChangesOnly.refl ..
  | cons e es ih =>
    refine ((writeEntry_changes iobase devfn same e c).mono ?_).trans ((ih _).mono ?_)
    · rintro k rfl
      exact ⟨e, List.mem_cons_self, rfl⟩
    · rintro k ⟨e', he', rfl⟩
      exact ⟨e', List.mem_cons_of_mem _ he', rfl⟩

/-- What the register of an entry holds after it was written. -/
def entryWritten (iobase : Word) (same : Bool) (k : ℕ) (e : Entry) (c : ConfigSpace) : Word :=
  if same then
    ((barValue iobase e.physHi e.physLo ||| (c.reg k &&& 4)) &&& c.writable k) ||| c.wired k
  else c.reg k

theorem writeEntry_written (iobase devfn : Word) (same : Bool) (e : Entry) (c : ConfigSpace) :
    (writeEntry iobase devfn same e.physHi e.physLo c).reg (confWord devfn e.register) =
      entryWritten iobase same (confWord devfn e.register) e c := by
  rw [writeEntry_eq, entryWritten]
  dsimp only
  split_ifs
  · exact ConfigSpace.write_word ..
  · rfl

theorem entryWritten_congr {words : Set ℕ} {c c' : ConfigSpace} (h : ChangesOnly words c c') {k : ℕ}
    (hk : k ∉ words) (iobase : Word) (same : Bool) (e : Entry) :
    entryWritten iobase same k e c' = entryWritten iobase same k e c := by
  rw [entryWritten, entryWritten, h.writable, h.wired, h.reg k hk]

/-- Entries about different registers are written independently. -/
theorem writeEntries_written {devfn : Word} (hdevfn : ConfAddress devfn) (iobase : Word) (same : Bool)
    {es : List Entry} (hes : (es.map Entry.register).Nodup) (hwords : ∀ e ∈ es, 4 ∣ e.register)
    {e : Entry} (he : e ∈ es) (c : ConfigSpace) :
    (writeEntries iobase devfn same es c).reg (confWord devfn e.register) =
      entryWritten iobase same (confWord devfn e.register) e c := by
  have hne : ∀ e' ∈ es, e'.register ≠ e.register →
      confWord devfn e.register ≠ confWord devfn e'.register := by
    intro e' he' hne heq
    have hdiv := (confWord_inj hdevfn hdevfn (register_lt e) (register_lt e') heq).2
    have h4 := hwords e he
    have h4' := hwords e' he'
    omega
  induction es generalizing c with
  | nil => exact absurd he List.not_mem_nil
  | cons x es ih =>
    rw [List.map_cons, List.nodup_cons] at hes
    rw [writeEntries]
    rcases List.mem_cons.mp he with rfl | he'
    · rw [(writeEntries_changes ..).reg, writeEntry_written]
      rintro ⟨e', he', heq⟩
      refine hne e' (List.mem_cons_of_mem _ he') (fun h => hes.1 ?_) heq
      rw [← h]
      exact List.mem_map.mpr ⟨e', he', rfl⟩
    · rw [ih hes.2 (fun e' h => hwords e' (List.mem_cons_of_mem _ h)) he' _
        fun e' h => hne e' (List.mem_cons_of_mem _ h)]
      refine entryWritten_congr (writeEntry_changes iobase devfn same x c) ?_ ..
      refine hne x List.mem_cons_self fun h => hes.1 ?_
      rw [h]
      exact List.mem_map.mpr ⟨e, he', rfl⟩

/-! ## Devices and buses -/

/-- What a pass does to the registers for a device without `assigned-addresses`. -/
def Device.pass (d : Device) (w : PciWindows) (c : ConfigSpace) : ConfigSpace :=
  if d.bars = [] then d.enable c
  else writeEntries w.iobase d.devfn (d.same c) (d.made w)
    (setInterrupt d.devfn (d.same c) (d.enable c))

theorem checkNode_pass {d : Device} (hbars : d.bars.length ≤ 6) (s : State) :
    (checkNode s (d.node none)).1 = d.node (some (d.made s.windows)) ∧
      (checkNode s (d.node none)).2.windows = (assign s.windows d.bars).2 ∧
      (checkNode s (d.node none)).2.config = (s.setBus (d.pass s.windows s.bus)).config := by
  unfold Device.pass
  by_cases hbare : d.bars = []
  · obtain ⟨cells, r, ports, -, -, heq⟩ := checkNode_bare hbare s
    rw [heq, if_pos hbare, Device.made, hbare]
    exact ⟨rfl, rfl, rfl⟩
  · obtain ⟨cells, r, ports, -, -, heq⟩ := checkNode_unlisted hbare hbars s
    rw [heq, if_neg hbare]
    exact ⟨rfl, rfl, rfl⟩

/-- One call of `addr_for_bar`: the device, the statics before it and the entry of
    `reg`. -/
structure BarRun where
  device : Device
  before : PciWindows
  bar : Entry

namespace BarRun

/-- The arguments of the call, and what it returns. -/
def request (b : BarRun) : BarRequest := ⟨b.bar.physHi, b.bar.sizeLo⟩
def ret (b : BarRun) : Word := (addrForBar b.before b.bar.physHi b.bar.sizeLo).1

/-- The entry of `assigned-addresses`. -/
def assigned (b : BarRun) : Entry := Entry.fix { b.bar with physLo := b.ret }

/-- The register it is about, and the one behind it. -/
def word (b : BarRun) : ℕ := confWord b.device.devfn b.assigned.register
def upper (b : BarRun) : ℕ := confWord b.device.devfn (b.assigned.register + 4)

end BarRun

/-- The calls for a device, and for the devices of a bus. -/
def deviceRuns (d : Device) : PciWindows → List Entry → List BarRun
  | _, [] => []
  | w, e :: es => ⟨d, w, e⟩ :: deviceRuns d (addrForBar w e.physHi e.sizeLo).2 es

def busRuns : PciWindows → List Device → List BarRun
  | _, [] => []
  | w, d :: ds => deviceRuns d w d.bars ++ busRuns (assign w d.bars).2 ds

/-- The registers of a device: six base address registers and the expansion ROM. -/
def barRegisters : List ℕ := [0x10, 0x14, 0x18, 0x1c, 0x20, 0x24, 0x30]

/-- The attribute bits of a register: those of `BAR_IO_ATTR_MASK` for I/O and of
    `BAR_MEM_ATTR_MASK` for memory. -/
def attrMask (physHi : Word) : Word := if physHiType physHi = 1 then 3 else 0xf

/-- A device as the firmware describes it and `c` answers for it: registers of their
    own with room for a 64-bit address; address bits from the size on can be written,
    those that cannot read zero. -/
structure Device.Standard (c : ConfigSpace) (d : Device) : Prop where
  conf : ConfAddress d.devfn
  registers : ∀ e ∈ d.bars, e.fix.register ∈ barRegisters
  distinct : (d.bars.map fun e => e.fix.register).Nodup
  upper : ∀ e ∈ d.bars, physHiType e.physHi = 3 → e.fix.register ≤ 0x20 ∧
    e.fix.register + 4 ∉ d.bars.map fun e => e.fix.register
  writable : ∀ e ∈ d.bars, e.sizeLo ≠ 0 →
    -e.sizeLo &&& c.writable (confWord d.devfn e.fix.register) = -e.sizeLo
  wired : ∀ e ∈ d.bars,
    c.wired (confWord d.devfn e.fix.register) &&& ~~~attrMask e.physHi = 0

theorem made_eq (d : Device) (w : PciWindows) :
    d.made w = (deviceRuns d w d.bars).map BarRun.assigned := by
  rw [Device.made]
  induction d.bars generalizing w with
  | nil => rfl
  | cons e es ih =>
    show Entry.fix _ :: (assign _ es).1.map Entry.fix = _
    rw [ih]
    rfl

theorem deviceRuns_mem {d : Device} {w : PciWindows} {es : List Entry} {b : BarRun}
    (hb : b ∈ deviceRuns d w es) : b.device = d ∧ b.bar ∈ es ∧ SameBus w b.before := by
  induction es generalizing w with
  | nil => exact absurd hb List.not_mem_nil
  | cons e es ih =>
    rcases List.mem_cons.mp hb with rfl | hb
    · exact ⟨rfl, List.mem_cons_self, ⟨rfl, rfl, rfl, rfl, rfl⟩⟩
    · obtain ⟨h1, h2, h3⟩ := ih hb
      exact ⟨h1, List.mem_cons_of_mem _ h2, (sameBus_addrForBar ..).trans h3⟩

theorem busRuns_mem {w : PciWindows} {ds : List Device} {b : BarRun} (hb : b ∈ busRuns w ds) :
    b.device ∈ ds ∧ b.bar ∈ b.device.bars ∧ SameBus w b.before := by
  induction ds generalizing w with
  | nil => exact absurd hb List.not_mem_nil
  | cons d ds ih =>
    rcases List.mem_append.mp hb with hb | hb
    · obtain ⟨h1, h2, h3⟩ := deviceRuns_mem hb
      rw [h1]
      exact ⟨List.mem_cons_self, h2, h3⟩
    · obtain ⟨h1, h2, h3⟩ := ih hb
      exact ⟨List.mem_cons_of_mem _ h1, h2, (sameBus_assign ..).trans h3⟩

/-- The register of an entry is that of its `reg` entry, fixed. -/
theorem assigned_register (b : BarRun) : b.assigned.register = b.bar.fix.register := rfl

theorem made_registers (d : Device) (w : PciWindows) :
    (d.made w).map Entry.register = d.bars.map fun e => e.fix.register := by
  rw [Device.made]
  induction d.bars generalizing w with
  | nil => rfl
  | cons e es ih =>
    show Entry.register _ :: ((assign _ es).1.map Entry.fix).map Entry.register = _
    rw [ih]
    rfl

/-- The tree, and the registers, that a bus of devices is left with. -/
def listed : PciWindows → List Device → List Node
  | _, [] => []
  | w, d :: ds =>
    d.node (some ((deviceRuns d w d.bars).map BarRun.assigned)) :: listed (assign w d.bars).2 ds

def busPass : PciWindows → List Device → ConfigSpace → ConfigSpace
  | _, [], c => c
  | w, d :: ds, c => busPass (assign w d.bars).2 ds (d.pass w c)

theorem checkOneBus_bus {ds : List Device} (hbars : ∀ d ∈ ds, d.bars.length ≤ 6) (s : State) :
    (checkOneBus s (ds.map fun d => d.node none)).1 = listed s.windows ds ∧
      (checkOneBus s (ds.map fun d => d.node none)).2.bus = busPass s.windows ds s.bus := by
  induction ds generalizing s with
  | nil => exact ⟨rfl, rfl⟩
  | cons d ds ih =>
    let s' := (checkNode s (d.node none)).2
    obtain ⟨hnode, hwindows, hconfig⟩ := checkNode_pass (hbars d List.mem_cons_self) s
    obtain ⟨h1, h2⟩ := ih (fun d' hd' => hbars d' (List.mem_cons_of_mem _ hd')) s'
    have hsame : SameBus s.windows s'.windows := by
      rw [hwindows]
      exact sameBus_assign ..
    have hbus : s'.bus = d.pass s.windows s.bus := bus_of_config hsame hconfig
    constructor
    · show (checkNode s (d.node none)).1 :: (checkOneBus s' (ds.map fun d => d.node none)).1 = _
      rw [hnode, h1, hwindows, made_eq]
      rfl
    · show (checkOneBus s' (ds.map fun d => d.node none)).2.bus = _
      rw [h2, hwindows, hbus]
      rfl

/-! ## The registers of a device -/

/-- The words of a device. -/
def Device.words (d : Device) : Set ℕ := {k | ∃ reg < 256, k = confWord d.devfn reg}

theorem pass_changes (d : Device) (w : PciWindows) (c : ConfigSpace) :
    ChangesOnly d.words c (d.pass w c) := by
  have henable : ChangesOnly d.words c (d.enable c) := by
    refine (enableDevice_changes ..).mono ?_
    rintro k rfl
    exact ⟨Pci.regCommand, by decide, rfl⟩
  unfold Device.pass
  split_ifs
  · exact henable
  · refine henable.trans (((setInterrupt_changes ..).mono ?_).trans ((writeEntries_changes ..).mono ?_))
    · rintro k rfl
      exact ⟨Pci.regInterruptLine, by decide, rfl⟩
    · rintro k ⟨e, -, rfl⟩
      exact ⟨e.register, register_lt e, rfl⟩

theorem barRegisters_spec : ∀ r ∈ barRegisters, 4 ∣ r ∧ 0x10 ≤ r ∧ r < 0x34 := by decide

theorem words_disjoint {d d' : Device} (h : ConfAddress d.devfn) (h' : ConfAddress d'.devfn)
    (hne : d.devfn ≠ d'.devfn) {reg : ℕ} (hreg : reg < 256) : confWord d.devfn reg ∉ d'.words := by
  rintro ⟨reg', hreg', heq⟩
  exact hne (confWord_inj h h' hreg hreg' heq).1

/-- The register of a call, and the one behind a 64-bit one, after the pass over its
    device. -/
theorem pass_written {d : Device} {c : ConfigSpace} (hstd : d.Standard c) {w : PciWindows}
    {b : BarRun} (hb : b ∈ deviceRuns d w d.bars) :
    (d.pass w c).reg b.word = entryWritten w.iobase (d.same c) b.word b.assigned c ∧
      (physHiType b.bar.physHi = 3 → (d.pass w c).reg b.upper = c.reg b.upper) := by
  obtain ⟨hdevice, hbar, -⟩ := deviceRuns_mem hb
  have hbars : d.bars ≠ [] := fun h => absurd (h ▸ hbar) List.not_mem_nil
  obtain ⟨hdvd, hlow, hhigh⟩ := barRegisters_spec _ (hstd.registers _ hbar)
  rw [← assigned_register] at hdvd hlow hhigh
  let c' := setInterrupt d.devfn (d.same c) (d.enable c)
  have hchanges : ChangesOnly {confWord d.devfn Pci.regCommand, confWord d.devfn Pci.regInterruptLine}
      c c' :=
    ((enableDevice_changes ..).mono (by rintro k rfl; exact Or.inl rfl)).trans
      ((setInterrupt_changes ..).mono (by rintro k rfl; exact Or.inr rfl))
  -- neither is the command word or that of the interrupt line
  have hother : ∀ reg < 256, 0x10 ≤ reg → reg < 0x38 → confWord d.devfn reg ∉
      ({confWord d.devfn Pci.regCommand, confWord d.devfn Pci.regInterruptLine} : Set ℕ) := by
    rintro reg hreg hge hlt (heq | heq)
    · have := (confWord_inj hstd.conf hstd.conf hreg (by decide) heq).2
      rw [show Pci.regCommand / 4 = 1 from rfl] at this
      omega
    · have := (confWord_inj hstd.conf hstd.conf hreg (by decide) heq).2
      rw [show Pci.regInterruptLine / 4 = 15 from rfl] at this
      omega
  have hword : b.word = confWord d.devfn b.assigned.register := by rw [BarRun.word, hdevice]
  have hupper : b.upper = confWord d.devfn (b.assigned.register + 4) := by rw [BarRun.upper, hdevice]
  have hmade : b.assigned ∈ d.made w := by
    rw [made_eq]
    exact List.mem_map.mpr ⟨b, hb, rfl⟩
  have hregisters : ∀ e ∈ d.made w, e.register ∈ d.bars.map fun e => e.fix.register := by
    intro e he
    rw [← made_registers d w]
    exact List.mem_map.mpr ⟨e, he, rfl⟩
  have hwords : ∀ e ∈ d.made w, 4 ∣ e.register := by
    intro e he
    obtain ⟨x, hx, heq⟩ := List.mem_map.mp (hregisters e he)
    rw [← heq]
    exact (barRegisters_spec _ (hstd.registers x hx)).1
  rw [Device.pass, if_neg hbars]
  constructor
  · rw [hword, writeEntries_written hstd.conf _ _ (by rw [made_registers]; exact hstd.distinct) hwords
      hmade]
    exact entryWritten_congr hchanges (hother _ (register_lt _) hlow (by omega)) ..
  · intro h64
    obtain ⟨hle, hfree⟩ := hstd.upper _ hbar h64
    rw [← assigned_register] at hle hfree
    rw [hupper, (writeEntries_changes ..).reg, hchanges.reg _ (hother _ (by omega) (by omega) (by omega))]
    rintro ⟨e, he, heq⟩
    have hdiv := (confWord_inj hstd.conf hstd.conf (by omega) (register_lt e) heq).2
    have h4 := hwords e he
    have hreg : e.register = b.assigned.register + 4 := by omega
    exact hfree (hreg ▸ hregisters e he)

theorem Device.Standard.congr {d : Device} {words : Set ℕ} {c c' : ConfigSpace} (h : d.Standard c)
    (hc : ChangesOnly words c c') : d.Standard c' where
  conf := h.conf
  registers := h.registers
  distinct := h.distinct
  upper := h.upper
  writable e he h0 := by
    rw [hc.writable]
    exact h.writable e he h0
  wired e he := by
    rw [hc.wired]
    exact h.wired e he

theorem same_congr {d : Device} {words : Set ℕ} {c c' : ConfigSpace} (hc : ChangesOnly words c c')
    (hword : confWord d.devfn Pci.regVendorId ∉ words) : d.same c' = d.same c := by
  unfold Device.same
  rw [Pci.pciReadConfig32, Pci.pciReadConfig32, confAddress_div, hc.reg _ hword]

theorem busPass_changes (w : PciWindows) (ds : List Device) (c : ConfigSpace) :
    ChangesOnly {k | ∃ d ∈ ds, k ∈ d.words} c (busPass w ds c) := by
  induction ds generalizing w c with
  | nil => exact ChangesOnly.refl ..
  | cons d ds ih =>
    refine ((pass_changes d w c).mono ?_).trans ((ih _ _).mono ?_)
    · exact fun k hk => ⟨d, List.mem_cons_self, hk⟩
    · rintro k ⟨d', hd', hk⟩
      exact ⟨d', List.mem_cons_of_mem _ hd', hk⟩

/-- **The register of every call** after the bus, from what it held before. -/
theorem busPass_written {ds : List Device} (hds : (ds.map Device.devfn).Nodup) {w : PciWindows}
    {c : ConfigSpace} (hstd : ∀ d ∈ ds, d.Standard c) {b : BarRun} (hb : b ∈ busRuns w ds) :
    (busPass w ds c).reg b.word = entryWritten w.iobase (b.device.same c) b.word b.assigned c ∧
      (physHiType b.bar.physHi = 3 → (busPass w ds c).reg b.upper = c.reg b.upper) := by
  induction ds generalizing w c with
  | nil => exact absurd hb List.not_mem_nil
  | cons d ds ih =>
    rw [List.map_cons, List.nodup_cons] at hds
    have hd := hstd d List.mem_cons_self
    have hne : ∀ d' ∈ ds, d.devfn ≠ d'.devfn := by
      intro d' hd' heq
      exact hds.1 (heq ▸ List.mem_map.mpr ⟨d', hd', rfl⟩)
    have hchanges := pass_changes d w c
    rw [busPass]
    rcases List.mem_append.mp hb with hb | hb
    · -- the passes over the devices behind `d` leave its words alone
      obtain ⟨hdevice, hbar, -⟩ := deviceRuns_mem hb
      obtain ⟨-, -, hhigh⟩ := barRegisters_spec _ (hd.registers _ hbar)
      rw [← assigned_register] at hhigh
      have hlater : ∀ reg < 256, (busPass (assign w d.bars).2 ds (d.pass w c)).reg
          (confWord d.devfn reg) = (d.pass w c).reg (confWord d.devfn reg) := by
        intro reg hreg
        refine (busPass_changes ..).reg _ ?_
        rintro ⟨d', hd', hmem⟩
        exact words_disjoint hd.conf (hstd d' (List.mem_cons_of_mem _ hd')).conf (hne d' hd') hreg hmem
      obtain ⟨h1, h2⟩ := pass_written hd hb
      rw [hdevice]
      constructor
      · rw [← h1, BarRun.word, hdevice]
        exact hlater _ (register_lt _)
      · intro h64
        rw [← h2 h64, BarRun.upper, hdevice]
        exact hlater _ (by omega)
    · obtain ⟨hmem, hbar, -⟩ := busRuns_mem hb
      have hb' := hstd _ (List.mem_cons_of_mem _ hmem)
      obtain ⟨-, -, hhigh⟩ := barRegisters_spec _ (hb'.registers _ hbar)
      rw [← assigned_register] at hhigh
      have hbefore : ∀ reg < 256, confWord b.device.devfn reg ∉ d.words := fun reg hreg =>
        words_disjoint hb'.conf hd.conf (hne _ hmem).symm hreg
      obtain ⟨h1, h2⟩ := ih hds.2 (w := (assign w d.bars).2) (c := d.pass w c)
        (fun d' hd' => (hstd d' (List.mem_cons_of_mem _ hd')).congr hchanges) hb
      constructor
      · rw [h1, (sameBus_assign w d.bars).iobase, same_congr hchanges (hbefore _ (by decide))]
        exact entryWritten_congr hchanges (hbefore _ (register_lt _)) ..
      · intro h64
        rw [h2 h64]
        exact hchanges.reg _ (hbefore _ (by omega))

/-! ## Agreement -/

namespace BarRun

/-- The cursor, rounded up to the size. -/
def rounded (b : BarRun) : Word := roundUp (b.before.avail b.request.pool) b.bar.sizeLo

/-- The call prints `Cannot fit BAR`. -/
def Refused (b : BarRun) : Prop :=
  b.bar.sizeLo ≠ 0 ∧
    (b.request.pool.isIo = true ∧ b.rounded + b.bar.sizeLo > b.before.iolen ∨
      b.request.pool = .mem ∧
        b.rounded - b.before.membase + b.bar.sizeLo > b.before.memlen)

/-- The call hands out an address. -/
def Allocated (b : BarRun) : Prop := b.bar.sizeLo ≠ 0 ∧ b.request.pool ≠ .none ∧ ¬ b.Refused

/-- The address of the entry in `assigned-addresses` as the bus sees it. -/
def busAddress (b : BarRun) : Word :=
  if b.request.pool.isIo then b.assigned.physLo - b.before.iobase else b.assigned.physLo

/-- The window of the bus, as the bus sees it. -/
def window (b : BarRun) : Span :=
  if b.request.pool.isIo then ⟨0, b.before.iolen.toNat⟩
  else ⟨b.before.membase.toNat, b.before.memlen.toNat⟩

/-- What is set in the register besides the address: the bits that `check_one_bus` adds,
    and bit 2 if the register has it. -/
def flags (b : BarRun) (c : ConfigSpace) : Word :=
  (if physHiType b.assigned.physHi = 1 then 1 else 0) |||
    (if b.assigned.physHi &&& physHiPrefetch ≠ 0 then 8 else 0) ||| (c.reg b.word &&& 4)

/-- What the registers `c'` owe the entry, where they were `c` before: a register of a
    device that is the one in the tree decodes the address of the entry, within the
    window; one that could not be fitted is as it was. -/
structure Sound (b : BarRun) (c c' : ConfigSpace) : Prop where
  decodes : b.device.same c = true → b.Allocated →
    c'.reg b.word &&& ~~~attrMask b.bar.physHi = b.busAddress
  upper : b.device.same c = true → b.Allocated → physHiType b.bar.physHi = 3 → c'.reg b.upper = 0
  inside : b.device.same c = true → b.Allocated →
    Span.Inside ⟨b.busAddress.toNat, b.bar.sizeLo.toNat⟩ b.window
  refused : b.Refused → c'.reg b.word = c.reg b.word

/-- The condition on a call and on the registers before it. For a device that is the
    one in the tree: the cursor has no bits where a register has its attributes, no
    flag falls on a bit of the address, an I/O range does not wrap, a memory range
    starts in the window and does not wrap behind it, the upper half of a 64-bit
    register is zero; a register whose request is refused holds already what the
    address 0 makes of it. -/
structure Meets (b : BarRun) (c : ConfigSpace) : Prop where
  aligned : b.device.same c = true → b.Allocated → b.rounded &&& attrMask b.bar.physHi = 0
  flags : b.device.same c = true → b.Allocated →
    b.flags c &&& c.writable b.word &&& ~~~attrMask b.bar.physHi &&& ~~~b.rounded = 0
  io : b.device.same c = true → b.Allocated → b.request.pool.isIo = true →
    b.rounded.toNat + b.bar.sizeLo.toNat < 2 ^ 32
  mem : b.device.same c = true → b.Allocated → b.request.pool = .mem →
    b.before.membase.toNat ≤ b.rounded.toNat ∧
      b.rounded.toNat - b.before.membase.toNat + b.bar.sizeLo.toNat < 2 ^ 32
  upper : b.device.same c = true → b.Allocated → physHiType b.bar.physHi = 3 → c.reg b.upper = 0
  refused : b.device.same c = true → b.Refused →
    (barValue b.before.iobase b.assigned.physHi 0 ||| (c.reg b.word &&& 4)) &&& c.writable b.word =
      c.reg b.word &&& c.writable b.word

end BarRun

/-- The bits of a register besides its attributes after an address was written to it
    with flags. -/
theorem programmed_iff {a x w k attr : Word} (hw : a &&& w = a) (hk : k &&& ~~~attr = 0) :
    (((a ||| x) &&& w) ||| k) &&& ~~~attr = a ↔
      a &&& attr = 0 ∧ x &&& w &&& ~~~attr &&& ~~~a = 0 := by
  have hbit : ∀ a x w k attr : Bool, (a && w) = a → (k && !attr) = false →
      ((((a || x) && w || k) && !attr) = a ↔
        (a && attr) = false ∧ (x && w && !attr && !a) = false) := by decide
  simp only [BitVec.eq_of_getElem_eq_iff, ← forall₂_and] at hw hk ⊢
  refine forall₂_congr fun i hi => ?_
  have h1 := hw i hi
  have h2 := hk i hi
  have hzero : (0 : Word)[i] = false := BitVec.getElem_zero ..
  simp only [BitVec.getElem_and, BitVec.getElem_or, BitVec.getElem_not, hzero] at h1 h2 ⊢
  exact hbit _ _ _ _ _ h1 h2

/-- Rewriting a register changes nothing if and only if what is written agrees with it
    where it can be written. -/
theorem rewritten_iff {v r w : Word} : (v &&& w) ||| (r &&& ~~~w) = r ↔ v &&& w = r &&& w := by
  have hbit : ∀ v r w : Bool, ((v && w || r && !w) = r ↔ (v && w) = (r && w)) := by decide
  simp only [BitVec.eq_of_getElem_eq_iff]
  refine forall₂_congr fun i hi => ?_
  simp only [BitVec.getElem_and, BitVec.getElem_or, BitVec.getElem_not]
  exact hbit _ _ _

theorem truncate64_io (x : Word) : physHiType (truncate64 x) = 1 ↔ physHiType x = 1 := by
  unfold truncate64
  split_ifs with h
  · rw [h]
    refine iff_of_false (fun h1 => ?_) (by decide)
    have hbit := physHiType_truncated x
    rw [h1] at hbit
    exact absurd hbit (by decide)
  · rfl

namespace BarRun

theorem isIo_iff (b : BarRun) : b.request.pool.isIo = true ↔ physHiType b.bar.physHi = 1 := by
  show (BarRequest.pool ⟨b.bar.physHi, b.bar.sizeLo⟩).isIo = true ↔ _
  unfold BarRequest.pool
  dsimp only
  split_ifs with h1 h2 h3
  · exact iff_of_true rfl h1
  · exact iff_of_true rfl h1
  · exact iff_of_false Bool.false_ne_true h1
  · exact iff_of_false Bool.false_ne_true h1

/-- The fixes do not change whether an entry is for I/O. -/
theorem assigned_io (b : BarRun) :
    physHiType b.assigned.physHi = 1 ↔ b.request.pool.isIo = true := by
  rw [isIo_iff]
  show physHiType (fixRom (truncate64 b.bar.physHi)) = 1 ↔ _
  rw [fixRom_type, truncate64_io]

theorem mem_of_not_io {b : BarRun} (hpool : b.request.pool ≠ .none)
    (hio : b.request.pool.isIo ≠ true) : b.request.pool = .mem := by
  revert hpool hio
  cases b.request.pool <;> decide

theorem ret_io {b : BarRun} (h0 : b.bar.sizeLo ≠ 0) (hio : b.request.pool.isIo = true) :
    b.ret = if b.rounded + b.bar.sizeLo > b.before.iolen then 0 else b.before.iobase + b.rounded := by
  show (addrForBar b.before b.request.physhi b.request.size).1 = _
  rw [addrForBar_io b.before b.request h0 hio]
  exact apply_ite Prod.fst ..

theorem ret_mem {b : BarRun} (h0 : b.bar.sizeLo ≠ 0) (hmem : b.request.pool = .mem) :
    b.ret = if b.rounded - b.before.membase + b.bar.sizeLo > b.before.memlen then 0
      else b.rounded := by
  show (addrForBar b.before b.request.physhi b.request.size).1 = _
  rw [addrForBar_mem b.before b.request h0 hmem, rounded, hmem]
  exact apply_ite Prod.fst ..

theorem ret_refused {b : BarRun} (h : b.Refused) : b.ret = 0 := by
  obtain ⟨h0, ⟨hio, hgt⟩ | ⟨hmem, hgt⟩⟩ := h
  · rw [ret_io h0 hio, if_pos hgt]
  · rw [ret_mem h0 hmem, if_pos hgt]

/-- What a call hands out is the rounded cursor, from `iobase` on for I/O. -/
theorem busAddress_eq {b : BarRun} (h : b.Allocated) : b.busAddress = b.rounded := by
  obtain ⟨h0, hpool, hfits⟩ := h
  have hret : b.assigned.physLo = b.ret := rfl
  rw [busAddress, hret]
  split_ifs with hio
  · rw [ret_io h0 hio, if_neg fun hgt => hfits ⟨h0, Or.inl ⟨hio, hgt⟩⟩, BitVec.add_comm,
      BitVec.add_sub_cancel]
  · have hmem := mem_of_not_io hpool hio
    rw [ret_mem h0 hmem, if_neg fun hgt => hfits ⟨h0, Or.inr ⟨hmem, hgt⟩⟩]

/-- The rounded cursor has no bits below the size. -/
theorem rounded_and_neg (b : BarRun) : b.rounded &&& -b.bar.sizeLo = b.rounded := by
  show (_ &&& -b.bar.sizeLo) &&& -b.bar.sizeLo = _
  rw [BitVec.and_assoc, BitVec.and_self]
  rfl

theorem barValue_or (b : BarRun) (c : ConfigSpace) :
    barValue b.before.iobase b.assigned.physHi b.assigned.physLo ||| (c.reg b.word &&& 4) =
      b.busAddress ||| b.flags c := by
  rw [barValue, flags, busAddress]
  simp only [← b.assigned_io]
  split_ifs <;> simp only [BitVec.or_assoc, BitVec.zero_or, show (0 : Word) = 0#32 from rfl]

/-- A range handed out lies in the window unless it wraps or starts below. -/
theorem inside_iff {b : BarRun} (h : b.Allocated) :
    Span.Inside ⟨b.rounded.toNat, b.bar.sizeLo.toNat⟩ b.window ↔
      (b.request.pool.isIo = true → b.rounded.toNat + b.bar.sizeLo.toNat < 2 ^ 32) ∧
      (b.request.pool = .mem → b.before.membase.toNat ≤ b.rounded.toNat ∧
        b.rounded.toNat - b.before.membase.toNat + b.bar.sizeLo.toNat < 2 ^ 32) := by
  obtain ⟨h0, hpool, hfits⟩ := h
  unfold window
  by_cases hio : b.request.pool.isIo = true
  · have hmem : b.request.pool ≠ .mem := by
      intro hmem
      rw [hmem] at hio
      exact Bool.false_ne_true hio
    have hle : (b.rounded + b.bar.sizeLo).toNat ≤ b.before.iolen.toNat := by
      by_contra hgt
      exact hfits ⟨h0, Or.inl ⟨hio, not_le.mp hgt⟩⟩
    rw [BitVec.toNat_add] at hle
    have hlen := b.before.iolen.isLt
    rw [if_pos hio]
    show 0 ≤ b.rounded.toNat ∧ b.rounded.toNat + b.bar.sizeLo.toNat ≤ 0 + b.before.iolen.toNat ↔ _
    constructor
    · rintro ⟨-, hstop⟩
      exact ⟨fun _ => by omega, fun h => absurd h hmem⟩
    · rintro ⟨hlt, -⟩
      have := hlt hio
      omega
  · have hmem := mem_of_not_io hpool hio
    have hle : (b.rounded - b.before.membase + b.bar.sizeLo).toNat ≤ b.before.memlen.toNat := by
      by_contra hgt
      exact hfits ⟨h0, Or.inr ⟨hmem, not_le.mp hgt⟩⟩
    rw [BitVec.toNat_add, BitVec.toNat_sub] at hle
    have hlen := b.before.memlen.isLt
    have hbase := b.before.membase.isLt
    have hround := b.rounded.isLt
    rw [if_neg hio]
    show b.before.membase.toNat ≤ b.rounded.toNat ∧ b.rounded.toNat + b.bar.sizeLo.toNat ≤
      b.before.membase.toNat + b.before.memlen.toNat ↔ _
    constructor
    · rintro ⟨hstart, hstop⟩
      exact ⟨fun h => absurd h hio, fun _ => by omega⟩
    · rintro ⟨-, hlt⟩
      have := hlt hmem
      omega

/-- The address that was handed out can be written. -/
theorem rounded_writable {b : BarRun} {c : ConfigSpace} (hstd : b.device.Standard c)
    (hbar : b.bar ∈ b.device.bars) (h0 : b.bar.sizeLo ≠ 0) :
    b.rounded &&& c.writable b.word = b.rounded := by
  have hw : -b.bar.sizeLo &&& c.writable b.word = -b.bar.sizeLo := hstd.writable b.bar hbar h0
  calc b.rounded &&& c.writable b.word
      = b.rounded &&& -b.bar.sizeLo &&& c.writable b.word := by rw [rounded_and_neg]
    _ = b.rounded &&& -b.bar.sizeLo := by rw [BitVec.and_assoc, hw]
    _ = b.rounded := b.rounded_and_neg

/-- **One register** is sound after the pass if and only if its call meets the
    condition. -/
theorem sound_iff {b : BarRun} {c c' : ConfigSpace} (hstd : b.device.Standard c)
    (hbar : b.bar ∈ b.device.bars)
    (hword : c'.reg b.word = entryWritten b.before.iobase (b.device.same c) b.word b.assigned c)
    (hupper : physHiType b.bar.physHi = 3 → c'.reg b.upper = c.reg b.upper) :
    b.Sound c c' ↔ b.Meets c := by
  have hdecodes : b.device.same c = true → b.Allocated →
      (c'.reg b.word &&& ~~~attrMask b.bar.physHi = b.busAddress ↔
        b.rounded &&& attrMask b.bar.physHi = 0 ∧
          b.flags c &&& c.writable b.word &&& ~~~attrMask b.bar.physHi &&& ~~~b.rounded = 0) := by
    intro hsame h
    have hwired : c.wired b.word &&& ~~~attrMask b.bar.physHi = 0 := hstd.wired b.bar hbar
    rw [hword, entryWritten, if_pos hsame, barValue_or, busAddress_eq h]
    exact programmed_iff (rounded_writable hstd hbar h.1) hwired
  have hrefused : b.Refused → (c'.reg b.word = c.reg b.word ↔ (b.device.same c = true →
      (barValue b.before.iobase b.assigned.physHi 0 ||| (c.reg b.word &&& 4)) &&& c.writable b.word =
        c.reg b.word &&& c.writable b.word)) := by
    intro h
    have hret : b.assigned.physLo = 0 := ret_refused h
    rw [hword, entryWritten, hret]
    by_cases hsame : b.device.same c = true
    · rw [if_pos hsame]
      exact rewritten_iff.trans ⟨fun h _ => h, fun h => h hsame⟩
    · rw [if_neg hsame]
      exact iff_of_true rfl fun h => absurd h hsame
  constructor
  · intro h
    exact
      { aligned := fun hsame ha => ((hdecodes hsame ha).mp (h.decodes hsame ha)).1
        flags := fun hsame ha => ((hdecodes hsame ha).mp (h.decodes hsame ha)).2
        io := fun hsame ha => ((inside_iff ha).mp (busAddress_eq ha ▸ h.inside hsame ha)).1
        mem := fun hsame ha => ((inside_iff ha).mp (busAddress_eq ha ▸ h.inside hsame ha)).2
        upper := fun hsame ha h64 => hupper h64 ▸ h.upper hsame ha h64
        refused := fun hsame hr => (hrefused hr).mp (h.refused hr) hsame }
  · intro h
    exact
      { decodes := fun hsame ha => (hdecodes hsame ha).mpr ⟨h.aligned hsame ha, h.flags hsame ha⟩
        upper := fun hsame ha h64 => (hupper h64).trans (h.upper hsame ha h64)
        inside := fun hsame ha => by
          rw [busAddress_eq ha]
          exact (inside_iff ha).mpr ⟨h.io hsame ha, h.mem hsame ha⟩
        refused := fun hr => (hrefused hr).mpr fun hsame => h.refused hsame hr }

end BarRun

/-- **The device tree and the registers.** For every bus of devices without
    `assigned-addresses`, `check_one_bus` stays within `cells`, puts what `addr_for_bar`
    returned into the tree and leaves every register as `BarRun.Sound` says if and only
    if no device has more than six of them and every call meets its condition. -/
theorem checkOneBus_agrees_iff {s : State} (hs : s.reach ≤ 35) {ds : List Device}
    (hds : (ds.map Device.devfn).Nodup) (hstd : ∀ d ∈ ds, d.Standard s.bus) :
    ((checkOneBus s (ds.map fun d => d.node none)).2.reach ≤ 35 ∧
        (checkOneBus s (ds.map fun d => d.node none)).1 = listed s.windows ds ∧
        ∀ b ∈ busRuns s.windows ds,
          b.Sound s.bus (checkOneBus s (ds.map fun d => d.node none)).2.bus) ↔
      (∀ d ∈ ds, d.bars.length ≤ 6) ∧ ∀ b ∈ busRuns s.windows ds, b.Meets s.bus := by
  by_cases hbars : ∀ d ∈ ds, d.bars.length ≤ 6
  · obtain ⟨htree, hbus⟩ := checkOneBus_bus hbars s
    rw [htree, hbus, and_iff_right hbars, and_iff_right (checkOneBus_within hbars hs),
      and_iff_right rfl]
    refine forall₂_congr fun b hb => ?_
    obtain ⟨hd, hbar, hsame⟩ := busRuns_mem hb
    obtain ⟨hword, hupper⟩ := busPass_written hds hstd hb
    rw [← hsame.iobase] at hword
    exact BarRun.sound_iff (hstd _ hd) hbar hword hupper
  · refine iff_of_false (fun h => ?_) fun h => hbars h.1
    push Not at hbars
    obtain ⟨d, hd, hlt⟩ := hbars
    have hover := checkOneBus_overruns hd hlt s
    omega

/-- A device with one I/O register, and a bus that has it. -/
def ioCard (size : Word) : Device := { deviceWith [] with bars := [⟨0x01000810, 0, 0, 0, size⟩] }

def ioCardSpace (size : Word) : ConfigSpace where
  reg k := if k % 64 = 0 then 0x813910ec else if k % 64 = 4 then 1 else 0
  writable k := if k % 64 = 4 then -size else 0

/-- The bus at `0x80000000` with the device, before anything was handed out. -/
def ioCardState (size : Word) : State :=
  { freshState fun _ => ioCardSpace size with windows := pci0Windows }

theorem ioCard_standard (size : Word) : ∀ d ∈ [ioCard size], d.Standard (ioCardState size).bus := by
  intro d hd
  obtain rfl := List.mem_singleton.mp hd
  have hfix : (⟨0x01000810, 0, 0, 0, size⟩ : Entry).fix.register = 0x10 := by
    have hneeds : needsFix (⟨0x01000810, 0, 0, 0, size⟩ : Entry).physHi = false :=
      show needsFix 0x01000810 = false by decide
    rw [fix_eq_self hneeds]
    show ((0x01000810 : Word) &&& 0xff).toNat = 0x10
    decide
  have hword : confWord (ioCard size).devfn 0x10 = confWord 0x800 0x10 := rfl
  refine ⟨show (0x800 : Word) &&& 0xff0000ff = 0 by decide, ?_, List.nodup_singleton _, ?_, ?_, ?_⟩
  · intro e he
    obtain rfl := List.mem_singleton.mp he
    rw [hfix]
    decide
  · intro e he h64
    obtain rfl := List.mem_singleton.mp he
    exact absurd h64 (show physHiType 0x01000810 ≠ 3 by decide)
  · intro e he _
    obtain rfl := List.mem_singleton.mp he
    rw [hfix, hword]
    show -size &&& (if confWord 0x800 0x10 % 64 = 4 then -size else 0) = _
    rw [if_pos (by decide), BitVec.and_self]
  · intro e he
    obtain rfl := List.mem_singleton.mp he
    rw [hfix, hword, ConfigSpace.wired]
    have hreg : (ioCardState size).bus.reg (confWord 0x800 0x10) = 1 := by
      show (ioCardSpace 0).reg (confWord 0x800 0x10) = 1
      decide
    rw [hreg, BitVec.and_assoc, BitVec.and_comm (~~~_), ← BitVec.and_assoc]
    show (1 &&& ~~~attrMask 0x01000810) &&& _ = (0 : Word)
    rw [show (1 : Word) &&& ~~~attrMask 0x01000810 = 0 by decide]
    exact BitVec.zero_and

/-- 128 KiB do not fit the I/O window of 64 KiB. The 0 of the refused request goes to
    the register less `iobase`. -/
theorem oversizedIo_programmed :
    ¬ ∀ b ∈ busRuns pci0Windows [ioCard 0x20000], b.Sound (ioCardSpace 0x20000)
      (checkOneBus (ioCardState 0x20000) ([ioCard 0x20000].map fun d => d.node none)).2.bus := by
  intro h
  let b : BarRun := ⟨ioCard 0x20000, pci0Windows, ⟨0x01000810, 0, 0, 0, 0x20000⟩⟩
  have hb : b ∈ busRuns pci0Windows [ioCard 0x20000] := List.mem_cons_self
  have hrefused : b.Refused := ⟨by decide, Or.inl ⟨by decide, by decide⟩⟩
  have hkept := (h b hb).refused hrefused
  have hnodup : ([ioCard 0x20000].map Device.devfn).Nodup := by decide
  have hbars : ∀ d ∈ [ioCard 0x20000], d.bars.length ≤ 6 := by decide
  rw [(checkOneBus_bus hbars (ioCardState 0x20000)).2] at hkept
  have hword := (busPass_written hnodup (ioCard_standard 0x20000) hb).1
  replace hword := hkept.symm.trans hword
  revert hword
  decide

/-- 256 bytes of I/O are served and programmed. -/
theorem smallIo_agrees :
    (checkOneBus (ioCardState 0x100) ([ioCard 0x100].map fun d => d.node none)).2.reach ≤ 35 ∧
      (checkOneBus (ioCardState 0x100) ([ioCard 0x100].map fun d => d.node none)).1 =
        listed pci0Windows [ioCard 0x100] ∧
      ∀ b ∈ busRuns pci0Windows [ioCard 0x100], b.Sound (ioCardSpace 0x100)
        (checkOneBus (ioCardState 0x100) ([ioCard 0x100].map fun d => d.node none)).2.bus := by
  have hnodup : ([ioCard 0x100].map Device.devfn).Nodup := by decide
  refine (checkOneBus_agrees_iff (s := ioCardState 0x100) (Nat.zero_le 35) hnodup
    (ioCard_standard 0x100)).mpr ⟨by decide, fun b hb => ?_⟩
  obtain rfl : b = ⟨ioCard 0x100, pci0Windows, ⟨0x01000810, 0, 0, 0, 0x100⟩⟩ :=
    List.mem_singleton.mp hb
  exact ⟨fun _ _ => by decide, fun _ _ => by decide, fun _ _ _ => by decide, fun _ _ => by decide,
    fun _ _ => by decide, fun _ h => absurd h.2 (by decide)⟩

end BBoot.Pegasos2
