import BBoot.Pci.Decoding
import BBoot.Pci.Ports

/-!
# Programs of configuration accesses

A program calls the accessors of `drivers/pci.c` one after the other and goes on
with what the reads return. It can be run on the ports of the bridge, for one
function, or on the registers of that function alone.

Results:
* `ConfigProg.run_bind`: programs run one after the other.
* `ConfigProg.run_function`: on the ports a program of aligned accesses does to
  the function addressed what it does to its registers, and nothing to others.
* `setupProg_run`: `setup_pci_device` as such a program.
-/

namespace BBoot.Pci

/-! ## Programs -/

/-- A program of accesses to the registers of one function. -/
inductive ConfigProg (α : Type) : Type
  /-- The program is done. -/
  | ret (a : α)
  /-- Access a register and go on with the value read, `0` for a write. -/
  | call (reg : ℕ) (op : ConfigOp) (k : Word → ConfigProg α)

namespace ConfigProg

variable {α β σ τ : Type}

/-- One program after the other. -/
def bind : ConfigProg α → (α → ConfigProg β) → ConfigProg β
  | ret a, f => f a
  | call reg op k, f => call reg op fun v => (k v).bind f

instance : Monad ConfigProg where
  pure := ret
  bind := bind

/-- The accesses one by one, on a state. -/
def run (access : σ → ℕ → ConfigOp → Option Word × σ) : ConfigProg α → σ → α × σ
  | ret a, s => (a, s)
  | call reg op k, s => run access (k ((access s reg op).1.getD 0)) (access s reg op).2

/-- All accesses are below register 256 and aligned to their width. -/
def Aligned : ConfigProg α → Prop
  | ret _ => True
  | call reg op k => (reg < 256 ∧ op.width ∣ reg) ∧ ∀ v, (k v).Aligned

theorem run_bind (access : σ → ℕ → ConfigOp → Option Word × σ) (p : ConfigProg α)
    (f : α → ConfigProg β) (s : σ) :
    (p >>= f).run access s = (f (p.run access s).1).run access (p.run access s).2 := by
  induction p generalizing s with
  | ret a => rfl
  | call reg op k ih => exact ih _ _

@[simp] theorem run_pure (access : σ → ℕ → ConfigOp → Option Word × σ) (a : α) (s : σ) :
    (pure a : ConfigProg α).run access s = (a, s) := rfl

theorem aligned_bind {p : ConfigProg α} {f : α → ConfigProg β} (hp : p.Aligned)
    (hf : ∀ a, (f a).Aligned) : (p >>= f).Aligned := by
  induction p with
  | ret a => exact hf a
  | call reg op k ih => exact ⟨hp.1, fun v => ih v (hp.2 v)⟩

/-- Two runs whose states stay related access by access return the same and end
    in related states. -/
theorem run_related {access : σ → ℕ → ConfigOp → Option Word × σ}
    {access' : τ → ℕ → ConfigOp → Option Word × τ} {R : σ → τ → Prop}
    (hstep : ∀ s t reg op, R s t → reg < 256 ∧ op.width ∣ reg →
      (access s reg op).1 = (access' t reg op).1 ∧ R (access s reg op).2 (access' t reg op).2)
    {p : ConfigProg α} (hp : p.Aligned) {s : σ} {t : τ} (hst : R s t) :
    (p.run access s).1 = (p.run access' t).1 ∧ R (p.run access s).2 (p.run access' t).2 := by
  induction p generalizing s t with
  | ret a => exact ⟨rfl, hst⟩
  | call reg op k ih =>
    obtain ⟨hval, hnext⟩ := hstep s t reg op hst hp.1
    rw [run, run, hval]
    exact ih _ (hp.2 _) hnext

/-- A program that is only run on a condition. -/
def when (p : ConfigProg Unit) (c : Prop) [Decidable c] : ConfigProg Unit :=
  if c then p else pure ()

theorem run_when (access : σ → ℕ → ConfigOp → Option Word × σ) (c : Prop) [Decidable c]
    (p : ConfigProg Unit) (s : σ) :
    (p.when c).run access s = if c then p.run access s else ((), s) := by
  unfold when
  split_ifs <;> rfl

/-! The accessors as programs. -/

def read8 (reg : ℕ) : ConfigProg Byte := call reg .read8 fun v => ret (v.setWidth 8)
def read16 (reg : ℕ) : ConfigProg (BitVec 16) := call reg .read16 fun v => ret (v.setWidth 16)
def read32 (reg : ℕ) : ConfigProg Word := call reg .read32 ret
def write8 (reg : ℕ) (val : Byte) : ConfigProg Unit := call reg (.write8 val) fun _ => ret ()
def write16 (reg : ℕ) (val : BitVec 16) : ConfigProg Unit :=
  call reg (.write16 val) fun _ => ret ()
def write32 (reg : ℕ) (val : Word) : ConfigProg Unit := call reg (.write32 val) fun _ => ret ()

end ConfigProg

/-! ## Running programs -/

/-- An access to the registers of one function. -/
def ConfigSpace.access (c : ConfigSpace) (reg : ℕ) (op : ConfigOp) : Option Word × ConfigSpace :=
  match op with
  | .read8 => (some ((pciReadConfig8 c reg).setWidth 32), c)
  | .read16 => (some ((pciReadConfig16 c reg).setWidth 32), c)
  | .read32 => (some (pciReadConfig32 c reg), c)
  | .write8 val => (none, pciWriteConfig8 c reg val)
  | .write16 val => (none, pciWriteConfig16 c reg val)
  | .write32 val => (none, pciWriteConfig32 c reg val)

/-- An access to the function `p` through the ports. -/
def HostBridge.accessOf (p : PciAddress) (br : HostBridge) (reg : ℕ) (op : ConfigOp) :
    Option Word × HostBridge := br.access ⟨p, BitVec.ofNat 16 reg, op⟩

namespace ConfigProg

/-- **A program on the ports** does to the function addressed what it does to the
    registers of that function, and nothing to the others. -/
theorem run_function {α : Type} {prog : ConfigProg α} (hprog : prog.Aligned) (br : HostBridge)
    (p : PciAddress) :
    (prog.run (HostBridge.accessOf p) br).1 = (prog.run ConfigSpace.access (br.function p)).1 ∧
      ∀ q, (prog.run (HostBridge.accessOf p) br).2.function q =
        if q = p then (prog.run ConfigSpace.access (br.function p)).2 else br.function q := by
  let R : HostBridge → ConfigSpace → Prop := fun br' c =>
    ∀ q, br'.function q = if q = p then c else br.function q
  have hstart : R br (br.function p) := by
    intro q
    split_ifs with h
    · rw [h]
    · rfl
  refine run_related (R := R) ?_ hprog hstart
  intro br' c reg op hR ⟨hlt, hdvd⟩
  have hreg : (BitVec.ofNat 16 reg).toNat = reg := by
    rw [BitVec.toNat_ofNat, Nat.mod_eq_of_lt (by omega)]
  have hlt' : (BitVec.ofNat 16 reg).toNat < 256 := by rw [hreg]; exact hlt
  have hdvd' : op.width ∣ (BitVec.ofNat 16 reg).toNat := by rw [hreg]; exact hdvd
  have hp : br'.function p = c := by rw [hR p, if_pos rfl]
  have hwrite : ∀ c', R (br'.withFunction p (BitVec.ofNat 16 reg) c') c' := by
    intro c' q
    rw [HostBridge.function_withFunction, hR q]
    split_ifs <;> rfl
  cases op with
  | read8 =>
    have heq := br'.read8_eq p hlt'
    rw [hreg, hp] at heq
    simp only [HostBridge.accessOf, HostBridge.access, ConfigSpace.access, heq]
    exact ⟨trivial, hR⟩
  | read16 =>
    have heq := br'.read16_eq p hlt' hdvd'
    rw [hreg, hp] at heq
    simp only [HostBridge.accessOf, HostBridge.access, ConfigSpace.access, heq]
    exact ⟨trivial, hR⟩
  | read32 =>
    have heq := br'.read32_eq p hlt' hdvd'
    rw [hreg, hp] at heq
    simp only [HostBridge.accessOf, HostBridge.access, ConfigSpace.access, heq]
    exact ⟨trivial, hR⟩
  | write8 val =>
    have heq := br'.write8_eq p hlt' val
    rw [hreg, hp] at heq
    simp only [HostBridge.accessOf, HostBridge.access, ConfigSpace.access, heq]
    exact ⟨trivial, hwrite _⟩
  | write16 val =>
    have heq := br'.write16_eq p hlt' hdvd' val
    rw [hreg, hp] at heq
    simp only [HostBridge.accessOf, HostBridge.access, ConfigSpace.access, heq]
    exact ⟨trivial, hwrite _⟩
  | write32 val =>
    have heq := br'.write32_eq p hlt' hdvd' val
    rw [hreg, hp] at heq
    simp only [HostBridge.accessOf, HostBridge.access, ConfigSpace.access, heq]
    exact ⟨trivial, hwrite _⟩

/-! What the accessors do to the registers of a function. -/

variable (c : ConfigSpace) (reg : ℕ)

@[simp] theorem run_read8 :
    (read8 reg).run ConfigSpace.access c = (pciReadConfig8 c reg, c) := by
  show ((pciReadConfig8 c reg).setWidth 32 |>.setWidth 8, c) = _
  rw [BitVec.setWidth_setWidth_of_le _ (by norm_num), BitVec.setWidth_eq]

@[simp] theorem run_read16 :
    (read16 reg).run ConfigSpace.access c = (pciReadConfig16 c reg, c) := by
  show ((pciReadConfig16 c reg).setWidth 32 |>.setWidth 16, c) = _
  rw [BitVec.setWidth_setWidth_of_le _ (by norm_num), BitVec.setWidth_eq]

@[simp] theorem run_read32 :
    (read32 reg).run ConfigSpace.access c = (pciReadConfig32 c reg, c) := rfl

@[simp] theorem run_write8 (val : Byte) :
    (write8 reg val).run ConfigSpace.access c = ((), pciWriteConfig8 c reg val) := rfl

@[simp] theorem run_write16 (val : BitVec 16) :
    (write16 reg val).run ConfigSpace.access c = ((), pciWriteConfig16 c reg val) := rfl

@[simp] theorem run_write32 (val : Word) :
    (write32 reg val).run ConfigSpace.access c = ((), pciWriteConfig32 c reg val) := rfl

end ConfigProg

/-! ## `setup_pci_device` -/

open ConfigProg

/-- `REG_REVISION_ID` (`drivers/pci.h` line 42), which is only printed. -/
def regRevisionId : ℕ := 0x08

/-- The writes for a register that was handed an address. -/
def programBarProg (latencyTimer : Byte) (i : ℕ) (cmd : BitVec 16) (base type : Word) :
    ConfigProg Unit := do
  write32 (pciBar i) (base ||| type)
  write16 regCommand (cmd ||| regCommandBm)
  write8 regCacheLineSize 8
  write8 regLatencyTimer latencyTimer

/-- The loop over the base address registers (`brd_amigaone.c` lines 148–171,
    `brd_sam460.c` lines 391–415). -/
def barLoopProg (latencyTimer : Byte) (i : ℕ) (cmd : BitVec 16) (w : PciWindows) :
    ConfigProg PciWindows :=
  if _h : i < 6 then do
    write32 (pciBar i) 0xffffffff
    let bar ← read32 (pciBar i)
    if bar = 0 then barLoopProg latencyTimer (i + 1) cmd w
    else do
      let type := barType bar
      let cmd := cmd ||| barCommand bar
      let r := addrForBar w type (barSize bar)
      (programBarProg latencyTimer i cmd r.1 type).when (r.1 ≠ 0)
      barLoopProg latencyTimer (nextIndex i type) cmd r.2
  else pure w
termination_by 6 - i
decreasing_by
  · omega
  · exact Nat.sub_lt_sub_left _h (lt_nextIndex ..)

/-- `setup_pci_device` away from slot 7 of the amigaone (`brd_amigaone.c` lines
    95–172, `brd_sam460.c` lines 366–416). -/
def setupProg (b : Board) (devfn : Word) (w : PciWindows) : ConfigProg PciWindows := do
  let vendev ← read32 regVendorId
  if b.present vendev = false then pure w
  else do
    let cmd ← read16 regCommand
    -- these two are only printed
    let _ ← read32 regRevisionId
    let _ ← read16 regInterruptLine
    let cmd := cmd &&& ~~~(regCommandBm ||| regCommandMem ||| regCommandIo)
    write16 regCommand cmd
    let pin ← read8 regInterruptPin
    let irq : Byte :=
      if 0 < pin ∧ pin < 5 then
        match b with
        | .amigaone => amigaoneIrq devfn pin
        | .sam460 => sam460Irq devfn vendev pin
      else 0xff
    (write8 regInterruptLine irq).when (irq ≠ 0xff)
    barLoopProg 0x80 0 cmd w

theorem barLoopProg_run (latencyTimer : Byte) (i : ℕ) (cmd : BitVec 16) (d : Dev) :
    (barLoopProg latencyTimer i cmd d.windows).run ConfigSpace.access d.config =
      ((barLoop latencyTimer i cmd d).windows, (barLoop latencyTimer i cmd d).config) := by
  induction i using bar_induction generalizing cmd d with
  | hend i hi =>
    rw [barLoopProg, dif_neg hi, barLoop, dif_neg hi]
    rfl
  | hstep i hi ih =>
    rw [barLoopProg, dif_pos hi, barLoop, dif_pos hi, run_bind, run_write32, run_bind, run_read32]
    dsimp only
    by_cases hbar : pciReadConfig32 (pciWriteConfig32 d.config (pciBar i) 0xffffffff) (pciBar i) = 0
    · rw [if_pos hbar, if_pos hbar]
      exact ih (i + 1) (by omega) cmd { d with config := pciWriteConfig32 d.config (pciBar i) 0xffffffff }
    · rw [if_neg hbar, if_neg hbar, run_bind, run_when]
      generalize pciReadConfig32 (pciWriteConfig32 d.config (pciBar i) 0xffffffff) (pciBar i) = bar
      split_ifs with hbase
      · exact ih _ (lt_nextIndex ..) _ ⟨_, _, d.ports, _⟩
      · exact ih _ (lt_nextIndex ..) _ ⟨_, _, d.ports, _⟩

theorem setInterruptLine_run (irq : Byte) (c : ConfigSpace) :
    (((write8 regInterruptLine irq).when (irq ≠ 0xff)).run ConfigSpace.access c).2 =
      setInterruptLine irq c := by
  rw [run_when]
  unfold setInterruptLine
  split_ifs <;> rfl

/-- **`setup_pci_device` as a program** does to the registers and the allocator
    what the function does. -/
theorem setupProg_run {b : Board} {devfn : Word} (hspecial : b.special devfn = false)
    (husb : b.usb devfn = false) (port : Byte) (d : Dev) :
    (setupProg b devfn d.windows).run ConfigSpace.access d.config =
      ((setupPciDevice b port devfn d).windows, (setupPciDevice b port devfn d).config) := by
  unfold setupProg setupPciDevice
  rw [run_bind, run_read32]
  dsimp only
  by_cases hpresent : b.present (pciReadConfig32 d.config regVendorId) = false
  · rw [if_pos hpresent, if_pos hpresent]
    rfl
  · rw [if_neg hpresent, if_neg hpresent, hspecial, if_neg Bool.false_ne_true]
    rw [run_bind, run_read16, run_bind, run_read32, run_bind, run_read16, run_bind, run_write16,
      run_bind, run_read8, run_bind, setInterruptLine_run]
    dsimp only
    have htimer : latencyTimer b devfn = 0x80 := by
      unfold latencyTimer
      rw [husb]
      rfl
    have hloop := barLoopProg_run 0x80 0 (commandOff d.config)
      { d with config := beforeBars b devfn d.config }
    rw [htimer]
    refine Eq.trans ?_ hloop
    congr 1
    unfold beforeBars
    rw [husb]
    rfl

/-! ## Alignment -/

theorem aligned_when {p : ConfigProg Unit} (hp : p.Aligned) (c : Prop) [Decidable c] :
    (p.when c).Aligned := by
  unfold ConfigProg.when
  split_ifs
  · exact hp
  · trivial

theorem aligned_read8 {reg : ℕ} (h : reg < 256) : (read8 reg).Aligned :=
  ⟨⟨h, one_dvd _⟩, fun _ => trivial⟩

theorem aligned_read16 {reg : ℕ} (h : reg < 256 ∧ 2 ∣ reg) : (read16 reg).Aligned :=
  ⟨h, fun _ => trivial⟩

theorem aligned_read32 {reg : ℕ} (h : reg < 256 ∧ 4 ∣ reg) : (read32 reg).Aligned :=
  ⟨h, fun _ => trivial⟩

theorem aligned_write8 {reg : ℕ} (h : reg < 256) (val : Byte) : (write8 reg val).Aligned :=
  ⟨⟨h, one_dvd _⟩, fun _ => trivial⟩

theorem aligned_write16 {reg : ℕ} (h : reg < 256 ∧ 2 ∣ reg) (val : BitVec 16) :
    (write16 reg val).Aligned := ⟨h, fun _ => trivial⟩

theorem aligned_write32 {reg : ℕ} (h : reg < 256 ∧ 4 ∣ reg) (val : Word) :
    (write32 reg val).Aligned := ⟨h, fun _ => trivial⟩

theorem pciBar_aligned {i : ℕ} (hi : i < 6) : pciBar i < 256 ∧ 4 ∣ pciBar i := by
  unfold pciBar
  omega

theorem programBarProg_aligned (latencyTimer : Byte) {i : ℕ} (hi : i < 6) (cmd : BitVec 16)
    (base type : Word) : (programBarProg latencyTimer i cmd base type).Aligned := by
  refine aligned_bind (aligned_write32 (pciBar_aligned hi) _) fun _ => ?_
  refine aligned_bind (aligned_write16 (by decide) _) fun _ => ?_
  refine aligned_bind (aligned_write8 (by decide) _) fun _ => ?_
  exact aligned_write8 (by decide) _

theorem barLoopProg_aligned (latencyTimer : Byte) (i : ℕ) (cmd : BitVec 16) (w : PciWindows) :
    (barLoopProg latencyTimer i cmd w).Aligned := by
  induction i using bar_induction generalizing cmd w with
  | hend i hi =>
    rw [barLoopProg, dif_neg hi]
    trivial
  | hstep i hi ih =>
    rw [barLoopProg, dif_pos hi]
    refine aligned_bind (aligned_write32 (pciBar_aligned hi) _) fun _ => ?_
    refine aligned_bind (aligned_read32 (pciBar_aligned hi)) fun bar => ?_
    split_ifs
    · exact ih _ (by omega) _ _
    · exact aligned_bind (aligned_when (programBarProg_aligned _ hi _ _ _) _) fun _ =>
        ih _ (lt_nextIndex ..) _ _

/-- All accesses of `setup_pci_device` are aligned. -/
theorem setupProg_aligned (b : Board) (devfn : Word) (w : PciWindows) :
    (setupProg b devfn w).Aligned := by
  refine aligned_bind (aligned_read32 (by decide)) fun vendev => ?_
  split_ifs
  · trivial
  refine aligned_bind (aligned_read16 (by decide)) fun _ => ?_
  refine aligned_bind (aligned_read32 (by decide)) fun _ => ?_
  refine aligned_bind (aligned_read16 (by decide)) fun _ => ?_
  refine aligned_bind (aligned_write16 (by decide) _) fun _ => ?_
  refine aligned_bind (aligned_read8 (by decide)) fun _ => ?_
  exact aligned_bind (aligned_when (aligned_write8 (by decide) _) _) fun _ =>
    barLoopProg_aligned _ _ _ _

end BBoot.Pci
