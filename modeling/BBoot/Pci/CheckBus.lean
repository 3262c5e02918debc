import BBoot.Pci.Cells
import BBoot.Pci.Config
import BBoot.Pci.Pegasos2

/-!
# The devices of a bus on pegasos2

`check_one_bus` of `brd_pegasos2.c` walks the nodes of a bus in the firmware's
device tree. A device without `assigned-addresses` gets one entry there for each
entry of `reg` but the first; then every entry, found or made, is fixed where the
kernel cannot handle it and compared with the register it is about. All of it is
done in the one array `cells`, whose indices come from property lengths.

The model logs how far into `cells` the code reaches, takes reads of configuration
space to have no effect and the firmware to accept every `prom_setprop`. Console
output is left out.

Results:
* `shiftLoop_spec`, `fixLoop_spec`: the two loops over `cells` on the entries they
  hold.
* `checkNode_listed`, `checkNode_unlisted`: what is done for a device whose
  properties fit, with and without `assigned-addresses`.
-/

namespace BBoot.Pegasos2

open Pci (ConfigSpace)

/-! ## Model -/

/-- The properties of a device node that are read or written. -/
structure Node where
  name : Option (List Byte)
  vendorId : Option (List Byte)
  deviceId : Option (List Byte)
  classCode : Option (List Byte)
  reg : Option (List Byte)
  assignedAddresses : Option (List Byte)

/-- The statics, the configuration spaces behind each configuration port and the I/O
    ports written. Indices of `cells` that were accessed are below `reach`. -/
structure State where
  windows : PciWindows
  cells : ℕ → Word
  reach : ℕ
  config : Word → ConfigSpace
  ports : List (Word × Byte)

/-- `PHYS_HI_PREFETCH` (`brd_pegasos2.c` line 39). -/
def physHiPrefetch : Word := (1 : Word) <<< 30

/-- `PCI_FUNC(_d)` (`drivers/pci.h` line 113). -/
def pciFunc (d : Word) : Word := (d >>> 8) &&& 0x7

/-- The word `pci_set_conf_addr` selects (`drivers/pci.c` lines 51–54). -/
def confWord (device : Word) (reg : ℕ) : ℕ :=
  ((device ||| (BitVec.ofNat 32 reg &&& ~~~3) ||| 0x80000000) >>> 2).toNat

/-- A register of a device in the configuration space of its bus, the byte lane in the
    low bits. -/
def confAddress (device : Word) (reg : ℕ) : ℕ := confWord device reg * 4 + reg % 4

namespace State

/-- The configuration space of the bus that was set up last. -/
def bus (s : State) : ConfigSpace := s.config s.windows.confAddr

def setBus (s : State) (c : ConfigSpace) : State :=
  { s with config := Function.update s.config s.windows.confAddr c }

/-- The cells below `n` may have been accessed. -/
def touch (s : State) (n : ℕ) : State := { s with reach := max s.reach n }

end State

/-- The loop that only prints (lines 128–134). -/
def printLoop (n i : ℕ) (s : State) : State :=
  if _h : i < n then printLoop n (i + 5) (s.touch (i + 1)) else s
termination_by n - i

/-- `memcpy(&cells[i], &cells[i + 5], 5 * sizeof(cells[9]))` (line 149). -/
def copyEntry (cells : ℕ → Word) (i : ℕ) : ℕ → Word := fun j =>
  if i ≤ j ∧ j < i + 5 then cells (j + 5) else cells j

/-- The loop that assigns addresses (lines 148–152), with the last value of `i`. -/
def shiftLoop (n i : ℕ) (s : State) : ℕ × State :=
  if _h : i + 5 < n then
    let cells := copyEntry s.cells i
    let (ret, w) := addrForBar s.windows (cells i) (cells (i + 4))
    shiftLoop n (i + 5)
      ({ s with windows := w, cells := Function.update cells (i + 2) ret }.touch (i + 10))
  else (i, s)
termination_by n - i

/-- Lines 166–169: a 64-bit entry becomes a 32-bit one. -/
def truncate64 (physHi : Word) : Word :=
  if physHiType physHi = 3 then physHi &&& ~~~((1 : Word) <<< 24) else physHi

/-- Lines 171–174: the register of the expansion ROM. -/
def fixRom (physHi : Word) : Word := if physHi &&& 0xff = 0x28 then physHi + 8 else physHi

/-- Whether lines 166–174 set `setprop`. -/
def needsFix (physHi : Word) : Bool :=
  physHiType physHi = 3 ∨ truncate64 physHi &&& 0xff = 0x28

/-- `val` of lines 175–177. -/
def barValue (iobase physHi physLo : Word) : Word :=
  let val := if physHiType physHi = 1 then (physLo - iobase) ||| 1 else physLo
  if physHi &&& physHiPrefetch ≠ 0 then val ||| 8 else val

/-- Lines 178–184: the register of an entry is written unless it reads as computed. -/
def writeEntry (iobase devfn : Word) (same : Bool) (physHi physLo : Word) (c : ConfigSpace) :
    ConfigSpace :=
  let addr := confAddress devfn (physHi &&& 0xff).toNat
  let val := barValue iobase physHi physLo
  let reg := Pci.pciReadConfig32 c addr
  let val := if reg &&& 4 ≠ 0 then val ||| 4 else val
  if reg ≠ val ∧ same then Pci.pciWriteConfig32 c addr val else c

/-- The loop over the entries (lines 164–186), with the last value of `setprop`.
    `same` says that the tree and the device agree on the IDs. -/
def fixLoop (devfn : Word) (same : Bool) (n i : ℕ) (setprop : Bool) (s : State) : Bool × State :=
  if _h : i < n then
    let physHi := fixRom (truncate64 (s.cells i))
    let c := writeEntry s.windows.iobase devfn same physHi (s.cells (i + 2)) s.bus
    fixLoop devfn same n (i + 5) (setprop || needsFix (s.cells i))
      (({ s with cells := Function.update s.cells i physHi }.setBus c).touch (i + 5))
  else (setprop, s)
termination_by n - i

/-- Lines 117–122: what is enabled whatever the tree says of it. -/
def enableDevice (devfn vendorId deviceId : Word) (c : ConfigSpace) : ConfigSpace :=
  let command := confAddress devfn Pci.regCommand
  let c := if pciBus devfn = 0 ∧ pciSlot devfn = 0xc ∧ (pciFunc devfn = 2 ∨ pciFunc devfn = 3)
    then Pci.pciWriteConfig16 c command 7 else c
  if vendorId = 0x1000 ∧ deviceId < 0x14 then Pci.pciWriteConfig16 c command 7 else c

/-- Lines 156–160: an interrupt for a device that has none. -/
def setInterrupt (devfn : Word) (same : Bool) (c : ConfigSpace) : ConfigSpace :=
  let line := confAddress devfn Pci.regInterruptLine
  let intLine := Pci.pciReadConfig8 c line
  if (intLine = 0 ∨ intLine = 0xff) ∧ same then Pci.pciWriteConfig8 c line 9 else c

/-- Lines 111–115: the interrupt controller of the south bridge. -/
def levelTrigger (vendev : Word) (s : State) : State :=
  if vendev = 0x82311106 then
    { s with ports := s.ports ++ [(s.windows.iobase + 0x4d0, 0xa4), (s.windows.iobase + 0x4d1, 0xe)] }
  else s

/-- Lines 163–188: the entries in `cells`, and the property if it has to be set. -/
def finishNode (node : Node) (devfn : Word) (same : Bool) (n : ℕ) (setprop : Bool) (s : State) :
    Node × State :=
  let (setprop, s) := fixLoop devfn same n 0 setprop s
  if setprop then
    ({ node with assignedAddresses := some (setpropValue s.cells n) }, s.touch n)
  else (node, s)

/-- Lines 136–188: the entries of a device, found or made from the `n` cells of `reg`. -/
def assignNode (node : Node) (devfn : Word) (same : Bool) (n : ℕ) (s : State) : Node × State :=
  let (ret, cells) := promGetpropCells node.assignedAddresses s.cells
  let s := { s with cells }
  if ret < 0 then
    if n < 6 then ({ node with assignedAddresses := some [] }, s)
    else
      let (i, s) := shiftLoop n 0 s
      let s := s.setBus (setInterrupt devfn same s.bus)
      finishNode node devfn same i true s
  else finishNode node devfn same (ret.toNat / 4) false s

/-- Lines 110–188, once the properties are there. -/
def checkDevice (node : Node) (vendorId deviceId devfn : Word) (n : ℕ) (s : State) : Node × State :=
  let vendev := Pci.pciReadConfig32 s.bus (confAddress devfn Pci.regVendorId)
  let s := levelTrigger vendev s
  let s := s.setBus (enableDevice devfn vendorId deviceId s.bus)
  assignNode node devfn (vendev = (deviceId <<< 16 ||| vendorId)) n (printLoop n 5 s)

/-- One pass of `check_one_bus` (lines 91–189). -/
def checkNode (s : State) (node : Node) : Node × State :=
  match node.name, promGetpropWord node.vendorId, promGetpropWord node.deviceId,
    promGetpropWord node.classCode with
  | some _, some vendorId, some deviceId, some _ =>
    let (ret, cells) := promGetpropCells node.reg s.cells
    let s := { s with cells }
    if ret < 5 then (node, s)
    else checkDevice node vendorId deviceId (s.cells 0) (ret.toNat / 4) (s.touch 1)
  | _, _, _, _ => (node, s)

/-- `check_one_bus` (lines 88–190), on the children of the bus. -/
def checkOneBus (s : State) : List Node → List Node × State
  | [] => ([], s)
  | node :: nodes =>
    let (node, s) := checkNode s node
    let (nodes, s) := checkOneBus s nodes
    (node :: nodes, s)

/-- The static variables of a program that has just been started. -/
def freshState (config : Word → ConfigSpace) : State where
  windows := ⟨0, 0, 0, 0, 0, 0, 0, 0, 0⟩
  cells := fun _ => 0
  reach := 0
  config := config
  ports := []

/-! ## The loops on whole entries -/

/-- What lines 166–174 make of an entry. -/
def Entry.fix (e : Entry) : Entry := { e with physHi := fixRom (truncate64 e.physHi) }

/-- The addresses `addr_for_bar` hands out for the entries of `reg`, in order. -/
def assign (w : PciWindows) : List Entry → List Entry × PciWindows
  | [] => ([], w)
  | e :: es =>
    let r := addrForBar w e.physHi e.sizeLo
    let rest := assign r.2 es
    ({ e with physLo := r.1 } :: rest.1, rest.2)

/-- The registers of the entries, written one after the other. -/
def writeEntries (iobase devfn : Word) (same : Bool) : List Entry → ConfigSpace → ConfigSpace
  | [], c => c
  | e :: es, c =>
    writeEntries iobase devfn same es (writeEntry iobase devfn same e.physHi e.physLo c)

/-- The statics that `addr_for_bar` does not change. -/
structure SameBus (w w' : PciWindows) : Prop where
  confAddr : w'.confAddr = w.confAddr
  iobase : w'.iobase = w.iobase
  iolen : w'.iolen = w.iolen
  membase : w'.membase = w.membase
  memlen : w'.memlen = w.memlen

theorem sameBus_addrForBar (w : PciWindows) (physhi size : Word) :
    SameBus w (addrForBar w physhi size).2 := by
  unfold addrForBar
  dsimp only
  split_ifs <;> exact ⟨rfl, rfl, rfl, rfl, rfl⟩

theorem SameBus.trans {w w' w'' : PciWindows} (h : SameBus w w') (h' : SameBus w' w'') :
    SameBus w w'' where
  confAddr := h'.confAddr.trans h.confAddr
  iobase := h'.iobase.trans h.iobase
  iolen := h'.iolen.trans h.iolen
  membase := h'.membase.trans h.membase
  memlen := h'.memlen.trans h.memlen

theorem SameBus.symm {w w' : PciWindows} (h : SameBus w w') : SameBus w' w where
  confAddr := h.confAddr.symm
  iobase := h.iobase.symm
  iolen := h.iolen.symm
  membase := h.membase.symm
  memlen := h.memlen.symm

theorem sameBus_assign (w : PciWindows) (es : List Entry) : SameBus w (assign w es).2 := by
  induction es generalizing w with
  | nil => exact ⟨rfl, rfl, rfl, rfl, rfl⟩
  | cons e es ih => exact (sameBus_addrForBar ..).trans (ih _)

theorem assign_length (w : PciWindows) (es : List Entry) : (assign w es).1.length = es.length := by
  induction es generalizing w with
  | nil => rfl
  | cons e es ih =>
    show (assign _ es).1.length + 1 = es.length + 1
    rw [ih]

theorem fix_eq_self {e : Entry} (h : needsFix e.physHi = false) : e.fix = e := by
  obtain ⟨h64, hrom⟩ := not_or.mp (of_decide_eq_false h)
  have htrunc : truncate64 e.physHi = e.physHi := if_neg h64
  rw [Entry.fix, fixRom, if_neg hrom, htrunc]

theorem Holds.congr {cells cells' : ℕ → Word} {i : ℕ} {es : List Entry}
    (heq : ∀ j, i ≤ j → cells' j = cells j) (h : Holds cells i es) : Holds cells' i es := by
  induction es generalizing i with
  | nil => trivial
  | cons e es ih =>
    obtain ⟨⟨h0, h1, h2, h3, h4⟩, hrest⟩ := h
    refine ⟨⟨?_, ?_, ?_, ?_, ?_⟩, ih (fun j hj => heq j (by omega)) hrest⟩
    · rw [heq _ (by omega), h0]
    · rw [heq _ (by omega), h1]
    · rw [heq _ (by omega), h2]
    · rw [heq _ (by omega), h3]
    · rw [heq _ (by omega), h4]

namespace State

@[simp] theorem setBus_bus (s : State) (c : ConfigSpace) : (s.setBus c).bus = c :=
  Function.update_self ..

theorem setBus_self (s : State) : s.setBus s.bus = s := by
  show { s with config := Function.update s.config s.windows.confAddr (s.config _) } = s
  rw [Function.update_eq_self]

theorem setBus_setBus (s : State) (c c' : ConfigSpace) : (s.setBus c).setBus c' = s.setBus c' := by
  unfold setBus
  dsimp only
  rw [Function.update_idem]

end State

theorem printLoop_spec (n i : ℕ) (s : State) :
    ∃ r, printLoop n i s = { s with reach := r } ∧ s.reach ≤ r ∧ r ≤ max s.reach n ∧
      ∀ k, i + 5 * k < n → i + 5 * k < r := by
  induction hm : n - i using Nat.strong_induction_on generalizing i s with
  | _ m ih =>
    by_cases hi : i < n
    · obtain ⟨r, heq, hle, hge, hall⟩ := ih (n - (i + 5)) (by omega) (i + 5) (s.touch (i + 1)) rfl
      have htouch : (s.touch (i + 1)).reach = max s.reach (i + 1) := rfl
      rw [htouch] at hle hge
      refine ⟨r, ?_, by omega, by omega, fun k hk => ?_⟩
      · rw [printLoop, dif_pos hi, heq]
        rfl
      · cases k with
        | zero => omega
        | succ k =>
          have := hall k (by omega)
          omega
    · refine ⟨s.reach, ?_, le_rfl, le_max_left .., fun k hk => by omega⟩
      rw [printLoop, dif_neg hi]

/-- **The loop that assigns addresses**, on the entries behind the first one. -/
theorem shiftLoop_spec {n i : ℕ} {s : State} {es : List Entry} (h : Holds s.cells (i + 5) es)
    (hn : n = i + 5 + 5 * es.length) :
    ∃ cells r, shiftLoop n i s =
        (i + 5 * es.length, { s with windows := (assign s.windows es).2, cells := cells, reach := r }) ∧
      Holds cells i (assign s.windows es).1 ∧ (∀ j < i, cells j = s.cells j) ∧
      s.reach ≤ r ∧ r ≤ max s.reach n := by
  induction es generalizing i s with
  | nil =>
    refine ⟨s.cells, s.reach, ?_, trivial, fun _ _ => rfl, le_rfl, le_max_left ..⟩
    rw [shiftLoop, dif_neg (by rw [hn, List.length_nil]; omega)]
    rfl
  | cons e es ih =>
    obtain ⟨⟨h0, h1, h2, h3, h4⟩, hrest⟩ := h
    rw [List.length_cons] at hn
    have hcopy : ∀ k < 5, copyEntry s.cells i (i + k) = s.cells (i + 5 + k) := by
      intro k hk
      rw [copyEntry, if_pos (by omega), Nat.add_right_comm]
    have hhi : copyEntry s.cells i i = e.physHi := (hcopy 0 (by omega)).trans h0
    have hsize : copyEntry s.cells i (i + 4) = e.sizeLo := (hcopy 4 (by omega)).trans h4
    let r := addrForBar s.windows e.physHi e.sizeLo
    let cells := Function.update (copyEntry s.cells i) (i + 2) r.1
    let s' : State := { s with windows := r.2, cells := cells }.touch (i + 10)
    have hbehind : ∀ j, i + 5 ≤ j → cells j = s.cells j := by
      intro j hj
      show Function.update _ _ _ j = _
      rw [Function.update_of_ne (by omega), copyEntry, if_neg (by omega)]
    obtain ⟨cells', r', heq, hholds, hframe, hle, hge⟩ := ih (i := i + 5) (s := s')
      (hrest.congr fun j hj => hbehind j (by omega)) (by omega)
    replace hframe : ∀ j < i + 5, cells' j = cells j := hframe
    replace hle : max s.reach (i + 10) ≤ r' := hle
    replace hge : r' ≤ max (max s.reach (i + 10)) n := hge
    refine ⟨cells', r', ?_, ⟨⟨?_, ?_, ?_, ?_, ?_⟩, hholds⟩, fun j hj => ?_, by omega, by omega⟩
    · rw [shiftLoop, dif_pos (by omega)]
      dsimp only
      rw [hhi, hsize]
      show shiftLoop n (i + 5) s' = _
      rw [heq, List.length_cons, show i + 5 + 5 * es.length = i + 5 * (es.length + 1) by omega]
      rfl
    · rw [hframe _ (by omega)]
      exact (Function.update_of_ne (by omega) ..).trans hhi
    · rw [hframe _ (by omega)]
      exact (Function.update_of_ne (by omega) ..).trans ((hcopy 1 (by omega)).trans h1)
    · rw [hframe _ (by omega)]
      exact Function.update_self ..
    · rw [hframe _ (by omega)]
      exact (Function.update_of_ne (by omega) ..).trans ((hcopy 3 (by omega)).trans h3)
    · rw [hframe _ (by omega)]
      exact (Function.update_of_ne (by omega) ..).trans hsize
    · rw [hframe _ (by omega)]
      show Function.update _ _ _ j = _
      rw [Function.update_of_ne (by omega), copyEntry, if_neg (by omega)]

/-- **The loop over the entries** fixes each and writes its register. -/
theorem fixLoop_spec (devfn : Word) (same setprop : Bool) {n i : ℕ} {s : State} {es : List Entry}
    (h : Holds s.cells i es) (hn : n = i + 5 * es.length) :
    ∃ cells r, fixLoop devfn same n i setprop s =
        (setprop || es.any (fun e => needsFix e.physHi),
          { s.setBus (writeEntries s.windows.iobase devfn same (es.map Entry.fix) s.bus) with
            cells := cells, reach := r }) ∧
      Holds cells i (es.map Entry.fix) ∧ (∀ j < i, cells j = s.cells j) ∧
      s.reach ≤ r ∧ r ≤ max s.reach n := by
  induction es generalizing i s setprop with
  | nil =>
    refine ⟨s.cells, s.reach, ?_, trivial, fun _ _ => rfl, le_rfl, le_max_left ..⟩
    rw [fixLoop, dif_neg (by rw [hn, List.length_nil]; omega), List.any_nil, Bool.or_false]
    show (setprop, s) = (setprop, s.setBus s.bus)
    rw [State.setBus_self]
  | cons e es ih =>
    obtain ⟨⟨h0, h1, h2, h3, h4⟩, hrest⟩ := h
    rw [List.length_cons] at hn
    let c := writeEntry s.windows.iobase devfn same e.fix.physHi e.physLo s.bus
    let cells := Function.update s.cells i e.fix.physHi
    let s' : State := ({ s with cells := cells }.setBus c).touch (i + 5)
    have hother : ∀ j, j ≠ i → cells j = s.cells j := fun j hj => Function.update_of_ne hj ..
    obtain ⟨cells', r', heq, hholds, hframe, hle, hge⟩ := ih (setprop || needsFix e.physHi)
      (i := i + 5) (s := s') (hrest.congr fun j hj => hother j (by omega)) (by omega)
    have hbus : s'.bus = c := State.setBus_bus { s with cells := cells } c
    replace hframe : ∀ j < i + 5, cells' j = cells j := hframe
    replace hle : max s.reach (i + 5) ≤ r' := hle
    replace hge : r' ≤ max (max s.reach (i + 5)) n := hge
    refine ⟨cells', r', ?_, ⟨⟨?_, ?_, ?_, ?_, ?_⟩, hholds⟩, fun j hj => ?_, by omega, by omega⟩
    · rw [fixLoop, dif_pos (by omega)]
      dsimp only
      rw [h0, h2]
      show fixLoop devfn same n (i + 5) (setprop || needsFix e.physHi) s' = _
      rw [heq, hbus, List.any_cons, Bool.or_assoc]
      show (_, { (s.setBus c).setBus _ with cells := cells', reach := r' }) = _
      rw [State.setBus_setBus]
      rfl
    · rw [hframe _ (by omega)]
      exact Function.update_self ..
    · rw [hframe _ (by omega), hother _ (by omega), h1]
      rfl
    · rw [hframe _ (by omega), hother _ (by omega), h2]
      rfl
    · rw [hframe _ (by omega), hother _ (by omega), h3]
      rfl
    · rw [hframe _ (by omega), hother _ (by omega), h4]
      rfl
    · rw [hframe _ (by omega), hother _ (by omega)]

/-- What follows the assignment, on entries that are in `cells`: the property holds
    the fixed entries if `setprop` was set or one of them is fixed. -/
theorem finishNode_spec (node : Node) (devfn : Word) (same setprop : Bool) {s : State}
    {es : List Entry} (h : Holds s.cells 0 es) :
    ∃ cells r, finishNode node devfn same (5 * es.length) setprop s =
        (if setprop || es.any (fun e => needsFix e.physHi) then
            { node with assignedAddresses := some (entryBytes (es.map Entry.fix)) }
          else node,
          { s.setBus (writeEntries s.windows.iobase devfn same (es.map Entry.fix) s.bus) with
            cells := cells, reach := r }) ∧
      s.reach ≤ r ∧ r ≤ max s.reach (5 * es.length) := by
  obtain ⟨cells, r, heq, hholds, -, hle, hge⟩ :=
    fixLoop_spec devfn same setprop h (Nat.zero_add _).symm
  unfold finishNode
  rw [heq]
  dsimp only
  split_ifs
  · refine ⟨cells, max r (5 * es.length), ?_, by omega, by omega⟩
    have hvalue : setpropValue cells (5 * es.length) = entryBytes (es.map Entry.fix) := by
      have := setpropValue_eq hholds
      rwa [List.length_map] at this
    rw [hvalue]
    rfl
  · exact ⟨cells, r, rfl, hle, hge⟩

/-! ## Devices -/

/-- A device: the properties of its node but for `assigned-addresses`. Its `reg` is the
    configuration space entry and one for each base address register. -/
structure Device where
  name : List Byte
  vendorId : Word
  deviceId : Word
  classCode : Word
  conf : Entry
  bars : List Entry

namespace Device

/-- The node of a device. -/
def node (d : Device) (assigned : Option (List Entry)) : Node where
  name := some d.name
  vendorId := some (cellBytes d.vendorId)
  deviceId := some (cellBytes d.deviceId)
  classCode := some (cellBytes d.classCode)
  reg := some (entryBytes (d.conf :: d.bars))
  assignedAddresses := assigned.map entryBytes

/-- `devfn`. -/
def devfn (d : Device) : Word := d.conf.physHi

/-- The device has the IDs of the node. -/
def same (d : Device) (c : ConfigSpace) : Bool :=
  Pci.pciReadConfig32 c (confAddress d.devfn Pci.regVendorId) = (d.deviceId <<< 16 ||| d.vendorId)

/-- `enableDevice` for this device. -/
def enable (d : Device) (c : ConfigSpace) : ConfigSpace :=
  enableDevice d.devfn d.vendorId d.deviceId c

/-- The entries that `check_one_bus` makes for the device. -/
def made (d : Device) (w : PciWindows) : List Entry := (assign w d.bars).1.map Entry.fix

end Device

/-- `s` with other contents of what does not outlive a pass, and with this reach. -/
def State.scratch (s : State) (cells : ℕ → Word) (r : ℕ) (ports : List (Word × Byte)) : State :=
  { s with cells := cells, reach := r, ports := ports }

theorem levelTrigger_eq (vendev : Word) (s : State) :
    ∃ ports, levelTrigger vendev s = { s with ports := ports } := by
  unfold levelTrigger
  split_ifs
  · exact ⟨_, rfl⟩
  · exact ⟨s.ports, rfl⟩

/-- Before the entries: the registers of the device are enabled, the cells of `reg` are
    looked at. -/
theorem checkDevice_eq (node : Node) (vendorId deviceId devfn : Word) (n : ℕ) (s : State) :
    ∃ r ports, s.reach ≤ r ∧ r ≤ max s.reach n ∧ (∀ k, 5 + 5 * k < n → 5 + 5 * k < r) ∧
      checkDevice node vendorId deviceId devfn n s =
        assignNode node devfn
          (Pci.pciReadConfig32 s.bus (confAddress devfn Pci.regVendorId) =
            (deviceId <<< 16 ||| vendorId)) n
          ((s.setBus (enableDevice devfn vendorId deviceId s.bus)).scratch s.cells r ports) := by
  obtain ⟨ports, hports⟩ :=
    levelTrigger_eq (Pci.pciReadConfig32 s.bus (confAddress devfn Pci.regVendorId)) s
  let s' := (s.setBus (enableDevice devfn vendorId deviceId s.bus)).scratch s.cells s.reach ports
  obtain ⟨r, hprint, hle, hge, hall⟩ := printLoop_spec n 5 s'
  refine ⟨r, ports, hle, hge, hall, ?_⟩
  unfold checkDevice
  dsimp only
  rw [hports]
  show assignNode _ _ _ _ (printLoop n 5 s') = _
  rw [hprint]
  rfl

/-- The properties of a device are there. -/
theorem checkNode_eq (d : Device) (s : State) (assigned : Option (List Entry)) :
    checkNode s (d.node assigned) =
      checkDevice (d.node assigned) d.vendorId d.deviceId
        ((promGetpropCells (some (entryBytes (d.conf :: d.bars))) s.cells).2 0)
        (5 * (d.bars.length + 1)) (State.touch
          { s with cells := (promGetpropCells (some (entryBytes (d.conf :: d.bars))) s.cells).2 } 1) := by
  have hlen : (promGetpropCells (some (entryBytes (d.conf :: d.bars))) s.cells).1 =
      ((20 * (d.bars.length + 1) : ℕ) : ℤ) := by
    rw [promGetpropCells_length, List.length_cons]
  have hn : (((20 * (d.bars.length + 1) : ℕ) : ℤ)).toNat / 4 = 5 * (d.bars.length + 1) := by
    omega
  unfold checkNode
  dsimp only [Device.node]
  rw [promGetpropWord_cellBytes, promGetpropWord_cellBytes, promGetpropWord_cellBytes]
  dsimp only
  rw [hlen, if_neg (by omega), hn]

/-- **The start of a pass** over a device whose `reg` fits: its registers are enabled,
    `reg` is in `cells`. -/
theorem checkNode_device {d : Device} (hbars : d.bars.length ≤ 6) (s : State)
    (assigned : Option (List Entry)) :
    ∃ cells r ports, Holds cells 0 (d.conf :: d.bars) ∧ s.reach ≤ r ∧ r ≤ max s.reach 35 ∧
      checkNode s (d.node assigned) =
        assignNode (d.node assigned) d.devfn (d.same s.bus) (5 * (d.bars.length + 1))
          ((s.setBus (d.enable s.bus)).scratch cells r ports) := by
  obtain ⟨cells, hget, hholds⟩ := getprop_holds (d.conf :: d.bars)
    (by rw [List.length_cons]; omega) s.cells
  have hdevfn : cells 0 = d.devfn := hholds.1.1
  obtain ⟨r, ports, hle, hge, -, hcheck⟩ := checkDevice_eq (d.node assigned) d.vendorId d.deviceId
    d.devfn (5 * (d.bars.length + 1)) (State.touch { s with cells := cells } 1)
  replace hle : max s.reach 1 ≤ r := hle
  replace hge : r ≤ max (max s.reach 1) (5 * (d.bars.length + 1)) := hge
  refine ⟨cells, r, ports, hholds, by omega, by omega, ?_⟩
  rw [checkNode_eq, hget]
  dsimp only
  rw [hdevfn]
  exact hcheck

theorem assignNode_unlisted {node : Node} (hprop : node.assignedAddresses = none) (devfn : Word)
    (same : Bool) (n : ℕ) (s : State) :
    assignNode node devfn same n s =
      if n < 6 then ({ node with assignedAddresses := some [] }, s)
      else
        let r := shiftLoop n 0 s
        finishNode node devfn same r.1 true (r.2.setBus (setInterrupt devfn same r.2.bus)) := by
  unfold assignNode
  rw [hprop]
  rfl

/-- **A device without base address registers** gets an empty property. -/
theorem checkNode_bare {d : Device} (hbars : d.bars = []) (s : State) :
    ∃ cells r ports, s.reach ≤ r ∧ r ≤ max s.reach 35 ∧
      checkNode s (d.node none) =
        (d.node (some []), (s.setBus (d.enable s.bus)).scratch cells r ports) := by
  obtain ⟨cells, r, ports, -, hle, hge, heq⟩ :=
    checkNode_device (d := d) (by rw [hbars]; exact Nat.zero_le 6) s none
  refine ⟨cells, r, ports, hle, hge, ?_⟩
  rw [heq, assignNode_unlisted rfl, if_pos (by rw [hbars, List.length_nil]; omega)]
  rfl

/-- **A device without `assigned-addresses`**: an address for each entry of `reg` but
    the first, an interrupt, then as for those found. -/
theorem checkNode_unlisted {d : Device} (hbars : d.bars ≠ []) (hlen : d.bars.length ≤ 6) (s : State) :
    ∃ cells r ports, s.reach ≤ r ∧ r ≤ max s.reach 35 ∧
      checkNode s (d.node none) =
        (d.node (some (d.made s.windows)),
          { (s.setBus (writeEntries s.windows.iobase d.devfn (d.same s.bus) (d.made s.windows)
              (setInterrupt d.devfn (d.same s.bus) (d.enable s.bus)))).scratch cells r ports with
            windows := (assign s.windows d.bars).2 }) := by
  obtain ⟨cells, r, ports, hholds, hle, hge, heq⟩ := checkNode_device hlen s none
  let s₁ := (s.setBus (d.enable s.bus)).scratch cells r ports
  have hpos : 0 < d.bars.length := List.length_pos_iff.mpr hbars
  obtain ⟨cells', r', hshift, hassigned, -, hle', hge'⟩ :=
    shiftLoop_spec (n := 5 * (d.bars.length + 1)) (i := 0) (s := s₁) hholds.2 (by omega)
  replace hassigned : Holds cells' 0 (assign s.windows d.bars).1 := hassigned
  have hsame := sameBus_assign s.windows d.bars
  let s₂ : State := { s₁ with windows := (assign s.windows d.bars).2, cells := cells', reach := r' }
  have hbus₁ : s₁.bus = d.enable s.bus := State.setBus_bus s (d.enable s.bus)
  have hbus₂ : s₂.bus = d.enable s.bus := by
    rw [← hbus₁]
    show s₁.config (assign s.windows d.bars).2.confAddr = s₁.config s.windows.confAddr
    rw [hsame.confAddr]
  let c := setInterrupt d.devfn (d.same s.bus) (d.enable s.bus)
  have hbus₃ : (s₂.setBus c).bus = c := State.setBus_bus s₂ c
  obtain ⟨cells'', r'', hfinish, hle'', hge''⟩ :=
    finishNode_spec (d.node none) d.devfn (d.same s.bus) true (s := s₂.setBus c) hassigned
  have hnode : (if (true || (assign s.windows d.bars).1.any fun e => needsFix e.physHi) = true then
      { d.node none with
        assignedAddresses := some (entryBytes ((assign s.windows d.bars).1.map Entry.fix)) }
      else d.node none) = d.node (some (d.made s.windows)) := if_pos rfl
  have hconfig : ∀ x, (s₂.setBus x).config = (s.setBus x).config := by
    intro x
    show Function.update (Function.update s.config s.windows.confAddr _)
      (assign s.windows d.bars).2.confAddr x = Function.update s.config s.windows.confAddr x
    rw [hsame.confAddr, Function.update_idem]
  have hi : 0 + 5 * d.bars.length = 5 * (assign s.windows d.bars).1.length := by
    rw [assign_length, Nat.zero_add]
  have hiobase : (s₂.setBus c).windows.iobase = s.windows.iobase := hsame.iobase
  rw [assign_length] at hge''
  replace hle' : r ≤ r' := hle'
  replace hge' : r' ≤ max r (5 * (d.bars.length + 1)) := hge'
  replace hle'' : r' ≤ r'' := hle''
  replace hge'' : r'' ≤ max r' (5 * d.bars.length) := hge''
  refine ⟨cells'', r'', ports, by omega, by omega, ?_⟩
  rw [heq, assignNode_unlisted rfl, if_neg (by omega), hshift]
  show finishNode _ _ _ (0 + 5 * d.bars.length) true (s₂.setBus (setInterrupt _ _ s₂.bus)) = _
  rw [hbus₂, hi]
  show finishNode _ _ _ _ true (s₂.setBus c) = _
  rw [hfinish, hnode, hbus₃, hiobase, State.setBus_setBus]
  show (_, (⟨(assign s.windows d.bars).2, cells'', r'', (s₂.setBus _).config, ports⟩ : State)) = _
  rw [hconfig]
  rfl

/-! ## Reach -/

theorem shiftLoop_reach (n i : ℕ) (s : State) : s.reach ≤ (shiftLoop n i s).2.reach := by
  induction hm : n - i using Nat.strong_induction_on generalizing i s with
  | _ m ih =>
    rw [shiftLoop]
    split_ifs with hi
    · refine le_trans ?_ (ih (n - (i + 5)) (by omega) _ _ rfl)
      exact le_max_left ..
    · exact le_rfl

theorem fixLoop_reach (devfn : Word) (same : Bool) (n i : ℕ) (setprop : Bool) (s : State) :
    s.reach ≤ (fixLoop devfn same n i setprop s).2.reach := by
  induction hm : n - i using Nat.strong_induction_on generalizing i s setprop with
  | _ m ih =>
    rw [fixLoop]
    split_ifs with hi
    · refine le_trans ?_ (ih (n - (i + 5)) (by omega) _ _ _ rfl)
      exact le_max_left ..
    · exact le_rfl

theorem finishNode_reach (node : Node) (devfn : Word) (same : Bool) (n : ℕ) (setprop : Bool)
    (s : State) : s.reach ≤ (finishNode node devfn same n setprop s).2.reach := by
  have hloop := fixLoop_reach devfn same n 0 setprop s
  unfold finishNode
  dsimp only
  split_ifs
  · exact hloop.trans (le_max_left ..)
  · exact hloop

theorem assignNode_reach (node : Node) (devfn : Word) (same : Bool) (n : ℕ) (s : State) :
    s.reach ≤ (assignNode node devfn same n s).2.reach := by
  unfold assignNode
  dsimp only
  split_ifs
  · exact le_rfl
  · refine le_trans ?_ (finishNode_reach ..)
    exact shiftLoop_reach n 0 { s with cells := (promGetpropCells node.assignedAddresses s.cells).2 }
  · refine le_trans ?_ (finishNode_reach ..)
    exact le_rfl

/-- The pass over a node never forgets an access. -/
theorem checkNode_reach (s : State) (node : Node) : s.reach ≤ (checkNode s node).2.reach := by
  unfold checkNode
  dsimp only
  split
  · split_ifs
    · exact le_rfl
    · rename_i vendorId deviceId _ _ _ _ _ _
      obtain ⟨r, ports, hle, -, -, heq⟩ := checkDevice_eq node vendorId deviceId
        ((promGetpropCells node.reg s.cells).2 0) ((promGetpropCells node.reg s.cells).1.toNat / 4)
        (State.touch { s with cells := (promGetpropCells node.reg s.cells).2 } 1)
      rw [heq]
      refine le_trans ?_ (assignNode_reach ..)
      exact (le_max_left ..).trans hle
  · exact le_rfl

theorem checkOneBus_reach (s : State) (nodes : List Node) :
    s.reach ≤ (checkOneBus s nodes).2.reach := by
  induction nodes generalizing s with
  | nil => exact le_rfl
  | cons node nodes ih => exact (checkNode_reach s node).trans (ih _)

/-- Seven base address registers and the configuration entry are 40 cells: the loop
    that prints already reads the first one behind the array. -/
theorem checkNode_overruns {d : Device} (hbars : 7 ≤ d.bars.length) (s : State)
    (assigned : Option (List Entry)) : 35 < (checkNode s (d.node assigned)).2.reach := by
  obtain ⟨r, ports, -, -, hall, heq⟩ := checkDevice_eq (d.node assigned) d.vendorId d.deviceId
    ((promGetpropCells (some (entryBytes (d.conf :: d.bars))) s.cells).2 0) (5 * (d.bars.length + 1))
    (State.touch
      { s with cells := (promGetpropCells (some (entryBytes (d.conf :: d.bars))) s.cells).2 } 1)
  rw [checkNode_eq, heq]
  have hprint := hall 6 (by omega)
  refine lt_of_lt_of_le ?_ (assignNode_reach ..)
  exact hprint

end BBoot.Pegasos2
