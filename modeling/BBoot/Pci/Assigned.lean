import BBoot.Pci.CheckBus

/-!
# What `check_one_bus` puts into `assigned-addresses`

`cells` has room for seven entries of five cells. The `reg` of a device is its
configuration space entry, one for each base address register and one for the
expansion ROM, which makes eight for a device that has all of them; the code takes
the number of entries from the length of the property.

Results:
* `checkOneBus_lists_iff`: `cells` is not overrun and every device gets one entry for
  each of its registers exactly when no device has more than six.
-/

namespace BBoot.Pegasos2

/-- A value of `assigned-addresses` lists the registers `bars`, in order: the address
    with the fixes of `check_one_bus`, and the size. -/
def Lists (bars : List Entry) (value : Option (List Byte)) : Prop :=
  ∃ es, value = some (entryBytes es) ∧
    List.Forall₂ (fun bar e => e.physHi = fixRom (truncate64 bar.physHi) ∧
      e.physMid = bar.physMid ∧ e.sizeHi = bar.sizeHi ∧ e.sizeLo = bar.sizeLo) bars es

theorem made_lists (d : Device) (w : PciWindows) : Lists d.bars (some (entryBytes (d.made w))) := by
  refine ⟨d.made w, rfl, ?_⟩
  rw [Device.made]
  induction d.bars generalizing w with
  | nil => exact List.Forall₂.nil
  | cons e es ih => exact List.Forall₂.cons ⟨rfl, rfl, rfl, rfl⟩ (ih _)

/-- A device with at most six registers gets its list, within `cells`. -/
theorem checkNode_lists {d : Device} (hbars : d.bars.length ≤ 6) (s : State) :
    (checkNode s (d.node none)).2.reach ≤ max s.reach 35 ∧
      Lists d.bars (checkNode s (d.node none)).1.assignedAddresses := by
  by_cases hbare : d.bars = []
  · obtain ⟨cells, r, ports, -, hge, heq⟩ := checkNode_bare hbare s
    rw [heq, hbare]
    exact ⟨hge, [], rfl, List.Forall₂.nil⟩
  · obtain ⟨cells, r, ports, -, hge, heq⟩ := checkNode_unlisted hbare hbars s
    rw [heq]
    exact ⟨hge, made_lists d s.windows⟩

/-- A device with more than six overruns `cells`, wherever it is on the bus. -/
theorem checkOneBus_overruns {d : Device} {ds : List Device} (hd : d ∈ ds) (hbars : 7 ≤ d.bars.length)
    (s : State) : 35 < (checkOneBus s (ds.map fun d => d.node none)).2.reach := by
  induction ds generalizing s with
  | nil => exact absurd hd List.not_mem_nil
  | cons e ds ih =>
    let s' := (checkNode s (e.node none)).2
    show 35 < (checkOneBus s' (ds.map fun d => d.node none)).2.reach
    rcases List.mem_cons.mp hd with rfl | hd
    · exact (checkNode_overruns hbars s none).trans_le (checkOneBus_reach s' _)
    · exact ih hd s'

/-- A bus without such a device does not. -/
theorem checkOneBus_within {ds : List Device} (hbars : ∀ d ∈ ds, d.bars.length ≤ 6) {s : State}
    (hs : s.reach ≤ 35) : (checkOneBus s (ds.map fun d => d.node none)).2.reach ≤ 35 := by
  induction ds generalizing s with
  | nil => exact hs
  | cons d ds ih =>
    let s' := (checkNode s (d.node none)).2
    have hreach : s'.reach ≤ max s.reach 35 := (checkNode_lists (hbars d List.mem_cons_self) s).1
    show (checkOneBus s' (ds.map fun d => d.node none)).2.reach ≤ 35
    exact ih (fun e he => hbars e (List.mem_cons_of_mem _ he)) (hreach.trans (max_le hs le_rfl))

/-- **The entries of a bus.** For every bus of devices without `assigned-addresses`,
    `check_one_bus` stays within `cells` and gives every device one entry for each of
    its registers if and only if no device has more than six of them. -/
theorem checkOneBus_lists_iff {s : State} (hs : s.reach ≤ 35) (ds : List Device) :
    ((checkOneBus s (ds.map fun d => d.node none)).2.reach ≤ 35 ∧
        List.Forall₂ (fun d (node : Node) => Lists d.bars node.assignedAddresses) ds
          (checkOneBus s (ds.map fun d => d.node none)).1) ↔
      ∀ d ∈ ds, d.bars.length ≤ 6 := by
  induction ds generalizing s with
  | nil => exact ⟨fun _ _ h => absurd h List.not_mem_nil, fun _ => ⟨hs, List.Forall₂.nil⟩⟩
  | cons d ds ih =>
    let s' := (checkNode s (d.node none)).2
    show ((checkOneBus s' (ds.map fun d => d.node none)).2.reach ≤ 35 ∧
      List.Forall₂ _ (d :: ds) ((checkNode s (d.node none)).1 ::
        (checkOneBus s' (ds.map fun d => d.node none)).1)) ↔ _
    rw [List.forall₂_cons, List.forall_mem_cons]
    by_cases hbars : d.bars.length ≤ 6
    · obtain ⟨hreach, hlists⟩ := checkNode_lists hbars s
      rw [and_iff_right hlists, and_iff_right hbars]
      exact ih (hreach.trans (max_le hs le_rfl))
    · refine iff_of_false (fun h => ?_) fun h => hbars h.1
      have hover : 35 < (checkOneBus s' (ds.map fun d => d.node none)).2.reach :=
        checkOneBus_overruns List.mem_cons_self (by omega : 7 ≤ d.bars.length) s
      omega

/-- The entry of a memory register of 4 KiB. -/
def memoryEntry (reg : Word) : Entry := ⟨0x02000000 ||| reg, 0, 0, 0, 0x1000⟩

/-- A device with these registers. -/
def deviceWith (regs : List Word) : Device where
  name := [0x65, 0x74, 0x68]
  vendorId := 0x10ec
  deviceId := 0x8139
  classCode := 0x020000
  conf := ⟨0x00000800, 0, 0, 0, 0⟩
  bars := regs.map fun reg => memoryEntry (0x00000800 ||| reg)

/-- Configuration space of a bus on which nothing answers. -/
def noDevices : Pci.ConfigSpace := ⟨fun _ => 0xffffffff, fun _ => 0⟩

/-- Six registers and the expansion ROM overrun `cells`. -/
theorem sixBarsAndRom_overrun :
    ¬ ((checkOneBus (freshState fun _ => noDevices)
        ([deviceWith [0x10, 0x14, 0x18, 0x1c, 0x20, 0x24, 0x30]].map fun d => d.node none)).2.reach ≤ 35 ∧
      List.Forall₂ (fun d (node : Node) => Lists d.bars node.assignedAddresses)
        [deviceWith [0x10, 0x14, 0x18, 0x1c, 0x20, 0x24, 0x30]]
        (checkOneBus (freshState fun _ => noDevices)
          ([deviceWith [0x10, 0x14, 0x18, 0x1c, 0x20, 0x24, 0x30]].map fun d => d.node none)).1) := by
  rintro ⟨hreach, -⟩
  have hover := checkOneBus_overruns
    (List.mem_singleton_self (deviceWith [0x10, 0x14, 0x18, 0x1c, 0x20, 0x24, 0x30])) (by decide)
    (freshState fun _ => noDevices)
  omega

/-- Six registers and no expansion ROM fit. -/
theorem sixBars_listed :
    (checkOneBus (freshState fun _ => noDevices)
        ([deviceWith [0x10, 0x14, 0x18, 0x1c, 0x20, 0x24]].map fun d => d.node none)).2.reach ≤ 35 :=
  ((checkOneBus_lists_iff (s := freshState fun _ => noDevices) (Nat.zero_le 35) _).mpr (by decide)).1

end BBoot.Pegasos2
