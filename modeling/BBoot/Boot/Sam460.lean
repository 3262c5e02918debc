import BBoot.Common.Store
import BBoot.Common.Tlb
import BBoot.Fdt.Lookup

/-!
# The address map of the sam460

`sam460_init` of `brd_sam460.c` takes the memory size from the device tree, has
`setup_tlb` map RAM in pages of 256 MiB behind the fixed windows of `tlbtab`, and
puts the stack of the hand-over below the top of RAM, of which it counts eight
pages at most: "what setup_tlb maps". `setup_tlb` itself stops only at the last
free entry, so that above 2 GiB RAM runs into the PCI windows, and close to 4 GiB
the rounding wraps and one page is left.

Results:
* `setupTlb_entry`: what every entry of the TLB holds after `setup_tlb`.
* `readFdt_memsize`: the size used is the one the tree reports.
* `addressMap_iff`: the map is consistent, and the stack in mapped RAM, exactly
  up to 2 GiB.
-/

namespace BBoot.Sam460

open BBoot.Fdt

/-! ## Model -/

/-- `TLB_VALID` (line 80). -/
def tlbValid : Word := 0x00000200

/-- `TLB_1K` (line 81). -/
def tlb1K : Word := 0x00000000

/-- `TLB_16K` (line 83). -/
def tlb16K : Word := 0x00000020

/-- `TLB_1M` (line 86). -/
def tlb1M : Word := 0x00000050

/-- `TLB_16M` (line 87). -/
def tlb16M : Word := 0x00000070

/-- `TLB_256M` (line 88). -/
def tlb256M : Word := 0x00000090

/-- `SA_I` (line 92). -/
def saI : Word := 0x00000400

/-- `SA_G` (line 94). -/
def saG : Word := 0x00000100

/-- `AC_X` (line 95). -/
def acX : Word := 0x00000024

/-- `AC_W` (line 96). -/
def acW : Word := 0x00000012

/-- `AC_R` (line 97). -/
def acR : Word := 0x00000009

/-- `AC_RW` (line 98). -/
def acRw : Word := acR ||| acW

/-- `AC_RWX` (line 99). -/
def acRwx : Word := acR ||| acW ||| acX

/-- `write_tlb` (lines 102–114). -/
def writeTlb (index : ℕ) (w0 w1 w2 : Word) : Tlb.Write := ⟨index, ⟨w0, w1, w2⟩⟩

/-- A row of `tlbtab`. -/
structure TlbRow where
  epn : Word
  size : Word
  rpn : Word
  erpn : Word
  attr : Word

/-- `tlbtab` (lines 204–231). -/
def tlbtab : List TlbRow := [
  -- EBC boot space
  ⟨0xF0000000, tlb256M, 0xF0000000, 0x4, acRwx ||| saG⟩,
  -- internal PCI registers, PCI memory windows, PCIe memory windows
  ⟨0xD0000000, tlb256M, 0x00000000, 0xC, acRw ||| saG ||| saI⟩,
  ⟨0x80000000, tlb256M, 0x80000000, 0xC, acRw ||| saG ||| saI⟩,
  ⟨0x90000000, tlb256M, 0x90000000, 0xC, acRw ||| saG ||| saI⟩,
  ⟨0xA0000000, tlb256M, 0xA0000000, 0xD, acRw ||| saG ||| saI⟩,
  ⟨0xB0000000, tlb256M, 0xB0000000, 0xD, acRw ||| saG ||| saI⟩,
  ⟨0xC0000000, tlb256M, 0xC0000000, 0xD, acRw ||| saG ||| saI⟩,
  -- PCIe configuration space
  ⟨0xE0000000, tlb16M, 0x00000000, 0xD, acRw ||| saG ||| saI⟩,
  ⟨0xE1000000, tlb16M, 0x20000000, 0xD, acRw ||| saG ||| saI⟩,
  ⟨0xE3000000, tlb1K, 0x10000000, 0xD, acRw ||| saG ||| saI⟩,
  ⟨0xE3001000, tlb1K, 0x30000000, 0xD, acRw ||| saG ||| saI⟩,
  -- PCIe UTL registers, on chip memory, local configuration registers, AHB
  ⟨0xE4000000, tlb16K, 0x08010000, 0xC, acRw ||| saG ||| saI⟩,
  ⟨0xE5000000, tlb1M, 0x00000000, 0x4, acRwx ||| saI⟩,
  ⟨0xEF000000, tlb16M, 0xEF000000, 0x4, acRwx ||| saG ||| saI⟩,
  ⟨0xE2000000, tlb1M, 0xBFF00000, 0x4, acRwx ||| saG ||| saI⟩]

/-- The words of a row (lines 262–263). -/
def TlbRow.entry (r : TlbRow) : TlbEntry :=
  ⟨r.epn ||| tlbValid ||| r.size, r.rpn ||| r.erpn, r.attr⟩

/-- The words of the page `i` of RAM (lines 257–258). -/
def ramPage (i : ℕ) : TlbEntry :=
  ⟨BitVec.ofNat 32 i <<< 28 ||| tlbValid ||| tlb256M, BitVec.ofNat 32 i <<< 28, acRwx ||| saI⟩

/-- `pages` of `setup_tlb` (lines 254–256). -/
def tlbPages (memsize : Word) : Word :=
  let n : Word := BitVec.ofNat 32 tlbtab.length
  let pages := (memsize + 0xfffffff) >>> 28
  let pages := if pages = 0 then 1 else pages
  if pages > 64 - n then 64 - n else pages

/-- `setup_tlb` (lines 233–266): the entries it writes, in order. -/
def setupTlb (memsize : Word) : List Tlb.Write :=
  let n := tlbtab.length
  (List.range (tlbPages memsize).toNat).map (fun i =>
      writeTlb (n + i) (ramPage i).word0 (ramPage i).word1 (ramPage i).word2) ++
    tlbtab.mapIdx fun i r => writeTlb i r.entry.word0 r.entry.word1 r.entry.word2

/-- The names `"memory"` and `"reg"`. -/
def memoryName : CStr := ⟨[0x6d, 0x65, 0x6d, 0x6f, 0x72, 0x79], by decide⟩

def regName : CStr := ⟨[0x72, 0x65, 0x67], by decide⟩

/-- The names `"chosen"`, `"linux,initrd-start"`, `"linux,initrd-end"` and `"bootargs"`. -/
def chosenName : CStr := ⟨[0x63, 0x68, 0x6f, 0x73, 0x65, 0x6e], by decide⟩

def initrdStartName : CStr :=
  ⟨[0x6c, 0x69, 0x6e, 0x75, 0x78, 0x2c, 0x69, 0x6e, 0x69, 0x74, 0x72, 0x64, 0x2d, 0x73, 0x74, 0x61,
    0x72, 0x74], by decide⟩

def initrdEndName : CStr :=
  ⟨[0x6c, 0x69, 0x6e, 0x75, 0x78, 0x2c, 0x69, 0x6e, 0x69, 0x74, 0x72, 0x64, 0x2d, 0x65, 0x6e, 0x64],
    by decide⟩

def bootargsName : CStr := ⟨[0x62, 0x6f, 0x6f, 0x74, 0x61, 0x72, 0x67, 0x73], by decide⟩

/-- What `sam460_init` takes from the device tree; `none` leaves `brd` as it is. -/
structure FromFdt where
  memsize : Word
  initrd : Option (Word × Word)
  bootargs : Option (List Byte)

/-- The part of `sam460_init` that reads the tree (lines 451–469). -/
def readFdt (m : Mem) (fdt : Word) (fuel : ℕ) : Reads FromFdt :=
  let memsize : Word := 512 * 1024 * 1024
  if fdtCheck m fdt = 0 then do
    -- /memory/reg = <addr_hi addr_lo size>
    let size ← fdtGetPropU32Idx m fdt memoryName regName 2 fuel
    let initrdStart ← fdtGetPropU32 m fdt chosenName initrdStartName fuel
    let initrdEnd ← fdtGetPropU32 m fdt chosenName initrdEndName fuel
    let bootargs ← fdtGetPropStr m fdt chosenName bootargsName 256 fuel
    pure
      { memsize := size.getD memsize
        initrd := some (initrdStart.getD 0, initrdEnd.getD 0)
        bootargs := bootargs.filter (0 < ·.length) }
  else pure ⟨memsize, none, none⟩

/-- The stack pointer of the hand-over (lines 481–483). -/
def stackTop (memsize : Word) : Word :=
  let ramTop := if memsize > (8 : Word) <<< 28 then (8 : Word) <<< 28 else memsize
  (ramTop - 0x100000) &&& ~~~0xf

/-- What `sam460_init` sets up: `brd.initrd_start` and `brd.initrd_end`, `brd.bootargs`,
    `bd.bi_memsize`, `brd.stack_top` and the entries of the TLB it writes. -/
structure HandOver where
  initrd : Option (Word × Word)
  bootargs : Option (List Byte)
  memsize : Word
  stackTop : Word
  written : List Tlb.Write

/-- `sam460_init` (lines 441–502). -/
def sam460Init (m : Mem) (fdt : Word) (fuel : ℕ) : Reads HandOver := do
  let f ← readFdt m fdt fuel
  pure
    { initrd := f.initrd
      bootargs := f.bootargs
      memsize := f.memsize
      stackTop := stackTop f.memsize
      written := setupTlb f.memsize }

/-- `sam460_init` leaves a consistent address map for a machine of `memsize` bytes that
    came with the TLB `t`. -/
structure AddressMap (t : Tlb) (memsize : Word) (b : HandOver) : Prop where
  exclusive : (t.writeAll b.written).Exclusive
  distinct : (b.written.map Tlb.Write.index).Nodup
  inside : ∀ w ∈ b.written, w.index < 64
  identity : ∀ ea : Word, ea.toNat < min memsize.toNat (2 ^ 31) →
    (t.writeAll b.written).Maps ea ea.toNat
  stack : b.stackTop.toNat < min memsize.toNat (2 ^ 31) ∧
    (t.writeAll b.written).Maps b.stackTop b.stackTop.toNat

/-! ## Pages of RAM -/

/-- The loop over RAM runs once per started page, but once if the sum wraps. -/
theorem tlbPages_toNat (memsize : Word) :
    (tlbPages memsize).toNat = max 1 ((memsize.toNat + 0xfffffff) % 2 ^ 32 / 2 ^ 28) := by
  have hpages : ((memsize + 0xfffffff) >>> 28).toNat =
      (memsize.toNat + 0xfffffff) % 2 ^ 32 / 2 ^ 28 := by
    rw [BitVec.toNat_ushiftRight, Nat.shiftRight_eq_div_pow, BitVec.toNat_add]
    rfl
  have hlt : (memsize.toNat + 0xfffffff) % 2 ^ 32 / 2 ^ 28 < 16 := by omega
  have hfree : (64 - BitVec.ofNat 32 tlbtab.length : Word) = 49 := by decide
  unfold tlbPages
  dsimp only
  rw [hfree]
  split_ifs with h0 hbig hbig
  · exact absurd hbig (by decide)
  · rw [← hpages, h0]
    rfl
  · rw [gt_iff_lt, BitVec.lt_def, hpages] at hbig
    exact absurd hbig (by show ¬ 49 < _; omega)
  · have hne : ((memsize + 0xfffffff) >>> 28).toNat ≠ 0 := fun h => h0 (BitVec.eq_of_toNat_eq h)
    rw [hpages] at hne ⊢
    omega

theorem tlbPages_lt (memsize : Word) : (tlbPages memsize).toNat < 16 := by
  rw [tlbPages_toNat]
  omega

/-- The page `i` of RAM is mapped to itself. -/
theorem ramPage_spec {i : ℕ} (hi : i < 16) :
    (ramPage i).Valid ∧ (ramPage i).page = ⟨i * 2 ^ 28, 2 ^ 28⟩ ∧
      (ramPage i).word1.extractLsb' 0 4 = 0 ∧ (ramPage i).word1.toNat = i * 2 ^ 28 := by
  revert i
  decide +kernel

theorem ramPage_pageSize {i : ℕ} (hi : i < 16) : (ramPage i).pageSize = 2 ^ 28 :=
  congrArg Span.len (ramPage_spec hi).2.1

theorem ramPage_covers {i : ℕ} (hi : i < 16) (ea : Word) :
    (ramPage i).Covers ea ↔ ea.toNat / 2 ^ 28 = i := by
  obtain ⟨hvalid, hpage, -⟩ := ramPage_spec hi
  rw [TlbEntry.covers_iff, hpage]
  simp only [hvalid, Span.Mem, Span.stop_mk, true_and]
  omega

theorem ramPage_physical {i : ℕ} (hi : i < 16) {ea : Word} (h : (ramPage i).Covers ea) :
    (ramPage i).physical ea = ea.toNat := by
  obtain ⟨-, -, herpn, hrpn⟩ := ramPage_spec hi
  rw [ramPage_covers hi] at h
  unfold TlbEntry.physical
  rw [ramPage_pageSize hi, herpn, hrpn, Nat.mul_div_cancel _ (by norm_num), ← h]
  show 2 ^ 32 * 0 + _ + _ = _
  omega

/-! ## The fixed windows -/

/-- The rows of the table are valid, of different addresses, and all above 2 GiB. -/
theorem tlbtab_spec :
    (∀ r ∈ tlbtab, r.entry.Valid ∧ 2 ^ 31 ≤ r.entry.page.start) ∧
      tlbtab.Pairwise fun r r' => r.entry.page.Disjoint r'.entry.page := by
  decide +kernel

/-! ## The entries after `setup_tlb` -/

theorem setupTlb_indices (memsize : Word) :
    (setupTlb memsize).map Tlb.Write.index =
      List.range' 15 (tlbPages memsize).toNat ++ List.range 15 := by
  unfold setupTlb
  rw [List.map_append, List.map_map]
  congr 1
  rw [List.range'_eq_map_range]
  rfl

theorem setupTlb_distinct (memsize : Word) :
    ((setupTlb memsize).map Tlb.Write.index).Nodup := by
  rw [setupTlb_indices, List.nodup_append]
  refine ⟨List.nodup_range', List.nodup_range, ?_⟩
  intro a ha b hb
  simp only [List.mem_range'_1, List.mem_range] at ha hb
  omega

theorem setupTlb_inside (memsize : Word) : ∀ w ∈ setupTlb memsize, w.index < 64 := by
  intro w hw
  have hlt := tlbPages_lt memsize
  have hmem : w.index ∈ (setupTlb memsize).map Tlb.Write.index := List.mem_map_of_mem hw
  rw [setupTlb_indices] at hmem
  simp only [List.mem_append, List.mem_range'_1, List.mem_range] at hmem
  omega

theorem setupTlb_slots (memsize : Word) :
    (setupTlb memsize).map (fun w => w.index % 64) = (setupTlb memsize).map Tlb.Write.index := by
  apply List.map_congr_left
  intro w hw
  exact Nat.mod_eq_of_lt (setupTlb_inside memsize w hw)

/-- An entry that is written holds what was written. -/
theorem setupTlb_written (t : Tlb) {memsize : Word} {w : Tlb.Write} (hw : w ∈ setupTlb memsize)
    {i : Fin 64} (hi : i.val = w.index) : t.writeAll (setupTlb memsize) i = w.entry := by
  apply Tlb.writeAll_of_mem _ hw
  · rw [Nat.mod_eq_of_lt (setupTlb_inside memsize w hw), hi]
  · rw [setupTlb_slots]
    exact setupTlb_distinct memsize

theorem setupTlb_ram (t : Tlb) {memsize : Word} {k : ℕ} (hk : k < (tlbPages memsize).toNat)
    {i : Fin 64} (hi : i.val = 15 + k) : t.writeAll (setupTlb memsize) i = ramPage k :=
  setupTlb_written t (w := ⟨15 + k, ramPage k⟩)
    (List.mem_append_left _ (List.mem_map.mpr ⟨k, List.mem_range.mpr hk, rfl⟩)) hi

theorem setupTlb_table (t : Tlb) (memsize : Word) {i : Fin 64} (hi : i.val < tlbtab.length) :
    t.writeAll (setupTlb memsize) i = tlbtab[i.val].entry :=
  setupTlb_written t (w := ⟨i.val, tlbtab[i.val].entry⟩)
    (List.mem_append_right _ (List.mem_mapIdx.mpr ⟨i.val, hi, rfl⟩)) rfl

/-- The table is in the entries below 15, RAM behind it, and the rest is unchanged. -/
theorem setupTlb_entry (t : Tlb) (memsize : Word) (i : Fin 64) :
    (∃ h : i.val < tlbtab.length, t.writeAll (setupTlb memsize) i = tlbtab[i.val].entry) ∨
      (∃ k < (tlbPages memsize).toNat, i.val = 15 + k ∧
        t.writeAll (setupTlb memsize) i = ramPage k) ∨
      (i.val ≠ 0 ∧ t.writeAll (setupTlb memsize) i = t i) := by
  by_cases htab : i.val < tlbtab.length
  · exact .inl ⟨htab, setupTlb_table t memsize htab⟩
  have h15 : 15 ≤ i.val := not_lt.mp htab
  by_cases hram : i.val - 15 < (tlbPages memsize).toNat
  · have hi : i.val = 15 + (i.val - 15) := by omega
    exact .inr (.inl ⟨i.val - 15, hram, hi, setupTlb_ram t hram hi⟩)
  · refine .inr (.inr ⟨by omega, Tlb.writeAll_of_notMem ?_⟩)
    rw [setupTlb_slots, setupTlb_indices]
    simp only [List.mem_append, List.mem_range'_1, List.mem_range]
    omega

section OneEntry

variable {t : Tlb} (ht : ∀ i : Fin 64, i ≠ 0 → ¬ (t i).Valid) {memsize : Word}
include ht

/-- A valid entry is a row of the table or a page of RAM. -/
theorem setupTlb_valid {i : Fin 64} (h : (t.writeAll (setupTlb memsize) i).Valid) :
    (∃ h : i.val < tlbtab.length, t.writeAll (setupTlb memsize) i = tlbtab[i.val].entry) ∨
      ∃ k < (tlbPages memsize).toNat, i.val = 15 + k ∧
        t.writeAll (setupTlb memsize) i = ramPage k := by
  rcases setupTlb_entry t memsize i with htab | hram | ⟨hne, hold⟩
  · exact .inl htab
  · exact .inr hram
  · rw [hold] at h
    exact absurd h (ht i fun h0 => hne (congrArg Fin.val h0))

/-- Up to eight pages of RAM end where the windows begin. -/
theorem setupTlb_exclusive (h8 : (tlbPages memsize).toNat ≤ 8) :
    (t.writeAll (setupTlb memsize)).Exclusive := by
  apply Tlb.exclusive_of_disjoint
  intro i j hij hi hj
  wlog hlt : i < j generalizing i j
  · exact (this j i hij.symm hj hi (lt_of_le_of_ne (not_lt.mp hlt) hij.symm)).symm
  rw [Fin.lt_def] at hlt
  rcases setupTlb_valid ht hi with ⟨hi', hei⟩ | ⟨k, hk, hik, hei⟩
  · rcases setupTlb_valid ht hj with ⟨hj', hej⟩ | ⟨l, hl, hjl, hej⟩
    · rw [hei, hej]
      exact List.pairwise_iff_getElem.mp tlbtab_spec.2 _ _ hi' hj' hlt
    · -- RAM lies below the window
      have hstart := (tlbtab_spec.1 _ (List.getElem_mem hi')).2
      rw [hei, hej, (ramPage_spec (by omega)).2.1]
      apply Span.Disjoint.symm
      apply Span.Disjoint.of_stop_le
      rw [Span.stop_mk]
      omega
  · rcases setupTlb_valid ht hj with ⟨hj', -⟩ | ⟨l, hl, hjl, hej⟩
    · have : tlbtab.length = 15 := rfl
      omega
    · rw [hei, hej, (ramPage_spec (by omega)).2.1, (ramPage_spec (by omega)).2.1]
      apply Span.Disjoint.of_stop_le
      rw [Span.stop_mk]
      show k * 2 ^ 28 + 2 ^ 28 ≤ l * 2 ^ 28
      omega

/-- An address below the windows is in RAM or not mapped at all. -/
theorem setupTlb_covers {i : Fin 64} {ea : Word} (hlow : ea.toNat < 2 ^ 31)
    (h : (t.writeAll (setupTlb memsize) i).Covers ea) :
    ea.toNat / 2 ^ 28 < (tlbPages memsize).toNat := by
  have hlt := tlbPages_lt memsize
  rcases setupTlb_valid ht h.1 with ⟨hi, he⟩ | ⟨k, hk, -, he⟩
  · have hstart := (tlbtab_spec.1 _ (List.getElem_mem hi)).2
    rw [he, TlbEntry.covers_iff] at h
    exact absurd (hstart.trans h.2.1) (by omega)
  · rw [he, ramPage_covers (by omega)] at h
    rwa [h]

end OneEntry

/-- The pages of RAM that are mapped are mapped to themselves. -/
theorem setupTlb_maps (t : Tlb) {memsize ea : Word}
    (h : ea.toNat / 2 ^ 28 < (tlbPages memsize).toNat) :
    (t.writeAll (setupTlb memsize)).Maps ea ea.toNat := by
  have hlt := tlbPages_lt memsize
  have hcovers : (ramPage (ea.toNat / 2 ^ 28)).Covers ea := (ramPage_covers (by omega) ea).mpr rfl
  refine ⟨⟨15 + ea.toNat / 2 ^ 28, by omega⟩, ?_⟩
  rw [setupTlb_ram t h rfl]
  exact ⟨hcovers, ramPage_physical (by omega) hcovers⟩

/-- The ninth page of RAM and the first PCI memory window are at one address. -/
theorem setupTlb_overlap (t : Tlb) {memsize : Word} (h : 8 < (tlbPages memsize).toNat) :
    ¬ (t.writeAll (setupTlb memsize)).Exclusive := by
  intro hex
  have hwindow : (t.writeAll (setupTlb memsize) 2).Covers 0x80000000 := by
    rw [setupTlb_table t memsize (by decide : (2 : Fin 64).val < tlbtab.length)]
    exact ⟨by decide, by decide⟩
  have hram : (t.writeAll (setupTlb memsize) 23).Covers 0x80000000 := by
    rw [setupTlb_ram t h (by rfl : (23 : Fin 64).val = 15 + 8), ramPage_covers (by norm_num)]
    decide
  exact absurd (hex _ _ _ hwindow hram) (by decide)

/-! ## The stack -/

theorem stackTop_lt {memsize : Word} (h : 2 ^ 21 ≤ memsize.toNat) :
    (stackTop memsize).toNat < min memsize.toNat (2 ^ 31) := by
  have htop : (if memsize > (8 : Word) <<< 28 then (8 : Word) <<< 28 else memsize).toNat =
      min memsize.toNat (2 ^ 31) := by
    have h8 : ((8 : Word) <<< 28).toNat = 2 ^ 31 := by decide
    split_ifs with hgt
    · rw [gt_iff_lt, BitVec.lt_def, h8] at hgt
      omega
    · rw [gt_iff_lt, BitVec.lt_def, h8] at hgt
      omega
  unfold stackTop
  dsimp only
  generalize (if memsize > (8 : Word) <<< 28 then (8 : Word) <<< 28 else memsize) = top at htop ⊢
  have hsub : (top - 0x100000).toNat = top.toNat - 0x100000 := by
    apply BitVec.toNat_sub_of_le
    rw [BitVec.le_def]
    show 0x100000 ≤ _
    omega
  have hle : ((top - 0x100000) &&& ~~~0xf).toNat ≤ (top - 0x100000).toNat := by
    rw [BitVec.toNat_and]
    exact Nat.and_le_left
  omega

/-! ## The memory size of the tree -/

section Tree

variable {m : Mem} {fdt : Word} {node prop : CStr}

/-- A lookup that returns has a cell or none. -/
theorem fdtGetPropU32Idx_returns (idx : ℕ) {fuel : ℕ} {r : Option (Word × Word)}
    (h : (fdtFindProp m fdt node prop fuel).val = some r) :
    ∃ v, (fdtGetPropU32Idx m fdt node prop idx fuel).val = some v := by
  unfold fdtGetPropU32Idx
  rw [Reads.val_bind, h]
  rcases r with _ | ⟨data, len⟩
  · exact ⟨none, rfl⟩
  · rw [Option.bind_some]
    dsimp only
    split_ifs
    · exact ⟨none, rfl⟩
    · exact ⟨_, by rw [Reads.val_bind]; rfl⟩

theorem fdtGetPropStr_returns (buflen : ℕ) {fuel : ℕ} {r : Option (Word × Word)}
    (h : (fdtFindProp m fdt node prop fuel).val = some r) :
    ∃ v, (fdtGetPropStr m fdt node prop buflen fuel).val = some v := by
  unfold fdtGetPropStr
  rw [Reads.val_bind, h]
  rcases r with _ | ⟨data, len⟩
  · exact ⟨none, rfl⟩
  · rw [Option.bind_some]
    dsimp only
    split_ifs <;> exact ⟨_, rfl⟩

/-- The cell `idx` of a property that is found. -/
theorem fdtGetPropU32Idx_cell (idx : ℕ) {fuel : ℕ} {data len v : Word}
    {cells pre post : List Byte}
    (h : (fdtFindProp m fdt node prop fuel).val = some (some (data, len)))
    (hlen : len.toNat = cells.length) (hdata : BytesAt m data cells)
    (hcells : cells = pre ++ (be32Bytes v ++ post)) (hpre : pre.length = idx * 4)
    (hshort : cells.length < 2 ^ 31) :
    (fdtGetPropU32Idx m fdt node prop idx fuel).val = some (some v) := by
  have hv : load32 m (data + BitVec.ofNat 32 (idx * 4)) = v := by
    rw [hcells, bytesAt_append, hpre, bytesAt_append] at hdata
    exact load32_of_bytesAt hdata.2.1
  have hint : ¬ len.toInt < ((idx + 1) * 4 : ℕ) := by
    have hpos : len.toInt = len.toNat := BitVec.toInt_eq_toNat_of_lt (by omega)
    have : cells.length = idx * 4 + (4 + post.length) := by
      rw [hcells, List.length_append, List.length_append, hpre]
      rfl
    omega
  unfold fdtGetPropU32Idx
  rw [Reads.val_bind, h, Option.bind_some]
  dsimp only
  rw [if_neg hint, Reads.val_bind, fdt32, Reads.val_access, hv]
  rfl

/-- The memory size `sam460_init` works with is the third cell of `/memory/reg`. -/
theorem readFdt_memsize {root : FdtNode} (hblob : FdtBlob m fdt root)
    (hnames : (root.children.map FdtNode.name).Nodup)
    (hclear : ChainClear root memoryName regName) {p : FdtProp}
    (hp : lookup root memoryName regName = some p) (pre post : List Byte) {v : Word}
    (hcells : p.data = pre ++ (be32Bytes v ++ post)) (hpre : pre.length = 8)
    (hshort : p.data.length < 2 ^ 31) :
    ∃ fuel f, (readFdt m fdt fuel).val = some f ∧ f.memsize = v := by
  obtain ⟨r, ⟨n1, h1⟩, hden⟩ := fdtReturns_chain hblob hnames memoryName regName
  obtain ⟨_, ⟨n2, h2⟩, -⟩ := fdtReturns_chain hblob hnames chosenName initrdStartName
  obtain ⟨_, ⟨n3, h3⟩, -⟩ := fdtReturns_chain hblob hnames chosenName initrdEndName
  obtain ⟨_, ⟨n4, h4⟩, -⟩ := fdtReturns_chain hblob hnames chosenName bootargsName
  -- one number of passes that is enough for all four walks
  have h1 := fdtLoop_mono (by omega : n1 ≤ n1 + n2 + n3 + n4) h1
  have h2 := fdtLoop_mono (by omega : n2 ≤ n1 + n2 + n3 + n4) h2
  have h3 := fdtLoop_mono (by omega : n3 ≤ n1 + n2 + n3 + n4) h3
  have h4 := fdtLoop_mono (by omega : n4 ≤ n1 + n2 + n3 + n4) h4
  rw [chain_eq_lookup hclear, hp] at hden
  rcases r with _ | ⟨data, len⟩
  · exact hden.elim
  have hsize := fdtGetPropU32Idx_cell 2 h1 hden.1 hden.2 hcells hpre hshort
  obtain ⟨start, hstart⟩ := fdtGetPropU32Idx_returns 0 h2
  obtain ⟨stop, hstop⟩ := fdtGetPropU32Idx_returns 0 h3
  obtain ⟨args, hargs⟩ := fdtGetPropStr_returns 256 h4
  refine ⟨n1 + n2 + n3 + n4,
    ⟨v, some (start.getD 0, stop.getD 0), args.filter (0 < ·.length)⟩, ?_, rfl⟩
  unfold readFdt
  dsimp only
  rw [if_pos hblob.magic, Reads.val_bind, hsize, Option.bind_some, Reads.val_bind, fdtGetPropU32,
    hstart, Option.bind_some, Reads.val_bind, fdtGetPropU32, hstop, Option.bind_some,
    Reads.val_bind, hargs, Option.bind_some]
  rfl

end Tree

/-! ## The address map -/

/-- **The address map of the sam460** is consistent, for a machine of at least 2 MiB that
    comes with one TLB entry, exactly if the tree reports at most 2 GiB. -/
theorem addressMap_iff {m : Mem} {fdt : Word} {fuel : ℕ} {f : FromFdt}
    (hf : (readFdt m fdt fuel).val = some f) (h2 : 2 ^ 21 ≤ f.memsize.toNat) {t : Tlb}
    (ht : ∀ i : Fin 64, i ≠ 0 → ¬ (t i).Valid) :
    ∃ b, (sam460Init m fdt fuel).val = some b ∧
      (AddressMap t f.memsize b ↔ f.memsize.toNat ≤ 2 ^ 31) := by
  have hpages := tlbPages_toNat f.memsize
  refine ⟨⟨f.initrd, f.bootargs, f.memsize, stackTop f.memsize, setupTlb f.memsize⟩, ?_, ?_, ?_⟩
  · rw [sam460Init, Reads.val_bind, hf]
    rfl
  · intro hmap
    by_contra hbig
    by_cases hwrap : f.memsize.toNat + 0xfffffff < 2 ^ 32
    · apply setupTlb_overlap t _ hmap.exclusive
      omega
    · -- one page is left, and the second is missing
      have hone : (tlbPages f.memsize).toNat = 1 := by omega
      have hea : (0x10000000 : Word).toNat = 2 ^ 28 := rfl
      obtain ⟨i, hi, -⟩ := hmap.identity 0x10000000 (by rw [hea]; omega)
      have hcovered := setupTlb_covers ht (by rw [hea]; norm_num) hi
      rw [hone, hea] at hcovered
      exact absurd hcovered (by norm_num)
  · intro hle
    have hstack := stackTop_lt h2
    have hram : ∀ ea : Word, ea.toNat < min f.memsize.toNat (2 ^ 31) →
        (t.writeAll (setupTlb f.memsize)).Maps ea ea.toNat := by
      intro ea hea
      apply setupTlb_maps
      omega
    exact
      { exclusive := setupTlb_exclusive ht (by omega)
        distinct := setupTlb_distinct f.memsize
        inside := setupTlb_inside f.memsize
        identity := hram
        stack := ⟨hstack, hram _ hstack⟩ }

/-- A TLB with one entry, for the whole of RAM. -/
def oneEntry : Tlb := fun i => if i = 0 then ⟨tlbValid ||| tlb256M, 0, acRwx⟩ else ⟨0, 0, 0⟩

theorem oneEntry_valid (i : Fin 64) (hi : i ≠ 0) : ¬ (oneEntry i).Valid := by
  unfold oneEntry
  rw [if_neg hi]
  decide

/-- Without a device tree 512 MiB are assumed. -/
theorem addressMap_default :
    ∃ b, (sam460Init (fun _ => 0) 0 0).val = some b ∧
      (AddressMap oneEntry 0x20000000 b ↔ (0x20000000 : Word).toNat ≤ 2 ^ 31) :=
  addressMap_iff (f := ⟨0x20000000, none, none⟩) (by rfl) (by decide) oneEntry_valid

/-- A blob of a tree whose only node `memory` has 3 GiB: header, structure block at
    40, strings block at 100. -/
def memoryBlob : List Byte :=
  [0xd0, 0x0d, 0xfe, 0xed, 0, 0, 0, 104, 0, 0, 0, 40, 0, 0, 0, 100, 0, 0, 0, 104, 0, 0, 0, 17,
    0, 0, 0, 16, 0, 0, 0, 0, 0, 0, 0, 4, 0, 0, 0, 60,
    0, 0, 0, 1, 0, 0, 0, 0,
    0, 0, 0, 1, 0x6d, 0x65, 0x6d, 0x6f, 0x72, 0x79, 0, 0,
    0, 0, 0, 3, 0, 0, 0, 12, 0, 0, 0, 0, 0, 0, 0, 0, 0, 0, 0, 0, 0xc0, 0, 0, 0,
    0, 0, 0, 2, 0, 0, 0, 2, 0, 0, 0, 9, 0, 0, 0, 0,
    0x72, 0x65, 0x67, 0]

/-- Its root has the empty name, as that of `shadowTree` has. -/
def memoryTree : FdtNode :=
  .mk shadowTree.name [] [.mk memoryName [⟨regName, [0, 0, 0, 0, 0, 0, 0, 0, 0xc0, 0, 0, 0]⟩] []]

def memoryTokens : List Token :=
  [.beginNode shadowTree.name, .beginNode memoryName,
    .prop ⟨regName, [0, 0, 0, 0, 0, 0, 0, 0, 0xc0, 0, 0, 0]⟩, .endNode, .endNode, .fin]

theorem fdtBlob_memory : FdtBlob (memOf 0x1000 memoryBlob) 0x1000 memoryTree := by
  refine ⟨by decide, memoryTokens, by decide, by decide, ?_⟩
  unfold memoryTokens
  simp only [TokensAt, TokenAt]
  decide

/-- Of 3 GiB reported, the ninth page is mapped over the first PCI memory window. -/
theorem addressMap_threeGiB :
    ∃ fuel f b, (readFdt (memOf 0x1000 memoryBlob) 0x1000 fuel).val = some f ∧
      f.memsize = 0xc0000000 ∧
      (sam460Init (memOf 0x1000 memoryBlob) 0x1000 fuel).val = some b ∧
      ¬ AddressMap oneEntry f.memsize b := by
  have hclear : ChainClear memoryTree memoryName regName := by
    intro c hc
    left
    obtain rfl : FdtNode.mk memoryName [⟨regName, [0, 0, 0, 0, 0, 0, 0, 0, 0xc0, 0, 0, 0]⟩] [] = c :=
      Option.some.inj hc
    exact ⟨_, List.mem_singleton.mpr rfl, rfl⟩
  obtain ⟨fuel, f, hf, hsize⟩ := readFdt_memsize fdtBlob_memory (by decide) hclear rfl
    [0, 0, 0, 0, 0, 0, 0, 0] [] (v := 0xc0000000) (by decide) rfl (by decide)
  refine ⟨fuel, f, _, hf, hsize, by rw [sam460Init, Reads.val_bind, hf]; rfl, ?_⟩
  intro hmap
  rw [hsize] at hmap
  exact setupTlb_overlap oneEntry (by decide) hmap.exclusive

end BBoot.Sam460
