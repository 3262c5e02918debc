import BBoot.Common.Span
import BBoot.Common.Word

/-!
# PCI window allocation on pegasos2

`addr_for_bar` of `brd_pegasos2.c` keeps two I/O cursors in one window: slot
`0xc` of bus 0 (the south bridge) draws from `ioresavail`, every other device
from `ioavail`. Both are compared with the end of the whole window, and the
reserved cursor is set back to `IORES_START + 0x30` when it reaches `IORES_TOP`.

Results:
* `basesForBus_accepted`: the state the two accepted buses start from.
* `bus_sound`: from that state, in every run whose requests all meet `StepOk`,
  the results are aligned, inside their window and pairwise disjoint in each
  space.
* `southBridge_overlap`: three requests of slot `0xc` that the rewound cursor
  makes overlap.
-/

namespace BBoot.Pegasos2

/-! ## Model -/

/-- `PCI_BUS(_d)` (`drivers/pci.h` line 111). -/
def pciBus (d : Word) : Word := (d >>> 16) &&& 0xff

/-- `PCI_SLOT(_d)` (`drivers/pci.h` line 112). -/
def pciSlot (d : Word) : Word := (d >>> 11) &&& 0x1f

/-- `PHYS_HI_TYPE(x)` (`brd_pegasos2.c` line 40). -/
def physHiType (x : Word) : Word := (x >>> 24) &&& 3

/-- `IORES_START` (line 47). -/
def ioresStart : Word := 0x1000

/-- `IORES_TOP` (line 48). -/
def ioresTop : Word := 0x1200

/-- `MV64361_BASE` (line 50). -/
def mv64361Base : Word := 0xf1000000

/-- The static variables of `brd_pegasos2.c` (lines 42–43), with the
    configuration ports `pci_set_addr` stores. -/
structure PciWindows where
  confAddr : Word
  dataAddr : Word
  iobase : Word
  iolen : Word
  membase : Word
  memlen : Word
  ioresavail : Word
  ioavail : Word
  memavail : Word
deriving DecidableEq, Repr

/-- `addr_for_bar` draws from `ioresavail` for these (line 60). -/
def isReserved (physhi : Word) : Bool := pciBus physhi = 0 ∧ pciSlot physhi = 0xc

/-- `addr_for_bar` (lines 52–86). A refused request leaves its cursor rounded. -/
def addrForBar (w : PciWindows) (physhi size : Word) : Word × PciWindows :=
  if size = 0 then (0, w)
  else if physHiType physhi = 1 then
    if isReserved physhi then
      let avail := roundUp w.ioresavail size
      if avail + size > w.iolen then (0, { w with ioresavail := avail })
      else
        -- the hack of line 70: rewind for the last two sound BARs
        (w.iobase + avail, { w with ioresavail :=
          if avail + size ≥ ioresTop then ioresStart + 0x30 else avail + size })
    else
      let avail := roundUp w.ioavail size
      if avail + size > w.iolen then (0, { w with ioavail := avail })
      else (w.iobase + avail, { w with ioavail := avail + size })
  else if physHiType physhi = 2 ∨ physHiType physhi = 3 then
    let avail := roundUp w.memavail size
    if avail - w.membase + size > w.memlen then (0, { w with memavail := avail })
    else (avail, { w with memavail := avail + size })
  else (0, w)

/-- The loop over the entries of `ranges` (lines 200–211). -/
def rangesLoop (cells : ℕ → Word) (n i : ℕ) (w : PciWindows) : PciWindows :=
  if _h : i < n then
    rangesLoop cells n (i + 6)
      (if physHiType (cells i) = 1 then { w with iobase := cells (i + 3), iolen := cells (i + 5) }
      else if physHiType (cells i) = 2 then
        { w with membase := cells (i + 3), memlen := cells (i + 5) }
      else w)
  else w
termination_by n - i

/-- `bases_for_bus` (lines 192–233). `n` and `cells` are what `prom_getprop`
    returned for `ranges` and left in the buffer. -/
def basesForBus (w : PciWindows) (n : ℤ) (cells : ℕ → Word) : Bool × PciWindows :=
  if n ≤ 0 then (false, w)
  else
    let w := rangesLoop cells (n.toNat / 4) 0 w
    if w.iobase = 0 ∨ w.iolen = 0 ∨ w.membase = 0 ∨ w.memlen = 0 then (false, w)
    else
      let w := { w with memavail := w.membase }
      if w.membase = 0x80000000 then
        (true, { w with ioresavail := ioresStart, ioavail := ioresTop,
                        confAddr := mv64361Base + 0xc78, dataAddr := mv64361Base + 0xc78 + 4 })
      else if w.membase = 0xc0000000 then
        (true, { w with ioresavail := w.iolen, ioavail := ioresStart,
                        confAddr := mv64361Base + 0xcf8, dataAddr := mv64361Base + 0xcf8 + 4 })
      else (false, w)

/-- What `bases_for_bus` leaves for the bus at `0x80000000` and for the one at
    `0xc0000000`. -/
theorem basesForBus_accepted {w w' : PciWindows} {n : ℤ} {cells : ℕ → Word}
    (h : basesForBus w n cells = (true, w')) :
    w'.iobase ≠ 0 ∧ w'.iolen ≠ 0 ∧ w'.memlen ≠ 0 ∧ w'.memavail = w'.membase ∧
      ((w'.membase = 0x80000000 ∧ w'.ioresavail = ioresStart ∧ w'.ioavail = ioresTop) ∨
       (w'.membase = 0xc0000000 ∧ w'.ioresavail = w'.iolen ∧ w'.ioavail = ioresStart)) := by
  unfold basesForBus at h
  generalize rangesLoop cells (n.toNat / 4) 0 w = v at h
  dsimp only at h
  split_ifs at h with h1 h2 h3 h4
  all_goals
    simp only [Prod.mk.injEq, Bool.false_eq_true, false_and, true_and] at h
  · subst h
    exact ⟨by tauto, by tauto, by tauto, rfl, Or.inl ⟨h3, rfl, rfl⟩⟩
  · subst h
    exact ⟨by tauto, by tauto, by tauto, rfl, Or.inr ⟨h4, rfl, rfl⟩⟩

/-! ## Runs of requests -/

/-- The arguments of one call. -/
structure BarRequest where
  physhi : Word
  size : Word
deriving DecidableEq, Repr

/-- One call with the statics before and after it. -/
structure BarStep where
  before : PciWindows
  request : BarRequest
  ret : Word
  after : PciWindows
deriving DecidableEq, Repr

/-- The call with request `r` on the statics `w`. -/
def barStep (w : PciWindows) (r : BarRequest) : BarStep :=
  let (ret, w') := addrForBar w r.physhi r.size
  ⟨w, r, ret, w'⟩

/-- The calls of a run, in order. -/
def barTrace (w : PciWindows) : List BarRequest → List BarStep
  | [] => []
  | r :: rs => barStep w r :: barTrace (barStep w r).after rs

theorem barStep_eq {w w' : PciWindows} {r : BarRequest} {ret : Word}
    (h : addrForBar w r.physhi r.size = (ret, w')) : barStep w r = ⟨w, r, ret, w'⟩ := by
  unfold barStep; rw [h]

@[simp] theorem barStep_before (w : PciWindows) (r : BarRequest) : (barStep w r).before = w := rfl

@[simp] theorem barStep_request (w : PciWindows) (r : BarRequest) : (barStep w r).request = r := rfl

/-- What a request draws on. -/
inductive Pool
  | none
  | reserved
  | io
  | mem
deriving DecidableEq, Repr

/-- The case of `addr_for_bar` a request takes. -/
def BarRequest.pool (r : BarRequest) : Pool :=
  if physHiType r.physhi = 1 then if isReserved r.physhi then .reserved else .io
  else if physHiType r.physhi = 2 ∨ physHiType r.physhi = 3 then .mem
  else .none

/-- The reserved and the general pool share the I/O window. -/
def Pool.isIo : Pool → Bool
  | .reserved | .io => true
  | _ => false

/-- The range a call handed out, if it did. -/
def BarStep.span (s : BarStep) : Span := ⟨s.ret.toNat, s.request.size.toNat⟩

/-- The bus's I/O window `[iobase, iobase + iolen)` or memory window
    `[membase, membase + memlen)`. -/
def PciWindows.window (w : PciWindows) (io : Bool) : Span :=
  if io then ⟨w.iobase.toNat, w.iolen.toNat⟩ else ⟨w.membase.toNat, w.memlen.toNat⟩

/-- The ranges of one space a run hands out, in order. -/
def granted (io : Bool) (t : List BarStep) : List Span :=
  (t.filter fun s => s.request.pool.isIo = io ∧ s.ret ≠ 0).map BarStep.span

/-- What a run of `addr_for_bar` calls owes its callers. -/
structure BusSound (w : PciWindows) (t : List BarStep) : Prop where
  aligned : ∀ s ∈ t, s.ret ≠ 0 → s.request.size.toNat ∣ s.ret.toNat
  inside : ∀ s ∈ t, s.ret ≠ 0 → s.span.Inside (w.window s.request.pool.isIo)
  disjoint : ∀ io, (granted io t).Pairwise Span.Disjoint

/-! ## The condition on a request -/

/-- The cursor of a pool. -/
def PciWindows.avail (w : PciWindows) : Pool → Word
  | .reserved => w.ioresavail
  | .io => w.ioavail
  | .mem => w.memavail
  | .none => 0

/-- The multiple of the size the cursor is rounded up to, without wrapping. -/
def BarStep.offset (s : BarStep) : ℕ :=
  alignUp (s.before.avail s.request.pool).toNat s.request.size.toNat

/-- One past the last offset of the request, without wrapping. -/
def BarStep.offsetEnd (s : BarStep) : ℕ := s.offset + s.request.size.toNat

/-- The call ran into line 68: the reserved cursor was set back. -/
def BarStep.Rewinds (s : BarStep) : Prop :=
  s.request.pool = .reserved ∧ s.ret ≠ 0 ∧ ioresTop.toNat ≤ s.offsetEnd

instance (s : BarStep) : Decidable s.Rewinds := by unfold BarStep.Rewinds; infer_instance

/-- The ranges slot `0xc` holds from before the reserved cursor was last set
    back. -/
def rewoundRanges (t : List BarStep) : List Span :=
  ((t.rdropWhile fun s => ¬ s.Rewinds).filter fun s =>
    s.request.pool = .reserved ∧ s.ret ≠ 0).map BarStep.span

/-- A request for I/O space neither wraps nor, if it fits the window, leaves
    the address space or lands on a window that is not aligned to it. -/
def BarStep.IoOk (s : BarStep) : Prop :=
  s.offsetEnd < 2 ^ 32 ∧
    (s.offsetEnd ≤ s.before.iolen.toNat →
      s.before.iobase.toNat + s.offsetEnd ≤ 2 ^ 32 ∧ s.request.size.toNat ∣ s.before.iobase.toNat)

instance (s : BarStep) : Decidable s.IoOk := by unfold BarStep.IoOk; infer_instance

/-- The condition on one request, after the steps `pre`. A memory request must
    not be served below the window (its rounded cursor wrapped to `0`); one of
    slot `0xc` that fits the I/O window must end by `IORES_TOP` and not reach a
    range from before the cursor was set back. -/
structure BarStep.StepOk (pre : List BarStep) (s : BarStep) : Prop where
  mem : s.request.pool = .mem →
    s.before.membase ≤ roundUp s.before.memavail s.request.size ∨
      s.before.memlen <
        roundUp s.before.memavail s.request.size - s.before.membase + s.request.size
  io : s.request.pool.isIo = true → s.IoOk
  reserved : s.request.pool = .reserved → s.offsetEnd ≤ s.before.iolen.toNat →
    s.offsetEnd ≤ ioresTop.toNat ∧
      ∀ u ∈ rewoundRanges pre,
        Span.Disjoint ⟨s.before.iobase.toNat + s.offset, s.request.size.toNat⟩ u

/-! ## One request -/

/-- `addr_for_bar` sets the cursor of the request's pool. -/
def PciWindows.setAvail (w : PciWindows) (c : Word) : Pool → PciWindows
  | .reserved => { w with ioresavail := c }
  | .io => { w with ioavail := c }
  | .mem => { w with memavail := c }
  | .none => w

/-- The two I/O pools are served alike, up to the rewind. -/
theorem addrForBar_io (w : PciWindows) (r : BarRequest) (h0 : r.size ≠ 0)
    (hp : r.pool.isIo = true) :
    addrForBar w r.physhi r.size =
      if roundUp (w.avail r.pool) r.size + r.size > w.iolen then
        (0, w.setAvail (roundUp (w.avail r.pool) r.size) r.pool)
      else
        (w.iobase + roundUp (w.avail r.pool) r.size, w.setAvail
          (if r.pool = .reserved ∧ roundUp (w.avail r.pool) r.size + r.size ≥ ioresTop then
            ioresStart + 0x30 else roundUp (w.avail r.pool) r.size + r.size) r.pool) := by
  unfold BarRequest.pool at hp ⊢
  unfold addrForBar
  rw [if_neg h0]
  by_cases h1 : physHiType r.physhi = 1
  · by_cases hr : isReserved r.physhi = true
    · simp only [h1, hr, ite_true, PciWindows.avail, PciWindows.setAvail, true_and]
    · simp only [h1, hr, ite_true, PciWindows.avail, PciWindows.setAvail, reduceCtorEq, false_and,
        ite_false, Bool.false_eq_true]
  · rw [if_neg h1] at hp
    split_ifs at hp <;> simp [Pool.isIo] at hp

theorem addrForBar_mem (w : PciWindows) (r : BarRequest) (h0 : r.size ≠ 0) (hp : r.pool = .mem) :
    addrForBar w r.physhi r.size =
      if roundUp w.memavail r.size - w.membase + r.size > w.memlen then
        (0, { w with memavail := roundUp w.memavail r.size })
      else (roundUp w.memavail r.size, { w with memavail := roundUp w.memavail r.size + r.size }) := by
  unfold BarRequest.pool at hp
  unfold addrForBar
  rw [if_neg h0]
  split_ifs at hp with h1 h2 h3
  rw [if_neg h1, if_pos h3]

theorem addrForBar_none (w : PciWindows) (r : BarRequest) (hp : r.pool = .none) :
    addrForBar w r.physhi r.size = (0, w) := by
  unfold BarRequest.pool at hp
  unfold addrForBar
  split_ifs at hp with h1 h2 h3
  rw [if_neg h1, if_neg h3, ite_self]

/-- **One I/O request** meeting its condition is served exactly at the rounded
    cursor if it fits and refused otherwise. -/
theorem ioStep {w : PciWindows} {r : BarRequest} (hs : IsPow2 r.size) (hp : r.pool.isIo = true)
    (hok : (barStep w r).IoOk) :
    (w.iolen.toNat < (barStep w r).offsetEnd ∧ ∃ c : Word, c.toNat = (barStep w r).offset ∧
      barStep w r = ⟨w, r, 0, w.setAvail c r.pool⟩) ∨
    ((barStep w r).offsetEnd ≤ w.iolen.toNat ∧ ∃ ret c : Word,
      ret.toNat = w.iobase.toNat + (barStep w r).offset ∧ r.size.toNat ∣ ret.toNat ∧
      c.toNat = (if r.pool = .reserved ∧ ioresTop.toNat ≤ (barStep w r).offsetEnd then
        ioresStart.toNat + 0x30 else (barStep w r).offsetEnd) ∧
      barStep w r = ⟨w, r, ret, w.setAvail c r.pool⟩) := by
  obtain ⟨hend, hfits⟩ := hok
  have hoff : (roundUp (w.avail r.pool) r.size).toNat = (barStep w r).offset := by
    unfold BarStep.offsetEnd at hend
    rw [hs.roundUp, Nat.mod_eq_of_lt]
    · rfl
    · exact lt_of_le_of_lt (Nat.le_add_right _ _) hend
  have hstop : (roundUp (w.avail r.pool) r.size + r.size).toNat = (barStep w r).offsetEnd := by
    rw [BitVec.toNat_add, hoff]
    exact Nat.mod_eq_of_lt hend
  have heq := addrForBar_io w r hs.ne_zero hp
  simp only [gt_iff_lt, ge_iff_le, BitVec.lt_def, BitVec.le_def, hstop] at heq
  by_cases hfit : (barStep w r).offsetEnd ≤ w.iolen.toNat
  · obtain ⟨hbase, hdvd⟩ := hfits hfit
    rw [if_neg (by omega)] at heq
    have hpos := hs.pos
    have hret : (w.iobase + roundUp (w.avail r.pool) r.size).toNat =
        w.iobase.toNat + (barStep w r).offset := by
      rw [BitVec.toNat_add, hoff, Nat.mod_eq_of_lt]
      simp only [BarStep.offsetEnd, barStep_before, barStep_request] at hbase
      omega
    refine Or.inr ⟨hfit, _, if r.pool = .reserved ∧ ioresTop.toNat ≤ (barStep w r).offsetEnd then
      ioresStart + 0x30 else roundUp (w.avail r.pool) r.size + r.size, hret, ?_, ?_, ?_⟩
    · rw [hret]
      exact dvd_add hdvd (dvd_alignUp _ _)
    · split_ifs
      · rfl
      · exact hstop
    · exact barStep_eq heq
  · rw [if_pos (by omega)] at heq
    exact Or.inl ⟨by omega, _, hoff, barStep_eq heq⟩

/-- **One memory request** meeting its condition is refused or served at the
    rounded cursor, inside the window. A dead cursor (`0`) stays refused. -/
theorem memStep {w : PciWindows} {r : BarRequest} (hs : IsPow2 r.size) (hp : r.pool = .mem)
    (hhalf : 2 ^ 31 ≤ w.membase.toNat)
    (hok : w.membase ≤ roundUp w.memavail r.size ∨
      w.memlen < roundUp w.memavail r.size - w.membase + r.size) :
    (∃ c : Word, (c = 0 ∨ w.memavail ≠ 0 ∧ w.memavail.toNat ≤ c.toNat) ∧
      barStep w r = ⟨w, r, 0, w.setAvail c .mem⟩) ∨
    (w.memavail ≠ 0 ∧ ∃ ret c : Word, w.memavail.toNat ≤ ret.toNat ∧ r.size.toNat ∣ ret.toNat ∧
      ret.toNat + r.size.toNat ≤ w.membase.toNat + w.memlen.toNat ∧
      (c = 0 ∨ c.toNat = ret.toNat + r.size.toNat) ∧
      barStep w r = ⟨w, r, ret, w.setAvail c .mem⟩) := by
  have heq := addrForBar_mem w r hs.ne_zero hp
  have hround := hs.roundUp w.memavail
  have hle := le_alignUp w.memavail.toNat hs.pos
  have hbound := hs.alignUp_le w.memavail
  have hsz := hs.le
  have hpos := hs.pos
  -- the rounded cursor is `0` or exact
  have hcur : roundUp w.memavail r.size = 0 ∨ w.memavail ≠ 0 ∧
      (roundUp w.memavail r.size).toNat = alignUp w.memavail.toNat r.size.toNat := by
    by_cases hz : alignUp w.memavail.toNat r.size.toNat = 2 ^ 32
    · left
      apply BitVec.eq_of_toNat_eq
      rw [hround, hz]; rfl
    · rw [Nat.mod_eq_of_lt (by omega)] at hround
      rcases eq_or_ne w.memavail 0 with h0 | h0
      · left
        apply BitVec.eq_of_toNat_eq
        rw [hround, h0]
        simp [alignUp_eq_self hpos (dvd_zero _)]
      · exact Or.inr ⟨h0, hround⟩
  by_cases hfit : roundUp w.memavail r.size - w.membase + r.size > w.memlen
  · rw [if_pos hfit] at heq
    refine Or.inl ⟨roundUp w.memavail r.size, ?_, barStep_eq heq⟩
    rcases hcur with h | ⟨h, hexact⟩
    · exact Or.inl h
    · exact Or.inr ⟨h, by omega⟩
  · rw [if_neg hfit] at heq
    have hge : w.membase ≤ roundUp w.memavail r.size := hok.resolve_right hfit
    have hge' : w.membase.toNat ≤ (roundUp w.memavail r.size).toNat := BitVec.le_def.mp hge
    rcases hcur with h | ⟨h, hexact⟩
    · rw [h] at hge'
      simp at hge'
      omega
    · have hlt := (roundUp w.memavail r.size).isLt
      have hdvd : r.size.toNat ∣ (roundUp w.memavail r.size).toNat := by
        rw [hexact]; exact dvd_alignUp _ _
      have htop := hs.add_le hdvd hlt
      -- the difference is below `2 ^ 31`, so the bound test is exact
      have htest : (roundUp w.memavail r.size - w.membase + r.size).toNat =
          (roundUp w.memavail r.size).toNat - w.membase.toNat + r.size.toNat := by
        rw [BitVec.toNat_add, BitVec.toNat_sub_of_le hge, Nat.mod_eq_of_lt (by omega)]
      rw [gt_iff_lt, BitVec.lt_def, htest] at hfit
      refine Or.inr ⟨h, _, _, by omega, hdvd, by omega, ?_, barStep_eq heq⟩
      rcases htop.lt_or_eq with hlt | heq32
      · exact Or.inr (by rw [BitVec.toNat_add, Nat.mod_eq_of_lt hlt])
      · left
        apply BitVec.eq_of_toNat_eq
        rw [BitVec.toNat_add, heq32]; rfl

/-! ## Runs -/

theorem rewoundRanges_append (t : List BarStep) (s : BarStep) :
    rewoundRanges (t ++ [s]) = if s.Rewinds then
      ((t ++ [s]).filter fun s => s.request.pool = .reserved ∧ s.ret ≠ 0).map BarStep.span
    else rewoundRanges t := by
  unfold rewoundRanges
  split_ifs with h
  · rw [List.rdropWhile_concat_neg _ _ _ (by simp [h])]
  · rw [List.rdropWhile_concat_pos _ _ _ (by simp [h])]

/-- What holds after the steps `t` of a run that started at `w₀`: where each
    cursor stands and which ranges lie below it. -/
structure BusInv (w₀ : PciWindows) (t : List BarStep) (w : PciWindows) : Prop where
  windows : ∀ io, w.window io = w₀.window io
  base_pos : w.iobase ≠ 0
  mem_half : 2 ^ 31 ≤ w.membase.toNat
  sound : BusSound w₀ t
  /-- The general I/O cursor only grows, and its ranges follow one another. -/
  io_ge : w₀.ioavail.toNat ≤ w.ioavail.toNat
  io : ∀ s ∈ t, s.ret ≠ 0 → s.request.pool = .io →
    w.iobase.toNat + w₀.ioavail.toNat ≤ s.ret.toNat ∧
      s.span.stop ≤ w.iobase.toNat + w.ioavail.toNat
  /-- Where the reserved pool does not end at `IORES_TOP` it is closed. -/
  closed : w₀.ioavail = ioresTop ∨ w.iolen.toNat ≤ w.ioresavail.toNat
  reserved : ∀ s ∈ t, s.ret ≠ 0 → s.request.pool = .reserved →
    s.span.stop ≤ w.iobase.toNat + w₀.ioavail.toNat ∧
      (s.span ∈ rewoundRanges t ∨ s.span.stop ≤ w.iobase.toNat + w.ioresavail.toNat)
  /-- The memory cursor grows until it wraps to `0`, where it stays. -/
  mem_ge : w.memavail = 0 ∨ w.membase.toNat ≤ w.memavail.toNat
  mem : ∀ s ∈ t, s.ret ≠ 0 → s.request.pool.isIo = false →
    w.memavail = 0 ∨ s.span.stop ≤ w.memavail.toNat

theorem busInv_start {w w' : PciWindows} {n : ℤ} {cells : ℕ → Word}
    (h : basesForBus w n cells = (true, w')) : BusInv w' [] w' := by
  obtain ⟨hbase, -, -, hmem, hbus⟩ := basesForBus_accepted h
  refine ⟨fun _ => rfl, hbase, ?_, ⟨by simp, by simp, by simp [granted]⟩, le_rfl, by simp, ?_,
    by simp, Or.inr (by rw [hmem]), by simp⟩
  · rcases hbus with ⟨h, -⟩ | ⟨h, -⟩ <;> rw [h] <;> decide
  · rcases hbus with ⟨-, -, h⟩ | ⟨-, h, -⟩
    · exact Or.inl h
    · exact Or.inr (by rw [h])

@[simp] theorem window_setAvail (w : PciWindows) (c : Word) (p : Pool) (io : Bool) :
    (w.setAvail c p).window io = w.window io := by
  cases p <;> rfl

theorem mem_granted {io : Bool} {t : List BarStep} {u : Span} :
    u ∈ granted io t ↔ ∃ s ∈ t, s.request.pool.isIo = io ∧ s.ret ≠ 0 ∧ s.span = u := by
  simp [granted, and_assoc]

/-- A refused request adds nothing to what a run handed out. -/
theorem BusSound.refuse {w : PciWindows} {t : List BarStep} (h : BusSound w t) {s : BarStep}
    (hret : s.ret = 0) : BusSound w (t ++ [s]) := by
  refine ⟨?_, ?_, fun io => ?_⟩
  · intro s' hs' hne
    rcases List.mem_append.mp hs' with hs' | hs'
    · exact h.aligned s' hs' hne
    · rw [List.mem_singleton.mp hs'] at hne
      exact absurd hret hne
  · intro s' hs' hne
    rcases List.mem_append.mp hs' with hs' | hs'
    · exact h.inside s' hs' hne
    · rw [List.mem_singleton.mp hs'] at hne
      exact absurd hret hne
  · have : granted io (t ++ [s]) = granted io t := by simp [granted, hret]
    rw [this]
    exact h.disjoint io

/-- A served request keeps a run sound if its range is aligned, inside its
    window and disjoint from the earlier ranges of its space. -/
theorem BusSound.serve {w : PciWindows} {t : List BarStep} (h : BusSound w t) {s : BarStep}
    (hdvd : s.request.size.toNat ∣ s.ret.toNat) (hin : s.span.Inside (w.window s.request.pool.isIo))
    (hdisj : ∀ s' ∈ t, s'.ret ≠ 0 → s'.request.pool.isIo = s.request.pool.isIo →
      s'.span.Disjoint s.span) : BusSound w (t ++ [s]) := by
  refine ⟨?_, ?_, fun io => ?_⟩
  · intro s' hs' hne
    rcases List.mem_append.mp hs' with hs' | hs'
    · exact h.aligned s' hs' hne
    · rw [List.mem_singleton.mp hs']
      exact hdvd
  · intro s' hs' hne
    rcases List.mem_append.mp hs' with hs' | hs'
    · exact h.inside s' hs' hne
    · rw [List.mem_singleton.mp hs']
      exact hin
  · have hsplit : granted io (t ++ [s]) = granted io t ++ granted io [s] := by simp [granted]
    rw [hsplit, List.pairwise_append]
    refine ⟨h.disjoint io, ?_, fun u hu v hv => ?_⟩
    · exact (List.pairwise_singleton _ _).sublist (List.filter_sublist.map _)
    · obtain ⟨s₁, hs₁, hio, hne, rfl⟩ := mem_granted.mp hu
      obtain ⟨s₂, hs₂, hio', -, rfl⟩ := mem_granted.mp hv
      rw [List.mem_singleton.mp hs₂] at hio' ⊢
      exact hdisj s₁ hs₁ hne (hio.trans hio'.symm)

theorem mem_rewoundRanges_append {t : List BarStep} {s s' : BarStep} (hs' : s' ∈ t ++ [s])
    (hp : s'.request.pool = .reserved) (hne : s'.ret ≠ 0) (hs : s.Rewinds) :
    s'.span ∈ rewoundRanges (t ++ [s]) := by
  rw [rewoundRanges_append, if_pos hs]
  exact List.mem_map_of_mem (List.mem_filter.mpr ⟨hs', decide_eq_true ⟨hp, hne⟩⟩)

/-- Moving the cursor of one pool keeps the invariant if the run stays sound,
    the cursor does not move back and the step handed out nothing. -/
theorem BusInv.refuse {w₀ w : PciWindows} {t : List BarStep} (h : BusInv w₀ t w) {s : BarStep}
    {c : Word} {p : Pool} (hret : s.ret = 0)
    (hc : (p = .mem ∧ c = 0) ∨ (p = .mem → w.memavail ≠ 0) ∧ (w.avail p).toNat ≤ c.toNat) :
    BusInv w₀ (t ++ [s]) (w.setAvail c p) := by
  have hold : ∀ s' ∈ t ++ [s], s'.ret ≠ 0 → s' ∈ t := by
    intro s' hs' hne
    rcases List.mem_append.mp hs' with hs' | hs'
    · exact hs'
    · rw [List.mem_singleton.mp hs'] at hne
      exact absurd hret hne
  have hrew : rewoundRanges (t ++ [s]) = rewoundRanges t := by
    rw [rewoundRanges_append, if_neg (fun h => h.2.1 hret)]
  obtain ⟨h1, h2, h3, h4, h5, h6, h7, h8, h9, h10⟩ := h
  have hsound := h4.refuse hret
  cases p with
  | none =>
    exact ⟨h1, h2, h3, hsound, h5, fun s' h hne => h6 s' (hold s' h hne) hne, h7,
      fun s' h hne => by rw [hrew]; exact h8 s' (hold s' h hne) hne, h9,
      fun s' h hne => h10 s' (hold s' h hne) hne⟩
  | reserved =>
    have hle : w.ioresavail.toNat ≤ c.toNat := by simpa [PciWindows.avail] using hc
    refine ⟨by simpa using h1, h2, h3, hsound, h5,
      fun s' h hne => h6 s' (hold s' h hne) hne, h7.imp_right fun h => h.trans hle,
      fun s' h hne hp => ?_, h9, fun s' h hne => h10 s' (hold s' h hne) hne⟩
    rw [hrew]
    exact (h8 s' (hold s' h hne) hne hp).imp_right fun h => h.imp_right fun h =>
      h.trans (Nat.add_le_add_left hle _)
  | io =>
    have hle : w.ioavail.toNat ≤ c.toNat := by simpa [PciWindows.avail] using hc
    refine ⟨by simpa using h1, h2, h3, hsound, h5.trans hle, fun s' h hne hp => ?_, h7,
      fun s' h hne => by rw [hrew]; exact h8 s' (hold s' h hne) hne, h9,
      fun s' h hne => h10 s' (hold s' h hne) hne⟩
    exact (h6 s' (hold s' h hne) hne hp).imp_right fun h => h.trans (Nat.add_le_add_left hle _)
  | mem =>
    have hle : c = 0 ∨ w.memavail ≠ 0 ∧ w.memavail.toNat ≤ c.toNat := by
      simpa [PciWindows.avail] using hc
    refine ⟨by simpa using h1, h2, h3, hsound, h5, fun s' h hne => h6 s' (hold s' h hne) hne, h7,
      fun s' h hne => by rw [hrew]; exact h8 s' (hold s' h hne) hne, ?_, fun s' h hne hp => ?_⟩
    · exact hle.imp_right fun ⟨hne, hle⟩ => (h9.resolve_left hne).trans hle
    · exact hle.imp_right fun ⟨h0, hle⟩ =>
        ((h10 s' (hold s' h hne) hne hp).resolve_left h0).trans hle

theorem forall_mem_append_singleton {α : Type} {P : α → Prop} {t : List α} {s : α}
    (h : ∀ s' ∈ t, P s') (hs : P s) : ∀ s' ∈ t ++ [s], P s' :=
  List.forall_mem_append.mpr ⟨h, by simpa using hs⟩

/-- A request of the general I/O pool that is served. -/
theorem BusInv.serveIo {w₀ w : PciWindows} {t : List BarStep} (h : BusInv w₀ t w) {r : BarRequest}
    {ret c : Word} (offset : ℕ) (hp : r.pool = .io) (hge : w.ioavail.toNat ≤ offset)
    (hfit : offset + r.size.toNat ≤ w.iolen.toNat) (hret : ret.toNat = w.iobase.toNat + offset)
    (hdvd : r.size.toNat ∣ ret.toNat) (hc : c.toNat = offset + r.size.toNat) :
    BusInv w₀ (t ++ [⟨w, r, ret, w.setAvail c .io⟩]) (w.setAvail c .io) := by
  obtain ⟨h1, h2, h3, h4, h5, h6, h7, h8, h9, h10⟩ := h
  have hrew : ∀ w' : PciWindows, rewoundRanges (t ++ [⟨w, r, ret, w'⟩]) = rewoundRanges t := by
    intro w'
    rw [rewoundRanges_append, if_neg]
    rintro ⟨hres, -⟩
    simp [hp] at hres
  refine ⟨by simpa using h1, h2, h3, h4.serve hdvd ?_ ?_, ?_, ?_, h7, ?_, h9, ?_⟩
  · rw [← h1]
    simp only [hp, Pool.isIo, PciWindows.window, ite_true, Span.Inside, BarStep.span, Span.stop_mk]
    omega
  · intro s' hs' hne hio
    simp only [hp, Pool.isIo] at hio
    apply Span.Disjoint.of_stop_le
    simp only [BarStep.span, hret]
    cases hpool : s'.request.pool with
    | io => exact (h6 s' hs' hne hpool).2.trans (by omega)
    | reserved => exact (h8 s' hs' hne hpool).1.trans (by omega)
    | none => simp [hpool] at hio
    | mem => simp [hpool] at hio
  · simp only [PciWindows.setAvail]; omega
  · refine forall_mem_append_singleton (fun s' hs' hne hpool => ?_) (fun _ _ => ?_)
    · refine (h6 s' hs' hne hpool).imp_right fun h => h.trans ?_
      simp only [PciWindows.setAvail]; omega
    · simp only [PciWindows.setAvail, BarStep.span, Span.stop_mk]
      omega
  · refine forall_mem_append_singleton (fun s' hs' hne hpool => ?_) (fun _ hpool => ?_)
    · rw [hrew]
      exact h8 s' hs' hne hpool
    · simp [hp] at hpool
  · refine forall_mem_append_singleton h10 (fun _ hpool => ?_)
    simp [hp, Pool.isIo] at hpool

/-- A request of slot `0xc` that is served: what is already granted is an
    earlier general range above `IORES_TOP`, one below the cursor, or one the
    condition compares with. -/
theorem BusInv.serveReserved {w₀ w : PciWindows} {t : List BarStep} (h : BusInv w₀ t w)
    {r : BarRequest} {ret c : Word} (offset : ℕ) (hp : r.pool = .reserved)
    (hpos : 0 < r.size.toNat) (hge : w.ioresavail.toNat ≤ offset)
    (hfit : offset + r.size.toNat ≤ w.iolen.toNat) (hret : ret.toNat = w.iobase.toNat + offset)
    (hdvd : r.size.toNat ∣ ret.toNat) (htop : offset + r.size.toNat ≤ ioresTop.toNat)
    (hold : ∀ u ∈ rewoundRanges t, Span.Disjoint ⟨w.iobase.toNat + offset, r.size.toNat⟩ u)
    (hoff : (BarStep.mk w r ret (w.setAvail c .reserved)).offset = offset)
    (hc : offset + r.size.toNat < ioresTop.toNat → c.toNat = offset + r.size.toNat) :
    BusInv w₀ (t ++ [⟨w, r, ret, w.setAvail c .reserved⟩]) (w.setAvail c .reserved) := by
  obtain ⟨h1, h2, h3, h4, h5, h6, h7, h8, h9, h10⟩ := h
  have hopen : w₀.ioavail = ioresTop := h7.resolve_right (by omega)
  have hne0 : ret ≠ 0 := by
    have : w.iobase.toNat ≠ 0 := fun h => h2 (BitVec.eq_of_toNat_eq h)
    intro h
    rw [h] at hret
    simp at hret
    omega
  have hrew : (BarStep.mk w r ret (w.setAvail c .reserved)).Rewinds ↔
      ioresTop.toNat ≤ offset + r.size.toNat := by
    unfold BarStep.Rewinds BarStep.offsetEnd
    rw [hoff]
    exact ⟨fun h => h.2.2, fun h => ⟨hp, hne0, h⟩⟩
  refine ⟨by simpa using h1, h2, h3, h4.serve hdvd ?_ ?_, h5, ?_, Or.inl hopen, ?_, h9, ?_⟩
  · rw [← h1]
    simp only [hp, Pool.isIo, PciWindows.window, ite_true, Span.Inside, BarStep.span, Span.stop_mk]
    omega
  · intro s' hs' hne hio
    simp only [hp, Pool.isIo] at hio
    simp only [BarStep.span, hret]
    cases hpool : s'.request.pool with
    | io =>
      apply Span.Disjoint.symm
      apply Span.Disjoint.of_stop_le
      refine le_trans ?_ (h6 s' hs' hne hpool).1
      rw [Span.stop_mk, hopen]
      omega
    | reserved =>
      rcases (h8 s' hs' hne hpool).2 with hmem | hle
      · exact (hold _ hmem).symm
      · exact Span.Disjoint.of_stop_le (hle.trans (by simp only; omega))
    | none => simp [hpool] at hio
    | mem => simp [hpool] at hio
  · refine forall_mem_append_singleton h6 (fun _ hpool => ?_)
    simp [hp] at hpool
  · refine forall_mem_append_singleton (fun s' hs' hne hpool => ?_) (fun hne hpool => ?_)
    · refine (h8 s' hs' hne hpool).imp_right fun h => ?_
      by_cases hlt : offset + r.size.toNat < ioresTop.toNat
      · rw [rewoundRanges_append, if_neg (fun h => absurd (hrew.mp h) (by omega))]
        refine h.imp_right fun h => h.trans (Nat.add_le_add_left ?_ _)
        simp only [PciWindows.setAvail, hc hlt]
        omega
      · exact Or.inl (mem_rewoundRanges_append (by simp [hs']) hpool hne (hrew.mpr (by omega)))
    · refine ⟨?_, ?_⟩
      · simp only [PciWindows.setAvail, BarStep.span, Span.stop_mk, hret, hopen]
        omega
      · rcases htop.lt_or_eq with hlt | heq
        · right
          simp only [PciWindows.setAvail, BarStep.span, Span.stop_mk, hret, hc hlt]
          omega
        · exact Or.inl (mem_rewoundRanges_append (by simp) hp hne0 (hrew.mpr heq.ge))
  · refine forall_mem_append_singleton h10 (fun _ hpool => ?_)
    simp [hp, Pool.isIo] at hpool

/-- A memory request that is served. -/
theorem BusInv.serveMem {w₀ w : PciWindows} {t : List BarStep} (h : BusInv w₀ t w) {r : BarRequest}
    {ret c : Word} (hp : r.pool = .mem) (h0 : w.memavail ≠ 0)
    (hge : w.memavail.toNat ≤ ret.toNat) (hdvd : r.size.toNat ∣ ret.toNat)
    (hfit : ret.toNat + r.size.toNat ≤ w.membase.toNat + w.memlen.toNat)
    (hc : c = 0 ∨ c.toNat = ret.toNat + r.size.toNat) :
    BusInv w₀ (t ++ [⟨w, r, ret, w.setAvail c .mem⟩]) (w.setAvail c .mem) := by
  obtain ⟨h1, h2, h3, h4, h5, h6, h7, h8, h9, h10⟩ := h
  have hbase := h9.resolve_left h0
  refine ⟨by simpa using h1, h2, h3, h4.serve hdvd ?_ ?_, h5, ?_, h7, ?_, ?_, ?_⟩
  · rw [← h1]
    simp only [hp, Pool.isIo, PciWindows.window, Bool.false_eq_true, ite_false, Span.Inside,
      BarStep.span, Span.stop_mk]
    omega
  · intro s' hs' hne hio
    simp only [hp, Pool.isIo] at hio
    exact Span.Disjoint.of_stop_le (((h10 s' hs' hne hio).resolve_left h0).trans hge)
  · refine forall_mem_append_singleton h6 (fun _ hpool => ?_)
    simp [hp] at hpool
  · refine forall_mem_append_singleton (fun s' hs' hne hpool => ?_) (fun _ hpool => ?_)
    · rw [rewoundRanges_append, if_neg (by rintro ⟨hres, -⟩; simp [hp] at hres)]
      exact h8 s' hs' hne hpool
    · simp [hp] at hpool
  · rcases hc with hc | hc
    · exact Or.inl hc
    · right
      simp only [PciWindows.setAvail]; omega
  · refine forall_mem_append_singleton (fun s' hs' hne hpool => ?_) (fun _ _ => hc.imp_right Eq.ge)
    refine hc.imp_right fun hc => ((h10 s' hs' hne hpool).resolve_left h0).trans ?_
    simp only [PciWindows.setAvail]; omega

/-- **Step lemma.** A request that meets its condition keeps the invariant. -/
theorem busInv_step {w₀ w : PciWindows} {t : List BarStep} (h : BusInv w₀ t w) {r : BarRequest}
    (hs : IsPow2 r.size) (hok : (barStep w r).StepOk t) :
    BusInv w₀ (t ++ [barStep w r]) (barStep w r).after := by
  have hle : ∀ p, (w.avail p).toNat ≤ alignUp (w.avail p).toNat r.size.toNat :=
    fun p => le_alignUp _ hs.pos
  cases hp : r.pool with
  | none =>
    rw [barStep_eq (addrForBar_none w r hp)]
    exact h.refuse (p := .none) (c := 0) rfl (Or.inr ⟨by simp, by simp [PciWindows.avail]⟩)
  | mem =>
    rcases memStep hs hp h.mem_half (hok.mem hp) with ⟨c, hc, heq⟩ | ⟨h0, ret, c, hge, hdvd, hfit, hc, heq⟩
    · rw [heq]
      exact h.refuse rfl (hc.imp (fun h => ⟨rfl, h⟩) fun h => ⟨fun _ => h.1, h.2⟩)
    · rw [heq]
      exact h.serveMem hp h0 hge hdvd hfit hc
  | io =>
    have hio : r.pool.isIo = true := by rw [hp]; rfl
    rcases ioStep hs hio (hok.io hio) with ⟨-, c, hc, heq⟩ | ⟨hfit, ret, c, hret, hdvd, hc, heq⟩
    · rw [heq, hp]
      refine h.refuse (s := ⟨w, r, 0, _⟩) (p := .io) rfl (Or.inr ⟨by simp, ?_⟩)
      rw [hc, BarStep.offset, barStep_before, barStep_request, hp]
      exact hle .io
    · rw [heq, hp]
      rw [if_neg (by simp [hp])] at hc
      refine h.serveIo (barStep w r).offset hp ?_ hfit hret hdvd hc
      rw [BarStep.offset, barStep_before, barStep_request, hp]
      exact hle .io
  | reserved =>
    have hio : r.pool.isIo = true := by rw [hp]; rfl
    rcases ioStep hs hio (hok.io hio) with ⟨-, c, hc, heq⟩ | ⟨hfit, ret, c, hret, hdvd, hc, heq⟩
    · rw [heq, hp]
      refine h.refuse (s := ⟨w, r, 0, _⟩) (p := .reserved) rfl (Or.inr ⟨by simp, ?_⟩)
      rw [hc, BarStep.offset, barStep_before, barStep_request, hp]
      exact hle .reserved
    · obtain ⟨htop, hold⟩ := hok.reserved hp hfit
      rw [heq, hp]
      refine h.serveReserved (barStep w r).offset hp hs.pos ?_ hfit hret hdvd htop hold
        ?_ fun hlt => ?_
      · rw [BarStep.offset, barStep_before, barStep_request, hp]
        exact hle .reserved
      · rw [BarStep.offset, BarStep.offset, barStep_before, barStep_request]
      · rw [hc, if_neg (fun h => absurd h.2 (not_le.mpr hlt))]
        rfl

/-- **Run lemma**, from any state the invariant holds in. -/
theorem busInv_run {w₀ w : PciWindows} {t : List BarStep} (h : BusInv w₀ t w)
    {rs : List BarRequest} (hs : ∀ r ∈ rs, IsPow2 r.size)
    (hok : ∀ pre s post, barTrace w rs = pre ++ s :: post → s.StepOk (t ++ pre)) :
    BusSound w₀ (t ++ barTrace w rs) := by
  induction rs generalizing w t with
  | nil => simpa [barTrace] using h.sound
  | cons r rs ih =>
    have hstep := busInv_step h (hs r (by simp)) (by simpa using hok [] (barStep w r) _ rfl)
    have hrest := ih hstep (fun r' hr' => hs r' (by simp [hr'])) (fun pre s post heq => by
      have := hok (barStep w r :: pre) s post (by simp [barTrace, heq])
      simpa using this)
    simpa [barTrace] using hrest

/-- **Window allocation on pegasos2.** From the state `bases_for_bus` sets for
    an accepted bus, in every run of requests of power-of-two sizes whose steps
    all meet `StepOk`, the results are aligned to their size, lie in the bus's
    I/O or memory window, and do not overlap within a space. -/
theorem bus_sound {w w' : PciWindows} {n : ℤ} {cells : ℕ → Word}
    (hbus : basesForBus w n cells = (true, w')) {rs : List BarRequest}
    (hs : ∀ r ∈ rs, IsPow2 r.size)
    (hok : ∀ pre s post, barTrace w' rs = pre ++ s :: post → s.StepOk pre) :
    BusSound w' (barTrace w' rs) := by
  simpa using busInv_run (busInv_start hbus) hs (by simpa using hok)

/-- The `ranges` cells of the bus at `0x80000000`: 64 KiB of I/O space at
    `0xfe000000` and 1 GiB of memory space. -/
def pci0Ranges : ℕ → Word := fun i =>
  [0x01000000, 0, 0, 0xfe000000, 0, 0x10000, 0x02000000, 0, 0x80000000, 0x80000000, 0,
    0x40000000].getD i 0

/-- What `bases_for_bus` sets from `pci0Ranges`. -/
def pci0Windows : PciWindows where
  confAddr := 0xf1000c78
  dataAddr := 0xf1000c7c
  iobase := 0xfe000000
  iolen := 0x10000
  membase := 0x80000000
  memlen := 0x40000000
  ioresavail := 0x1000
  ioavail := 0x1200
  memavail := 0x80000000

theorem basesForBus_pci0 (w : PciWindows) :
    basesForBus w 48 pci0Ranges = (true, pci0Windows) := by
  unfold basesForBus
  rw [rangesLoop, rangesLoop, rangesLoop]
  rfl

/-- Three I/O BARs of slot `0xc`: 256, 256 and 16 bytes. -/
def southBridgeRequests : List BarRequest :=
  [⟨0x01006010, 0x100⟩, ⟨0x01006014, 0x100⟩, ⟨0x01006018, 0x10⟩]

/-- The second BAR of `southBridgeRequests` reaches `IORES_TOP`, the cursor is
    set back to `0x1030`, and the third BAR lands inside the first one. -/
theorem southBridge_overlap :
    (∀ w, basesForBus w 48 pci0Ranges = (true, pci0Windows)) ∧
      (∀ r ∈ southBridgeRequests, IsPow2 r.size) ∧
      ¬ BusSound pci0Windows (barTrace pci0Windows southBridgeRequests) := by
  refine ⟨basesForBus_pci0, ?_, fun h => ?_⟩
  · simp only [southBridgeRequests, List.mem_cons, List.not_mem_nil, or_false]
    rintro r (rfl | rfl | rfl)
    · exact ⟨8, by decide, by decide⟩
    · exact ⟨8, by decide, by decide⟩
    · exact ⟨4, by decide, by decide⟩
  · have := h.disjoint true
    revert this
    decide

/-- A run of `bus_sound` with both I/O pools and a memory request. -/
theorem bus_sound_three :
    BusSound pci0Windows
      (barTrace pci0Windows [⟨0x01006010, 0x100⟩, ⟨0x01008010, 0x20⟩, ⟨0x02008014, 0x1000⟩]) :=
  bus_sound (w := pci0Windows) (basesForBus_pci0 _) (by
    simp only [List.mem_cons, List.not_mem_nil, or_false]
    rintro r (rfl | rfl | rfl)
    · exact ⟨8, by decide, by decide⟩
    · exact ⟨5, by decide, by decide⟩
    · exact ⟨12, by decide, by decide⟩) (by
    intro pre s post heq
    rcases pre with _ | ⟨s₁, _ | ⟨s₂, _ | ⟨s₃, pre⟩⟩⟩ <;>
      simp only [barTrace, List.nil_append, List.cons_append, List.cons.injEq, List.nil_eq,
        List.append_eq_nil_iff, reduceCtorEq, and_false] at heq
    · rw [← heq.1]
      exact ⟨by decide, by decide, by decide⟩
    · rw [← heq.1, ← heq.2.1]
      exact ⟨by decide, by decide, by decide⟩
    · rw [← heq.1, ← heq.2.1, ← heq.2.2.1]
      exact ⟨by decide, by decide, by decide⟩)

end BBoot.Pegasos2
