import BBoot.Pci.Pegasos2
import BBoot.Pci.Windows

/-!
# BARs that are refused

`addr_for_bar` refuses a request by returning `0`. The version of amigaone and
sam460 rounds a copy of the cursor and stores it only behind the bound test;
the one of pegasos2 rounds the cursor itself, before the test. Both take an
address of `0`, which a rounded cursor can wrap to, for an address they give.

Results:
* `Pci.costsNothing_iff`, `Pegasos2.costsNothing_iff`: the requests that leave
  the cursors alone if they are refused.
* `refused_iff`: a run keeps every refused request from costing anything exactly
  when each of its steps meets that condition.
-/

namespace BBoot

section Answers

variable {σ ρ : Type} (serve : σ → ρ → Word × σ)

/-- The answers to a list of requests, one after the other. -/
def answers : σ → List ρ → List Word
  | _, [] => []
  | s, r :: rs => (serve s r).1 :: answers (serve s r).2 rs

/-- A request that is refused changes no state and no later answer. -/
def CostsNothing (s : σ) (r : ρ) : Prop :=
  (serve s r).1 = 0 →
    (serve s r).2 = s ∧ ∀ later, answers serve (serve s r).2 later = answers serve s later

/-- The answers follow from the state. -/
theorem costsNothing_iff_state (s : σ) (r : ρ) :
    CostsNothing serve s r ↔ ((serve s r).1 = 0 → (serve s r).2 = s) := by
  constructor
  · intro h hret
    exact (h hret).1
  · intro h hret
    refine ⟨h hret, fun later => ?_⟩
    rw [h hret]

end Answers

/-- Rounded up to a power of two, a word is never that far below itself: the
    cursor behind a range of that size is another one. -/
theorem roundUp_add_ne {size : Word} (hs : IsPow2 size) (c : Word) : roundUp c size + size ≠ c := by
  intro h
  have hpos := hs.pos
  have hle := le_alignUp c.toNat hpos
  have hlt := alignUp_lt c.toNat hpos
  have hhalf := hs.le
  have hbound := hs.alignUp_le c
  have hsum := congrArg BitVec.toNat h
  rw [BitVec.toNat_add, hs.roundUp] at hsum
  have hc := c.isLt
  obtain ⟨k, hk⟩ := dvd_alignUp c.toNat size.toNat
  rcases Nat.lt_or_ge (alignUp c.toNat size.toNat) (2 ^ 32) with hw | hw
  · rw [Nat.mod_eq_of_lt hw] at hsum
    omega
  · -- the rounded cursor is `0`, so the cursor would be the size itself
    have hup : alignUp c.toNat size.toNat = 2 ^ 32 := by omega
    rw [hup, Nat.mod_self, Nat.zero_add, Nat.mod_eq_of_lt size.isLt] at hsum
    rw [← hsum, alignUp_eq_self hpos dvd_rfl] at hup
    omega

namespace Pci

/-- `addr_for_bar` as a server of requests. -/
def serveBar (w : PciWindows) (r : BarRequest) : Word × PciWindows := addrForBar w r.type r.size

/-- The rounded cursor is not `0`, or the request is refused before it counts. -/
def BarStep.KeepsCursor (s : BarStep) : Prop :=
  s.request.size = 0 ∨ roundUp (s.before.avail s.request.isIo) s.request.size ≠ 0 ∨
    s.before.limit s.request.isIo < s.request.size

instance (s : BarStep) : Decidable s.KeepsCursor := by unfold BarStep.KeepsCursor; infer_instance

theorem advance_ne {w : PciWindows} {io : Bool} {stop : Word} (h : stop ≠ w.avail io) :
    w.advance io stop ≠ w := by
  intro heq
  apply h
  have havail : (w.advance io stop).avail io = stop := by cases io <;> rfl
  rw [← havail, heq]

/-- **A refused request on amigaone and sam460** costs nothing exactly when its
    size is zero, its rounded cursor is not `0` or its size is over the limit. -/
theorem costsNothing_iff (w : PciWindows) (r : BarRequest) (hv : r.Valid) :
    CostsNothing serveBar w r ↔ (barStep w r).KeepsCursor := by
  rw [costsNothing_iff_state]
  unfold BarStep.KeepsCursor serveBar
  rw [barStep_before, barStep_request]
  rcases hv with h0 | hp
  · have hsame : addrForBar w r.type r.size = (0, w) := if_pos h0
    rw [hsame]
    exact ⟨fun _ => Or.inl h0, fun _ _ => rfl⟩
  · rw [addrForBar_eq w r hp.ne_zero]
    have hmove := advance_ne (roundUp_add_ne hp (w.avail r.isIo))
    by_cases hz : roundUp (w.avail r.isIo) r.size = 0
    · have hsize : (0 : Word) + r.size = r.size := BitVec.zero_add _
      rw [hz, hsize] at hmove ⊢
      by_cases hlim : r.size > w.limit r.isIo
      · rw [if_pos hlim]
        exact ⟨fun _ => Or.inr (Or.inr hlim), fun _ _ => rfl⟩
      · rw [if_neg hlim]
        constructor
        · intro h
          exact absurd (h rfl) hmove
        · rintro (h | h | h)
          · exact absurd h hp.ne_zero
          · exact absurd rfl h
          · exact absurd h hlim
    · refine ⟨fun _ => Or.inr (Or.inl hz), fun _ => ?_⟩
      split_ifs
      · exact fun _ => rfl
      · exact fun h => absurd h hz

end Pci

namespace Pegasos2

/-- `addr_for_bar` as a server of requests. -/
def serveBar (w : PciWindows) (r : BarRequest) : Word × PciWindows := addrForBar w r.physhi r.size

/-- What the bound test compares the limit with. -/
def PciWindows.needed (w : PciWindows) (p : Pool) (size : Word) : Word :=
  if p.isIo then roundUp (w.avail p) size + size else roundUp (w.avail p) size - w.membase + size

/-- The limit of a pool. -/
def PciWindows.limit (w : PciWindows) (p : Pool) : Word := if p.isIo then w.iolen else w.memlen

/-- The address of a pool's first byte as `addr_for_bar` counts. -/
def PciWindows.base (w : PciWindows) (p : Pool) : Word := if p.isIo then w.iobase else 0

/-- A request over the limit finds the cursor at a multiple of its size. One
    that is not over it gets an address other than `0`, or finds the reserved
    cursor where it is set back to. -/
def BarStep.KeepsCursor (s : BarStep) : Prop :=
  s.request.size = 0 ∨ s.request.pool = .none ∨
    if s.before.needed s.request.pool s.request.size > s.before.limit s.request.pool then
      roundUp (s.before.avail s.request.pool) s.request.size = s.before.avail s.request.pool
    else
      s.before.base s.request.pool +
          roundUp (s.before.avail s.request.pool) s.request.size ≠ 0 ∨
        s.request.pool = .reserved ∧ s.before.ioresavail = ioresStart + 0x30 ∧
          roundUp s.before.ioresavail s.request.size + s.request.size ≥ ioresTop

instance (s : BarStep) : Decidable s.KeepsCursor := by unfold BarStep.KeepsCursor; infer_instance

theorem setAvail_eq_iff {w : PciWindows} {c : Word} {p : Pool} (hp : p ≠ .none) :
    w.setAvail c p = w ↔ c = w.avail p := by
  obtain ⟨confAddr, dataAddr, iobase, iolen, membase, memlen, ioresavail, ioavail, memavail⟩ := w
  cases p
  · exact absurd rfl hp
  all_goals simp [PciWindows.setAvail, PciWindows.avail]

/-- The cursor a request that is not over the limit leaves. -/
def PciWindows.nextAvail (w : PciWindows) (p : Pool) (size : Word) : Word :=
  if p = .reserved ∧ roundUp (w.avail p) size + size ≥ ioresTop then ioresStart + 0x30
  else roundUp (w.avail p) size + size

/-- The three pools are served alike. -/
theorem addrForBar_pool (w : PciWindows) (r : BarRequest) (h0 : r.size ≠ 0) (hp : r.pool ≠ .none) :
    addrForBar w r.physhi r.size =
      if w.needed r.pool r.size > w.limit r.pool then
        (0, w.setAvail (roundUp (w.avail r.pool) r.size) r.pool)
      else (w.base r.pool + roundUp (w.avail r.pool) r.size,
        w.setAvail (w.nextAvail r.pool r.size) r.pool) := by
  unfold PciWindows.needed PciWindows.limit PciWindows.base PciWindows.nextAvail
  by_cases hio : r.pool.isIo = true
  · rw [addrForBar_io w r h0 hio]
    simp only [hio, ite_true]
  · have hmem : r.pool = .mem := by
      cases hpool : r.pool
      · exact absurd hpool hp
      · exact absurd (by rw [hpool]; rfl) hio
      · exact absurd (by rw [hpool]; rfl) hio
      · rfl
    rw [addrForBar_mem w r h0 hmem, hmem]
    have hbase : (0 : Word) + roundUp w.memavail r.size = roundUp w.memavail r.size :=
      BitVec.zero_add _
    simp only [Pool.isIo, Bool.false_eq_true, ite_false, PciWindows.avail, PciWindows.setAvail,
      reduceCtorEq, false_and, hbase]

/-- **A refused request on pegasos2** costs nothing exactly when its cursor was
    at a multiple of its size already, up to the addresses that wrap to `0`. -/
theorem costsNothing_iff (w : PciWindows) (r : BarRequest) (hv : r.size = 0 ∨ IsPow2 r.size) :
    CostsNothing serveBar w r ↔ (barStep w r).KeepsCursor := by
  rw [costsNothing_iff_state]
  unfold BarStep.KeepsCursor serveBar
  rw [barStep_before, barStep_request]
  by_cases h0 : r.size = 0
  · have hsame : addrForBar w r.physhi r.size = (0, w) := if_pos h0
    rw [hsame]
    exact ⟨fun _ => Or.inl h0, fun _ _ => rfl⟩
  by_cases hp : r.pool = .none
  · rw [addrForBar_none w r hp]
    exact ⟨fun _ => Or.inr (Or.inl hp), fun _ _ => rfl⟩
  have hs := hv.resolve_left h0
  rw [addrForBar_pool w r h0 hp]
  by_cases hlim : w.needed r.pool r.size > w.limit r.pool
  · -- refused: the rounded cursor is stored
    rw [if_pos hlim, if_pos hlim]
    simp only [setAvail_eq_iff hp, h0, hp, false_or, forall_const]
  · -- served, with an address of `0` when the base and the cursor wrap
    rw [if_neg hlim, if_neg hlim]
    simp only [setAvail_eq_iff hp, h0, hp, false_or]
    rw [imp_iff_not_or]
    apply or_congr_right
    unfold PciWindows.nextAvail
    by_cases hres : r.pool = .reserved ∧ roundUp (w.avail r.pool) r.size + r.size ≥ ioresTop
    · rw [if_pos hres]
      obtain ⟨hres, htop⟩ := hres
      rw [hres] at htop ⊢
      constructor
      · exact fun h => ⟨rfl, h.symm, htop⟩
      · exact fun h => h.2.1.symm
    · rw [if_neg hres]
      constructor
      · exact fun h => absurd h (roundUp_add_ne hs _)
      · rintro ⟨h, -, htop⟩
        rw [h] at hres
        exact absurd ⟨rfl, htop⟩ hres

end Pegasos2

/-! ## Runs -/

theorem Pci.before_request {w : Pci.PciWindows} {rs : List Pci.BarRequest} {s : Pci.BarStep}
    (hs : s ∈ Pci.barTrace w rs) : Pci.barStep s.before s.request = s := by
  induction rs generalizing w with
  | nil => simp [Pci.barTrace] at hs
  | cons r rs ih =>
    rcases List.mem_cons.mp hs with rfl | hs
    · rfl
    · exact ih hs

theorem Pegasos2.before_request {w : Pegasos2.PciWindows} {rs : List Pegasos2.BarRequest}
    {s : Pegasos2.BarStep} (hs : s ∈ Pegasos2.barTrace w rs) :
    s.request ∈ rs ∧ Pegasos2.barStep s.before s.request = s := by
  induction rs generalizing w with
  | nil => simp [Pegasos2.barTrace] at hs
  | cons r rs ih =>
    rcases List.mem_cons.mp hs with rfl | hs
    · exact ⟨by simp, rfl⟩
    · exact ⟨List.mem_cons_of_mem _ (ih hs).1, (ih hs).2⟩

/-- **Refused requests.** In every run of requests of size zero or a power of
    two, on amigaone or sam460 from the state `setup_pci_params` leaves and on
    pegasos2 from any state, every refused request leaves the statics as they
    were, so that all later answers are those of a run without it, if and only
    if every step of the run meets `KeepsCursor`. -/
theorem refused_iff (b : Pci.Board) (rs : List Pci.BarRequest) (hv : ∀ r ∈ rs, r.Valid)
    (w : Pegasos2.PciWindows) (ps : List Pegasos2.BarRequest)
    (hv' : ∀ r ∈ ps, r.size = 0 ∨ IsPow2 r.size) :
    ((∀ s ∈ Pci.barTrace b.setupPciParams rs, CostsNothing Pci.serveBar s.before s.request) ↔
        ∀ s ∈ Pci.barTrace b.setupPciParams rs, s.KeepsCursor) ∧
      ((∀ s ∈ Pegasos2.barTrace w ps, CostsNothing Pegasos2.serveBar s.before s.request) ↔
        ∀ s ∈ Pegasos2.barTrace w ps, s.KeepsCursor) := by
  constructor
  · apply forall₂_congr
    intro s hs
    rw [Pci.costsNothing_iff _ _ (Pci.valid_of_mem_barTrace hv hs), Pci.before_request hs]
  · apply forall₂_congr
    intro s hs
    obtain ⟨hmem, hstep⟩ := Pegasos2.before_request hs
    rw [Pegasos2.costsNothing_iff _ _ (hv' _ hmem), hstep]

/-- Memory BARs on amigaone of 1 GiB, 512 MiB, 256 MiB, 4 KiB and 256 MiB: the
    last one is refused with the cursor at `0xf0001000`. -/
def wrappedRefusal : List Pci.BarRequest :=
  [⟨0, 0x40000000⟩, ⟨0, 0x20000000⟩, ⟨0, 0x10000000⟩, ⟨0, 0x1000⟩, ⟨0, 0x10000000⟩]

/-- An I/O BAR of 64 KiB for slot 3 of the bus of `pci0Ranges`. -/
def largeIoRequest : Pegasos2.BarRequest := ⟨0x01001810, 0x10000⟩

/-- The refused request of `wrappedRefusal` moves the memory cursor to
    `0x10000000`, over RAM. `largeIoRequest` is refused and uses up the I/O window:
    a BAR of 256 bytes behind it is refused as well, which alone fits. -/
theorem refused_moves :
    (∀ r ∈ wrappedRefusal, r.Valid) ∧
      (∃ s ∈ Pci.barTrace Pci.amigaoneSetupPciParams wrappedRefusal,
        s.ret = 0 ∧ s.after.memavail ≠ s.before.memavail ∧
          ¬ CostsNothing Pci.serveBar s.before s.request) ∧
      Pegasos2.basesForBus ⟨0, 0, 0, 0, 0, 0, 0, 0, 0⟩ 48 Pegasos2.pci0Ranges =
        (true, Pegasos2.pci0Windows) ∧
      IsPow2 largeIoRequest.size ∧
      answers Pegasos2.serveBar Pegasos2.pci0Windows [largeIoRequest, ⟨0x01002010, 0x100⟩] =
        [0, 0] ∧
      answers Pegasos2.serveBar Pegasos2.pci0Windows [⟨0x01002010, 0x100⟩] = [0xfe001200] ∧
      ¬ CostsNothing Pegasos2.serveBar Pegasos2.pci0Windows largeIoRequest := by
  refine ⟨?_, ⟨⟨{ Pci.amigaoneSetupPciParams with memavail := 0xf0001000 }, ⟨0, 0x10000000⟩, 0,
    { Pci.amigaoneSetupPciParams with memavail := 0x10000000 }⟩, by decide, rfl, by decide, ?_⟩,
    Pegasos2.basesForBus_pci0 _, ⟨16, by decide, by decide⟩, by decide, by decide, ?_⟩
  · simp only [wrappedRefusal, List.mem_cons, List.not_mem_nil, or_false]
    rintro r (rfl | rfl | rfl | rfl | rfl)
    · exact Or.inr ⟨30, by decide, by decide⟩
    · exact Or.inr ⟨29, by decide, by decide⟩
    · exact Or.inr ⟨28, by decide, by decide⟩
    · exact Or.inr ⟨12, by decide, by decide⟩
    · exact Or.inr ⟨28, by decide, by decide⟩
  · rw [costsNothing_iff_state]
    decide
  · rw [costsNothing_iff_state]
    decide

/-- A refused request with the cursor at a multiple of its size already costs
    nothing on pegasos2, and none does on sam460 below the top of the space. -/
theorem refused_two :
    (∀ s ∈ Pci.barTrace Pci.sam460SetupPciParams [⟨1, 0x20000⟩, ⟨1, 0x100⟩],
        CostsNothing Pci.serveBar s.before s.request) ∧
      ∀ s ∈ Pegasos2.barTrace Pegasos2.pci0Windows [⟨0x02001810, 0x80000000⟩],
        CostsNothing Pegasos2.serveBar s.before s.request := by
  obtain ⟨h, h'⟩ := refused_iff .sam460 [⟨1, 0x20000⟩, ⟨1, 0x100⟩] (by
      simp only [List.mem_cons, List.not_mem_nil, or_false]
      rintro r (rfl | rfl)
      · exact Or.inr ⟨17, by decide, by decide⟩
      · exact Or.inr ⟨8, by decide, by decide⟩)
    Pegasos2.pci0Windows [⟨0x02001810, 0x80000000⟩] (by
      simp only [List.mem_cons, List.not_mem_nil, or_false]
      rintro r rfl
      exact Or.inr ⟨31, by decide, by decide⟩)
  exact ⟨h.mpr (by decide), h'.mpr (by decide)⟩

end BBoot
