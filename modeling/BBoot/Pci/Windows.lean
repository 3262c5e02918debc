import BBoot.Common.Span
import BBoot.Common.Word

/-!
# PCI window allocation on amigaone and sam460

Both board files keep the same static variables and the same `addr_for_bar`
(`brd_amigaone.c` lines 31–45, `brd_sam460.c` lines 350–364); only the values
`setup_pci_params` stores differ. The bound test and `ROUND_UP` are computed
modulo `2^32`.

Results:
* `addrForBar_noWrap`: a request whose exact end stays below `2^32` is served
  from the cursor if it fits and refused without effect otherwise.
* `windows_sound_iff`: in every run of requests from a fresh window, the
  addresses handed out are aligned, inside their window and pairwise disjoint,
  and the cursors never move back, exactly when no request of the run rounds or
  adds past `2^32`.
-/

namespace BBoot.Pci

/-! ## Model -/

/-- The static variables of `brd_amigaone.c` (lines 15–16) and `brd_sam460.c`
    (lines 56–57), with the configuration ports `pci_set_addr` stores. -/
structure PciWindows where
  confAddr : Word
  dataAddr : Word
  iobase : Word
  iolen : Word
  membase : Word
  memlen : Word
  ioavail : Word
  memavail : Word
deriving DecidableEq, Repr

/-- `setup_pci_params` of `brd_amigaone.c` (lines 20–29). -/
def amigaoneSetupPciParams : PciWindows where
  confAddr := 0xfec00cf8
  dataAddr := 0xfee00cfc
  iobase := 0xfe000000
  iolen := 0xc00000
  ioavail := 0x800000
  membase := 0x80000000
  memlen := 0x7d000000
  memavail := 0x80000000

/-- `setup_pci_params` of `brd_sam460.c` (lines 339–348). -/
def sam460SetupPciParams : PciWindows where
  confAddr := 0xDEC00000
  dataAddr := 0xDEC00004
  iobase := 0xD8000000
  iolen := 0x10000
  ioavail := 0x100
  membase := 0x80000000
  memlen := 0x20000000
  memavail := 0x80000000

/-- `BAR_SPACE_IO` (`drivers/pci.h` line 94). -/
def barSpaceIo : Word := 1

/-- `addr_for_bar` of `brd_amigaone.c` (lines 31–45) and, word for word, of
    `brd_sam460.c` (lines 350–364). -/
def addrForBar (w : PciWindows) (type size : Word) : Word × PciWindows :=
  if size = 0 then (0, w)
  else if type = barSpaceIo then
    let ret := roundUp w.ioavail size
    if ret + size > w.iolen then (0, w)
    else (ret, { w with ioavail := ret + size })
  else
    let ret := roundUp w.memavail size
    if ret + size > w.membase + w.memlen then (0, w)
    else (ret, { w with memavail := ret + size })

/-- The two boards that allocate BARs this way. -/
inductive Board
  | amigaone
  | sam460
deriving DecidableEq, Repr

/-- The state each board starts from. -/
def Board.setupPciParams : Board → PciWindows
  | .amigaone => amigaoneSetupPciParams
  | .sam460 => sam460SetupPciParams

/-! ## Runs of requests -/

/-- The arguments of one call. -/
structure BarRequest where
  type : Word
  size : Word
deriving DecidableEq, Repr

/-- `size` is zero or a power of two up to `2^31`. -/
def BarRequest.Valid (r : BarRequest) : Prop := r.size = 0 ∨ IsPow2 r.size

/-- One call with the statics before and after it. -/
structure BarStep where
  before : PciWindows
  request : BarRequest
  ret : Word
  after : PciWindows
deriving DecidableEq, Repr

/-- The call with request `r` on the statics `w`. -/
def barStep (w : PciWindows) (r : BarRequest) : BarStep :=
  let (ret, w') := addrForBar w r.type r.size
  ⟨w, r, ret, w'⟩

@[simp] theorem barStep_before (w : PciWindows) (r : BarRequest) : (barStep w r).before = w := rfl

@[simp] theorem barStep_request (w : PciWindows) (r : BarRequest) : (barStep w r).request = r := rfl

/-- The calls of a run, in order. -/
def barTrace (w : PciWindows) : List BarRequest → List BarStep
  | [] => []
  | r :: rs => barStep w r :: barTrace (barStep w r).after rs

/-- The space a request asks for: I/O or memory. -/
def BarRequest.isIo (r : BarRequest) : Bool := r.type = barSpaceIo

/-- The cursor `addr_for_bar` advances for a space. -/
def PciWindows.cursor (w : PciWindows) (io : Bool) : ℕ :=
  if io then w.ioavail.toNat else w.memavail.toNat

/-- The window of a space: `[0, iolen)` for I/O, `[membase, membase + memlen)` for memory. -/
def PciWindows.window (w : PciWindows) (io : Bool) : Span :=
  if io then ⟨0, w.iolen.toNat⟩ else ⟨w.membase.toNat, w.memlen.toNat⟩

/-- The range a call handed out, if it did. -/
def BarStep.span (s : BarStep) : Span := ⟨s.ret.toNat, s.request.size.toNat⟩

/-- The ranges of one space a run hands out, in order. -/
def granted (io : Bool) (t : List BarStep) : List Span :=
  (t.filter fun s => s.request.isIo = io ∧ s.ret ≠ 0).map BarStep.span

/-- What a run of `addr_for_bar` calls owes its callers. -/
structure WindowsSound (w : PciWindows) (t : List BarStep) : Prop where
  aligned : ∀ s ∈ t, s.ret ≠ 0 → s.request.size.toNat ∣ s.ret.toNat
  inside : ∀ s ∈ t, s.ret ≠ 0 → s.span.Inside (w.window s.request.isIo)
  disjoint : ∀ io, (granted io t).Pairwise Span.Disjoint
  monotone : ∀ s ∈ t, ∀ io, s.before.cursor io ≤ s.after.cursor io

/-- Neither the rounding of the cursor nor the end of the range passes `2^32`. -/
def BarStep.NoWrap (s : BarStep) : Prop :=
  alignUp (s.before.cursor s.request.isIo) s.request.size.toNat + s.request.size.toNat < 2 ^ 32

/-! ## One request -/

/-- The limit the bound test compares with. -/
def PciWindows.limit (w : PciWindows) (io : Bool) : Word :=
  if io then w.iolen else w.membase + w.memlen

/-- The cursor of a space after a range ending at `stop`. -/
def PciWindows.advance (w : PciWindows) (io : Bool) (stop : Word) : PciWindows :=
  if io then { w with ioavail := stop } else { w with memavail := stop }

/-- The cursor of a space as a word. -/
def PciWindows.avail (w : PciWindows) (io : Bool) : Word := if io then w.ioavail else w.memavail

/-- `addr_for_bar` does the same thing with either space's variables. -/
theorem addrForBar_eq (w : PciWindows) (r : BarRequest) (h0 : r.size ≠ 0) :
    addrForBar w r.type r.size =
      if roundUp (w.avail r.isIo) r.size + r.size > w.limit r.isIo then (0, w)
      else (roundUp (w.avail r.isIo) r.size,
        w.advance r.isIo (roundUp (w.avail r.isIo) r.size + r.size)) := by
  unfold addrForBar BarRequest.isIo PciWindows.avail PciWindows.limit PciWindows.advance
  rw [if_neg h0]
  by_cases ht : r.type = barSpaceIo <;> simp [ht]

/-- What holds of the statics between two requests that did not wrap. The two
    halves are the reason a wrapped request is never refused. -/
structure WindowInv (w : PciWindows) : Prop where
  io_pos : 0 < w.ioavail.toNat
  io_le : w.ioavail.toNat ≤ w.iolen.toNat
  io_half : w.iolen.toNat ≤ 2 ^ 31
  mem_half : 2 ^ 31 ≤ w.membase.toNat
  mem_ge : w.membase.toNat ≤ w.memavail.toNat
  mem_le : w.memavail.toNat ≤ w.membase.toNat + w.memlen.toNat
  mem_fit : w.membase.toNat + w.memlen.toNat < 2 ^ 32

theorem Board.inv (b : Board) : WindowInv b.setupPciParams := by
  cases b <;> constructor <;> decide

theorem WindowInv.limit_toNat {w : PciWindows} (h : WindowInv w) (io : Bool) :
    (w.limit io).toNat = (w.window io).stop := by
  cases io
  · simp only [PciWindows.limit, PciWindows.window, Span.stop, Bool.false_eq_true, ite_false]
    rw [BitVec.toNat_add, Nat.mod_eq_of_lt h.mem_fit]
  · simp [PciWindows.limit, PciWindows.window, Span.stop]

theorem WindowInv.cursor_pos {w : PciWindows} (h : WindowInv w) (io : Bool) : 0 < w.cursor io := by
  have := h.io_pos; have := h.mem_half; have := h.mem_ge
  cases io <;> simp [PciWindows.cursor] <;> omega

theorem WindowInv.start_le {w : PciWindows} (h : WindowInv w) (io : Bool) :
    (w.window io).start ≤ w.cursor io := by
  cases io <;> simp [PciWindows.cursor, PciWindows.window, h.mem_ge]

theorem WindowInv.cursor_le {w : PciWindows} (h : WindowInv w) (io : Bool) :
    w.cursor io ≤ (w.window io).stop := by
  have := h.io_le; have := h.mem_le
  cases io <;> simp [PciWindows.cursor, PciWindows.window, Span.stop] <;> omega

@[simp] theorem avail_toNat (w : PciWindows) (io : Bool) : (w.avail io).toNat = w.cursor io := by
  cases io <;> rfl

@[simp] theorem window_advance (w : PciWindows) (io io' : Bool) (stop : Word) :
    (w.advance io stop).window io' = w.window io' := by
  cases io <;> cases io' <;> rfl

theorem cursor_advance (w : PciWindows) (io io' : Bool) (stop : Word) :
    (w.advance io stop).cursor io' = if io' = io then stop.toNat else w.cursor io' := by
  cases io <;> cases io' <;> rfl

theorem WindowInv.advance {w : PciWindows} (h : WindowInv w) {io : Bool} {stop : Word}
    (hge : w.cursor io ≤ stop.toNat) (hle : stop.toNat ≤ (w.window io).stop) :
    WindowInv (w.advance io stop) := by
  obtain ⟨h1, h2, h3, h4, h5, h6, h7⟩ := h
  cases io <;>
    simp only [PciWindows.cursor, PciWindows.window, PciWindows.advance, Span.stop, ite_true,
      Bool.false_eq_true, ite_false] at * <;>
    constructor <;> simp only <;> omega

/-- **One request that does not wrap** is served exactly at the rounded cursor
    if the range ends inside the window, and refused with no effect otherwise. -/
theorem addrForBar_noWrap {w : PciWindows} (hw : WindowInv w) {r : BarRequest}
    (hp : IsPow2 r.size)
    (hn : alignUp (w.cursor r.isIo) r.size.toNat + r.size.toNat < 2 ^ 32) :
    (alignUp (w.cursor r.isIo) r.size.toNat + r.size.toNat ≤ (w.window r.isIo).stop ∧
      ∃ ret stop : Word, ret.toNat = alignUp (w.cursor r.isIo) r.size.toNat ∧
        stop.toNat = ret.toNat + r.size.toNat ∧
        addrForBar w r.type r.size = (ret, w.advance r.isIo stop)) ∨
    ((w.window r.isIo).stop < alignUp (w.cursor r.isIo) r.size.toNat + r.size.toNat ∧
      addrForBar w r.type r.size = (0, w)) := by
  have hret : (roundUp (w.avail r.isIo) r.size).toNat = alignUp (w.cursor r.isIo) r.size.toNat := by
    rw [hp.roundUp, avail_toNat, Nat.mod_eq_of_lt (by omega)]
  have hstop : (roundUp (w.avail r.isIo) r.size + r.size).toNat =
      alignUp (w.cursor r.isIo) r.size.toNat + r.size.toNat := by
    rw [BitVec.toNat_add, hret, Nat.mod_eq_of_lt hn]
  rw [addrForBar_eq w r hp.ne_zero]
  simp only [gt_iff_lt, BitVec.lt_def, hstop, hw.limit_toNat]
  by_cases hfit : alignUp (w.cursor r.isIo) r.size.toNat + r.size.toNat ≤ (w.window r.isIo).stop
  · exact Or.inl ⟨hfit, _, _, hret, by rw [hstop, hret], by rw [if_neg (by omega)]⟩
  · exact Or.inr ⟨by omega, by rw [if_pos (by omega)]⟩

/-! ## Runs -/

/-- The steps of a run whose requests are valid have valid requests. -/
theorem valid_of_mem_barTrace {w : PciWindows} {rs : List BarRequest} {s : BarStep}
    (hv : ∀ r ∈ rs, r.Valid) (hs : s ∈ barTrace w rs) : s.request.Valid := by
  induction rs generalizing w with
  | nil => simp [barTrace] at hs
  | cons r rs ih =>
    rcases List.mem_cons.mp hs with rfl | hs
    · exact hv r (by simp)
    · exact ih (fun r' hr' => hv r' (by simp [hr'])) hs

@[simp] theorem granted_nil (io : Bool) : granted io [] = [] := rfl

theorem granted_cons (io : Bool) (s : BarStep) (t : List BarStep) :
    granted io (s :: t) =
      if s.request.isIo = io ∧ s.ret ≠ 0 then s.span :: granted io t else granted io t := by
  simp only [granted, List.filter_cons, decide_eq_true_eq]
  split_ifs <;> rfl

/-- What a step that does not wrap preserves and gives: the invariant, a
    cursor that does not move back, and a range between the two cursor values. -/
structure StepSound (s : BarStep) : Prop where
  inv : WindowInv s.after
  window : ∀ io, s.after.window io = s.before.window io
  monotone : ∀ io, s.before.cursor io ≤ s.after.cursor io
  granted : s.ret ≠ 0 → s.request.size.toNat ∣ s.ret.toNat ∧
    s.before.cursor s.request.isIo ≤ s.ret.toNat ∧
    s.ret.toNat + s.request.size.toNat = s.after.cursor s.request.isIo

theorem stepSound {w : PciWindows} (hw : WindowInv w) {r : BarRequest} (hv : r.Valid)
    (hn : (barStep w r).NoWrap) : StepSound (barStep w r) := by
  have refused : addrForBar w r.type r.size = (0, w) → StepSound (barStep w r) := by
    intro h
    simp only [barStep, h]
    exact ⟨hw, fun _ => rfl, fun _ => le_rfl, fun hne => absurd rfl hne⟩
  rcases hv with h0 | hp
  · exact refused (by simp [addrForBar, h0])
  · have hle := le_alignUp (w.cursor r.isIo) hp.pos
    rcases addrForBar_noWrap hw hp hn with ⟨hfit, ret, stop, hret, hstop, heq⟩ | ⟨-, heq⟩
    · simp only [barStep, heq]
      refine ⟨hw.advance (by omega) (by omega), fun io => by simp, fun io => ?_, fun _ => ?_⟩
      · rw [cursor_advance]
        split_ifs with hio
        · subst hio; simp only; omega
        · exact le_rfl
      · refine ⟨?_, ?_, ?_⟩
        · simp only [hret]; exact dvd_alignUp _ _
        · simp only; omega
        · simp only [cursor_advance, ite_true]; omega
    · exact refused heq

/-- **Run lemma.** Along a run that never wraps, the ranges of each space are
    handed out in increasing order from the cursor to the end of the window. -/
theorem granted_ascending {w : PciWindows} (hw : WindowInv w) {rs : List BarRequest}
    (hv : ∀ r ∈ rs, r.Valid) (hn : ∀ s ∈ barTrace w rs, s.NoWrap) (io : Bool) :
    Span.Ascending (w.cursor io) (w.window io).stop (granted io (barTrace w rs)) := by
  induction rs generalizing w with
  | nil => exact Span.Ascending.nil _ _
  | cons r rs ih =>
    have hs := stepSound hw (hv r (by simp)) (hn _ (by simp [barTrace]))
    have hrest := ih hs.inv (fun r' hr' => hv r' (by simp [hr']))
      (fun s hs' => hn s (by simp [barTrace, hs']))
    simp only [hs.window] at hrest
    simp only [barTrace, granted_cons]
    split_ifs with hg
    · obtain ⟨rfl, hne⟩ := hg
      obtain ⟨-, hlo, hhi⟩ := hs.granted hne
      have hle := hs.inv.cursor_le r.isIo
      rw [hs.window] at hle
      simp only [barStep_before, barStep_request] at hlo hhi hle hrest ⊢
      refine Span.Ascending.cons hlo ?_ ?_
      · simp only [BarStep.span, Span.stop_mk, barStep_request]; omega
      · simp only [BarStep.span, Span.stop_mk, barStep_request, hhi]; exact hrest
    · exact hrest.lower (hs.monotone io)

/-- Every step of a run that never wraps is sound and stays in the windows the
    run started with. -/
theorem stepSound_of_mem {w : PciWindows} (hw : WindowInv w) {rs : List BarRequest}
    (hv : ∀ r ∈ rs, r.Valid) (hn : ∀ s ∈ barTrace w rs, s.NoWrap) :
    ∀ s ∈ barTrace w rs, StepSound s ∧ WindowInv s.before ∧ ∀ io, s.before.window io = w.window io := by
  induction rs generalizing w with
  | nil => simp [barTrace]
  | cons r rs ih =>
    have hs := stepSound hw (hv r (by simp)) (hn _ (by simp [barTrace]))
    intro s hmem
    rcases List.mem_cons.mp hmem with rfl | hmem
    · exact ⟨hs, hw, fun _ => rfl⟩
    · obtain ⟨h1, h2, h3⟩ := ih hs.inv (fun r' hr' => hv r' (by simp [hr']))
        (fun s hs' => hn s (by simp [barTrace, hs'])) s hmem
      exact ⟨h1, h2, fun io => (h3 io).trans (hs.window io)⟩

theorem windowsSound_of_noWrap {w : PciWindows} (hw : WindowInv w) {rs : List BarRequest}
    (hv : ∀ r ∈ rs, r.Valid) (hn : ∀ s ∈ barTrace w rs, s.NoWrap) :
    WindowsSound w (barTrace w rs) where
  aligned s hs hne := ((stepSound_of_mem hw hv hn s hs).1.granted hne).1
  inside s hs hne := by
    obtain ⟨hstep, hinv, hwin⟩ := stepSound_of_mem hw hv hn s hs
    obtain ⟨-, hlo, hhi⟩ := hstep.granted hne
    have h1 := hinv.start_le s.request.isIo
    have h2 := hstep.inv.cursor_le s.request.isIo
    rw [← hwin]
    rw [hstep.window] at h2
    unfold Span.Inside BarStep.span Span.stop at *
    simp only
    omega
  disjoint io := (granted_ascending hw hv hn io).pairwise_disjoint
  monotone s hs io := (stepSound_of_mem hw hv hn s hs).1.monotone io

/-! ## A request that wraps -/

/-- A rounded cursor that reaches the top of the address space, or a range that
    does, passes the bound test: the compared value is `0` or the bare size. -/
theorem wrap_breaks {w : PciWindows} (hw : WindowInv w) {r : BarRequest} (hp : IsPow2 r.size)
    (hwrap : 2 ^ 32 ≤ alignUp (w.cursor r.isIo) r.size.toNat + r.size.toNat) :
    ((barStep w r).ret ≠ 0 ∧ ¬ (barStep w r).span.Inside (w.window r.isIo)) ∨
      (barStep w r).after.cursor r.isIo < w.cursor r.isIo := by
  have hpos := hp.pos
  have hdvd := dvd_alignUp (w.cursor r.isIo) r.size.toNat
  have hge := le_alignUp (w.cursor r.isIo) hpos
  have hcur := hw.cursor_pos r.isIo
  have hstop := hw.limit_toNat r.isIo
  have hlim := (w.limit r.isIo).isLt
  have hret : (roundUp (w.avail r.isIo) r.size).toNat =
      alignUp (w.cursor r.isIo) r.size.toNat % 2 ^ 32 := by rw [hp.roundUp, avail_toNat]
  have heq := addrForBar_eq w r hp.ne_zero
  by_cases htop : alignUp (w.cursor r.isIo) r.size.toNat < 2 ^ 32
  · -- the range ends exactly at `2 ^ 32`: the compared end is `0`
    have hend := hp.add_le hdvd htop
    rw [Nat.mod_eq_of_lt htop] at hret
    have hzero : roundUp (w.avail r.isIo) r.size + r.size = 0 := by
      apply BitVec.eq_of_toNat_eq
      rw [BitVec.toNat_add, hret, show alignUp (w.cursor r.isIo) r.size.toNat + r.size.toNat =
        2 ^ 32 by omega]
      rfl
    rw [hzero, if_neg (by simp)] at heq
    left
    simp only [barStep, heq, BarStep.span, Span.Inside, Span.stop_mk, hret]
    refine ⟨fun h => ?_, fun h => by omega⟩
    rw [h] at hret
    simp at hret
    omega
  · -- the rounded cursor itself is `2 ^ 32`, which only memory can reach
    have hup : alignUp (w.cursor r.isIo) r.size.toNat = 2 ^ 32 := by
      have := hp.alignUp_le (w.avail r.isIo)
      rw [avail_toNat] at this
      omega
    have hlt := alignUp_lt (w.cursor r.isIo) hpos
    have hsz := hp.le
    have hio : r.isIo = false := by
      by_contra hne
      have hc : w.cursor r.isIo ≤ 2 ^ 31 := by
        have h1 := hw.io_le; have h2 := hw.io_half
        rw [Bool.not_eq_false] at hne
        rw [hne]; simp only [PciWindows.cursor, ite_true]; omega
      have := alignUp_le_of_dvd hpos hp.dvd_half hc
      omega
    have hzero : roundUp (w.avail r.isIo) r.size = 0 := by
      apply BitVec.eq_of_toNat_eq
      rw [hret, hup]; rfl
    have hmem : 2 ^ 31 ≤ (w.limit r.isIo).toNat := by
      have h1 := hw.mem_half
      rw [hstop, hio]; simp only [PciWindows.window, Span.stop]; simp; omega
    rw [hzero, if_neg (by simp [BitVec.lt_def]; omega)] at heq
    right
    simp only [barStep, heq, cursor_advance, ite_true]
    simp
    omega

theorem noWrap_of_windowsSound {w : PciWindows} (hw : WindowInv w) {rs : List BarRequest}
    (hv : ∀ r ∈ rs, r.Valid) (hs : WindowsSound w (barTrace w rs)) :
    ∀ s ∈ barTrace w rs, s.NoWrap := by
  induction rs generalizing w with
  | nil => simp [barTrace]
  | cons r rs ih =>
    have hhead : (barStep w r).NoWrap := by
      rcases hv r (by simp) with h0 | hp
      · simp [BarStep.NoWrap, barStep, h0, alignUp]
      · by_contra hwrap
        simp only [BarStep.NoWrap, barStep, not_lt] at hwrap
        rcases wrap_breaks hw hp hwrap with ⟨hne, hout⟩ | hback
        · exact hout (hs.inside _ (by simp [barTrace]) hne)
        · have := hs.monotone (barStep w r) (by simp [barTrace]) r.isIo
          exact absurd hback (not_lt.mpr this)
    have hstep := stepSound hw (hv r (by simp)) hhead
    have htail : WindowsSound (barStep w r).after (barTrace (barStep w r).after rs) := by
      refine ⟨fun s h => hs.aligned s (by simp [barTrace, h]), fun s h hne => ?_, fun io => ?_,
        fun s h => hs.monotone s (by simp [barTrace, h])⟩
      · rw [hstep.window]
        exact hs.inside s (by simp [barTrace, h]) hne
      · have := hs.disjoint io
        simp only [barTrace, granted_cons] at this
        split_ifs at this
        · exact this.of_cons
        · exact this
    intro s hmem
    rcases List.mem_cons.mp hmem with rfl | hmem
    · exact hhead
    · exact ih hstep.inv (fun r' hr' => hv r' (by simp [hr'])) htail s hmem

/-- **Window allocation.** On amigaone and sam460, from the state
    `setup_pci_params` leaves and for every run of requests of size zero or a
    power of two, the addresses handed out are aligned to their size, lie in
    their window, are pairwise disjoint in each space and the cursors never
    move back, if and only if no request of the run rounds the cursor or ends
    its range at or beyond `2^32`. -/
theorem windows_sound_iff (b : Board) (rs : List BarRequest) (hv : ∀ r ∈ rs, r.Valid) :
    WindowsSound b.setupPciParams (barTrace b.setupPciParams rs) ↔
      ∀ s ∈ barTrace b.setupPciParams rs, s.NoWrap :=
  ⟨noWrap_of_windowsSound b.inv hv, windowsSound_of_noWrap b.inv hv⟩

/-- Memory BARs on amigaone of 1 GiB, 256 MiB, 1 GiB and 16 MiB. -/
def wrappingRequests : List BarRequest :=
  [⟨0, 0x40000000⟩, ⟨0, 0x10000000⟩, ⟨0, 0x40000000⟩, ⟨0, 0x1000000⟩]

/-- The fourth request of `wrappingRequests` is placed over RAM: the third one
    rounded the cursor to `2^32` and left it at `0x40000000`. -/
theorem wrappingRequests_over_ram :
    ¬ WindowsSound amigaoneSetupPciParams (barTrace amigaoneSetupPciParams wrappingRequests) ∧
      (∀ r ∈ wrappingRequests, r.Valid) := by
  refine ⟨fun h => ?_, ?_⟩
  · have := h.inside ⟨{ amigaoneSetupPciParams with memavail := 0x40000000 }, ⟨0, 0x1000000⟩,
      0x40000000, { amigaoneSetupPciParams with memavail := 0x41000000 }⟩ (by decide) (by decide)
    revert this
    decide
  · simp only [wrappingRequests, List.mem_cons, List.not_mem_nil, or_false]
    rintro r (rfl | rfl | rfl | rfl)
    · exact Or.inr ⟨30, by decide, by decide⟩
    · exact Or.inr ⟨28, by decide, by decide⟩
    · exact Or.inr ⟨30, by decide, by decide⟩
    · exact Or.inr ⟨24, by decide, by decide⟩

/-- A run of `windows_sound_iff` that meets its condition. -/
theorem windows_sound_two :
    WindowsSound amigaoneSetupPciParams
      (barTrace amigaoneSetupPciParams [⟨0, 0x1000000⟩, ⟨1, 0x100⟩]) :=
  (windows_sound_iff .amigaone [⟨0, 0x1000000⟩, ⟨1, 0x100⟩] (by
    simp only [List.mem_cons, List.not_mem_nil, or_false]
    rintro r (rfl | rfl)
    · exact Or.inr ⟨24, by decide, by decide⟩
    · exact Or.inr ⟨8, by decide, by decide⟩)).mpr (by unfold BarStep.NoWrap; decide)

end BBoot.Pci
