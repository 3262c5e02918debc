import BBoot.Pci.Cells
import BBoot.Pci.Pegasos2

/-!
# One PCI node after the other on pegasos2

`pegasos2_setup` calls `bases_for_bus` for both PCI nodes. What the first one
left in `iobase`, `iolen`, `membase` and `memlen` stays where the `ranges` of
the second one has no entry of that kind, and the test whether the bases are
complete looks at what is in the variables then.

Results:
* `busDecision_eq`: what is decided from entries that fit in `cells`.
* `ownRanges_iff`: the decision depends on the node's own `ranges` exactly when
  they have both kinds, or when nothing left over completes them.
-/

namespace BBoot.Pegasos2

/-! ## Model -/

/-- Six cells of `ranges`: a PCI address, a CPU address and a size. -/
structure RangeEntry where
  physHi : Word
  physMid : Word
  physLo : Word
  base : Word
  sizeHi : Word
  sizeLo : Word
deriving DecidableEq, Repr

def RangeEntry.cells (e : RangeEntry) : List Word :=
  [e.physHi, e.physMid, e.physLo, e.base, e.sizeHi, e.sizeLo]

/-- A `ranges` property. -/
def rangeBytes (es : List RangeEntry) : List Byte := (es.flatMap RangeEntry.cells).flatMap cellBytes

/-- An entry counts as I/O or as memory (line 201). -/
def RangeEntry.Counts (e : RangeEntry) : Prop := physHiType e.physHi = 1 ∨ physHiType e.physHi = 2

instance (e : RangeEntry) : Decidable e.Counts := by unfold RangeEntry.Counts; infer_instance

/-- The statics before the first call. -/
def zeroWindows : PciWindows where
  confAddr := 0
  dataAddr := 0
  iobase := 0
  iolen := 0
  membase := 0
  memlen := 0
  ioresavail := 0
  ioavail := 0
  memavail := 0

/-- What `bases_for_bus` decides for a node: the statics of a bus it accepts. -/
def busDecision (w : PciWindows) (ranges : Option (List RangeEntry)) (cells : ℕ → Word) :
    Option PciWindows :=
  let (n, cells) := promGetpropCells (ranges.map rangeBytes) cells
  match basesForBus w n cells with
  | (true, w') => some w'
  | (false, _) => none

/-- The cells the loop over `n` cells reads are cells of the buffer. -/
def ReadsInside (cells : ℕ → Word) (n : ℕ) : Prop :=
  ∀ k, 6 * k < n → 6 * k < cellsLength ∧
    (physHiType (cells (6 * k)) = 1 ∨ physHiType (cells (6 * k)) = 2 → 6 * k + 5 < cellsLength)

/-- What `bases_for_bus` decides in a state follows from the node's own
    `ranges`: no other memory is read, and the decision is that of the first
    call, whatever is in the buffer. -/
structure OwnRanges (w : PciWindows) (ranges : Option (List RangeEntry)) (cells : ℕ → Word) :
    Prop where
  inside : ReadsInside (promGetpropCells (ranges.map rangeBytes) cells).2
    ((promGetpropCells (ranges.map rangeBytes) cells).1.toNat / 4)
  same : ∀ cells', busDecision w ranges cells = busDecision zeroWindows ranges cells'

/-- At most six entries, of which the sixth does not count: its last cell would
    be behind the 35 cells of the buffer. -/
def RangesFit (es : List RangeEntry) : Prop :=
  es.length ≤ 6 ∧ ∀ e, es[5]? = some e → ¬ e.Counts

/-- The base and length the last entry of a type has. -/
def ownRange (type : Word) (es : List RangeEntry) : Option (Word × Word) :=
  (es.filter fun e => physHiType e.physHi = type).getLast?.map fun e => (e.base, e.sizeLo)

/-- An I/O and a memory window that `bases_for_bus` accepts. -/
def Acceptable (io mem : Word × Word) : Prop :=
  io.1 ≠ 0 ∧ io.2 ≠ 0 ∧ mem.2 ≠ 0 ∧ (mem.1 = 0x80000000 ∨ mem.1 = 0xc0000000)

instance (io mem : Word × Word) : Decidable (Acceptable io mem) := by
  unfold Acceptable; infer_instance

/-! ## The loop over the entries -/

/-- One pass of the loop. -/
def applyRange (w : PciWindows) (e : RangeEntry) : PciWindows :=
  if physHiType e.physHi = 1 then { w with iobase := e.base, iolen := e.sizeLo }
  else if physHiType e.physHi = 2 then { w with membase := e.base, memlen := e.sizeLo }
  else w

/-- The loop sees the entries `es` from cell `i` on. -/
def ReadAs (cells : ℕ → Word) (i : ℕ) (es : List RangeEntry) : Prop :=
  ∀ k (hk : k < es.length), physHiType (cells (i + 6 * k)) = physHiType es[k].physHi ∧
    (es[k].Counts →
      cells (i + 6 * k + 3) = es[k].base ∧ cells (i + 6 * k + 5) = es[k].sizeLo)

theorem ReadAs.tail {cells : ℕ → Word} {i : ℕ} {e : RangeEntry} {es : List RangeEntry}
    (h : ReadAs cells i (e :: es)) : ReadAs cells (i + 6) es := by
  intro k hk
  have := h (k + 1) (by simpa using hk)
  rw [show i + 6 * (k + 1) = i + 6 + 6 * k by omega] at this
  exact this

theorem rangesLoop_foldl {cells : ℕ → Word} {es : List RangeEntry} {i : ℕ} (h : ReadAs cells i es)
    (w : PciWindows) : rangesLoop cells (i + 6 * es.length) i w = es.foldl applyRange w := by
  induction es generalizing i w with
  | nil =>
    rw [rangesLoop, dif_neg (by simp)]
    rfl
  | cons e es ih =>
    obtain ⟨htype, hvalues⟩ := h 0 (by simp)
    simp only [Nat.mul_zero, Nat.add_zero, List.getElem_cons_zero] at htype hvalues
    have hlen : i + 6 * (e :: es).length = i + 6 + 6 * es.length := by
      rw [List.length_cons]
      omega
    rw [rangesLoop, dif_pos (by rw [hlen]; omega), hlen, ih h.tail, List.foldl_cons, htype]
    congr 1
    unfold applyRange
    split_ifs with h1 h2
    · rw [(hvalues (Or.inl h1)).1, (hvalues (Or.inl h1)).2]
    · rw [(hvalues (Or.inr h2)).1, (hvalues (Or.inr h2)).2]
    · rfl

theorem ownRange_append (type : Word) (es : List RangeEntry) (e : RangeEntry) :
    ownRange type (es ++ [e]) =
      if physHiType e.physHi = type then some (e.base, e.sizeLo) else ownRange type es := by
  unfold ownRange
  rw [List.filter_append]
  split_ifs with h
  · rw [List.filter_cons_of_pos (by simpa using h), List.filter_nil, List.getLast?_concat,
      Option.map_some]
  · rw [List.filter_cons_of_neg (by simpa using h), List.filter_nil, List.append_nil]

/-- The last entry of each kind counts; without one the variables stay. -/
theorem foldl_applyRange (es : List RangeEntry) (w : PciWindows) :
    es.foldl applyRange w = { w with
      iobase := ((ownRange 1 es).getD (w.iobase, w.iolen)).1
      iolen := ((ownRange 1 es).getD (w.iobase, w.iolen)).2
      membase := ((ownRange 2 es).getD (w.membase, w.memlen)).1
      memlen := ((ownRange 2 es).getD (w.membase, w.memlen)).2 } := by
  induction es using List.reverseRecOn with
  | nil => rfl
  | append_singleton es e ih =>
    rw [List.foldl_append, ih, List.foldl_cons, List.foldl_nil, ownRange_append, ownRange_append]
    unfold applyRange
    by_cases h1 : physHiType e.physHi = 1
    · have h2 : physHiType e.physHi ≠ 2 := by
        rw [h1]
        decide
      rw [if_pos h1, if_pos h1, if_neg h2]
      rfl
    · rw [if_neg h1, if_neg h1]
      by_cases h2 : physHiType e.physHi = 2
      · rw [if_pos h2, if_pos h2]
        rfl
      · rw [if_neg h2, if_neg h2]

/-! ## The buffer -/

theorem rangeCells_length (es : List RangeEntry) :
    (es.flatMap RangeEntry.cells).length = 6 * es.length := by
  induction es with
  | nil => rfl
  | cons e es ih =>
    rw [List.flatMap_cons, List.length_append, ih, List.length_cons]
    show 6 + 6 * es.length = 6 * (es.length + 1)
    omega

theorem rangeBytes_length (es : List RangeEntry) : (rangeBytes es).length = 24 * es.length := by
  rw [rangeBytes, cellBytes_length, rangeCells_length]
  omega

/-- Cell `r` of entry `k`. -/
theorem rangeCells_getElem {es : List RangeEntry} {k r : ℕ} (hk : k < es.length) (hr : r < 6)
    (h : 6 * k + r < (es.flatMap RangeEntry.cells).length) :
    (es.flatMap RangeEntry.cells)[6 * k + r] = es[k].cells[r] := by
  induction es generalizing k with
  | nil => exact absurd hk (Nat.not_lt_zero k)
  | cons e es ih =>
    cases k with
    | zero =>
      simp only [Nat.mul_zero, Nat.zero_add, List.flatMap_cons, List.getElem_cons_zero]
      exact List.getElem_append_left (show r < e.cells.length from hr)
    | succ k =>
      rw [List.length_cons] at hk
      have hflat := rangeCells_length es
      simp only [List.flatMap_cons, List.getElem_cons_succ]
      have hcells : e.cells.length = 6 := rfl
      have hk' : k < es.length := by omega
      rw [List.getElem_append_right (by omega)]
      refine Eq.trans ?_ (ih hk' (by omega))
      congr 1
      omega

/-- The cells of the property that fit are in the buffer. -/
theorem getprop_ranges (es : List RangeEntry) (cells : ℕ → Word) :
    (promGetpropCells (some (rangeBytes es)) cells).1.toNat / 4 = 6 * es.length ∧
      ∀ k r (hk : k < es.length) (hr : r < 6), 6 * k + r < cellsLength →
        (promGetpropCells (some (rangeBytes es)) cells).2 (6 * k + r) = es[k].cells[r] := by
  constructor
  · show (rangeBytes es).length / 4 = _
    rw [rangeBytes_length]
    omega
  · intro k r hk hr hlt
    have hflat : 6 * k + r < (es.flatMap RangeEntry.cells).length := by
      rw [rangeCells_length]
      omega
    show (if 6 * k + r < cellsLength then fillCell (rangeBytes es) _ (cells _) else _) = _
    rw [if_pos hlt, rangeBytes, fillCell_flatMap hflat, rangeCells_getElem hk hr]

theorem readAs_getprop {es : List RangeEntry} (hfit : RangesFit es) (cells : ℕ → Word) :
    ReadAs (promGetpropCells (some (rangeBytes es)) cells).2 0 es := by
  obtain ⟨-, hcells⟩ := getprop_ranges es cells
  have hbuf : cellsLength = 35 := rfl
  intro k hk
  have hk6 := hfit.1
  rw [Nat.zero_add]
  refine ⟨congrArg physHiType (hcells k 0 hk (by omega) (by omega)), fun hcounts => ?_⟩
  have hk5 : k ≠ 5 := by
    rintro rfl
    exact hfit.2 es[5] (List.getElem?_eq_getElem hk) hcounts
  exact ⟨hcells k 3 hk (by omega) (by omega), hcells k 5 hk (by omega) (by omega)⟩

theorem readsInside_iff (es : List RangeEntry) (cells : ℕ → Word) :
    ReadsInside (promGetpropCells (some (rangeBytes es)) cells).2
        ((promGetpropCells (some (rangeBytes es)) cells).1.toNat / 4) ↔ RangesFit es := by
  obtain ⟨hcount, hcells⟩ := getprop_ranges es cells
  have hbuf : cellsLength = 35 := rfl
  rw [hcount]
  constructor
  · intro h
    have h6 : es.length ≤ 6 := by
      by_contra hlen
      have := (h 6 (by omega)).1
      omega
    refine ⟨h6, fun e he hcounts => ?_⟩
    obtain ⟨hlen, rfl⟩ := List.getElem?_eq_some_iff.mp he
    have htype := hcells 5 0 hlen (by omega) (by omega)
    have := (h 5 (by omega)).2 (by rw [← Nat.add_zero (6 * 5), htype]; exact hcounts)
    omega
  · intro hfit k hk
    have hk6 := hfit.1
    obtain ⟨htype, -⟩ := readAs_getprop hfit cells k (by omega)
    rw [Nat.zero_add] at htype
    refine ⟨by omega, fun hcounts => ?_⟩
    rw [htype] at hcounts
    have hk5 : k ≠ 5 := by
      rintro rfl
      exact hfit.2 es[5] (List.getElem?_eq_getElem (by omega)) hcounts
    omega

/-! ## The decision -/

/-- What `bases_for_bus` does behind its loop (lines 212–232). -/
def acceptBus (w : PciWindows) : Option PciWindows :=
  if w.iobase = 0 ∨ w.iolen = 0 ∨ w.membase = 0 ∨ w.memlen = 0 then none
  else if w.membase = 0x80000000 then
    some { w with memavail := w.membase, ioresavail := ioresStart, ioavail := ioresTop,
                  confAddr := mv64361Base + 0xc78, dataAddr := mv64361Base + 0xc78 + 4 }
  else if w.membase = 0xc0000000 then
    some { w with memavail := w.membase, ioresavail := w.iolen, ioavail := ioresStart,
                  confAddr := mv64361Base + 0xcf8, dataAddr := mv64361Base + 0xcf8 + 4 }
  else none

/-- **What is decided from entries that fit**: nothing without any, else what
    the last entry of each kind and the variables left over make up. -/
theorem busDecision_eq {es : List RangeEntry} (hfit : RangesFit es) (w : PciWindows)
    (cells : ℕ → Word) :
    busDecision w (some es) cells = if es = [] then none else acceptBus (es.foldl applyRange w) := by
  obtain ⟨hcount, -⟩ := getprop_ranges es cells
  have hloop := rangesLoop_foldl (readAs_getprop hfit cells) w
  have hn : (promGetpropCells (some (rangeBytes es)) cells).1 = ((24 * es.length : ℕ) : ℤ) := by
    rw [← rangeBytes_length]
    rfl
  rw [Nat.zero_add] at hloop
  unfold busDecision
  rw [Option.map_some]
  dsimp only
  unfold basesForBus
  by_cases hnil : es = []
  · rw [if_pos hnil, if_pos (by rw [hn, hnil]; simp)]
  · have hpos := List.length_pos_iff.mpr hnil
    rw [if_neg hnil, if_neg (by rw [hn]; omega), hcount, hloop]
    generalize es.foldl applyRange w = v
    unfold acceptBus
    dsimp only
    split_ifs <;> rfl

theorem acceptBus_eq_none_iff (w : PciWindows) :
    acceptBus w = none ↔ ¬ Acceptable (w.iobase, w.iolen) (w.membase, w.memlen) := by
  unfold acceptBus Acceptable
  split_ifs with h1 h2 h3
  · simp only [true_iff]
    rintro ⟨h, h', h'', hm⟩
    rcases h1 with h1 | h1 | h1 | h1
    · exact h h1
    · exact h' h1
    · rw [h1] at hm
      revert hm
      decide
    · exact h'' h1
  · simp only [false_iff, not_not]
    exact ⟨by tauto, by tauto, by tauto, Or.inl h2⟩
  · simp only [false_iff, not_not]
    exact ⟨by tauto, by tauto, by tauto, Or.inr h3⟩
  · simp only [true_iff]
    rintro ⟨-, -, -, hm | hm⟩
    · exact h2 hm
    · exact h3 hm

/-- The statics of an accepted bus do not depend on what else was there. -/
theorem acceptBus_congr {w w' : PciWindows} (h1 : w.iobase = w'.iobase) (h2 : w.iolen = w'.iolen)
    (h3 : w.membase = w'.membase) (h4 : w.memlen = w'.memlen) : acceptBus w = acceptBus w' := by
  unfold acceptBus
  rw [h1, h2, h3, h4]

theorem acceptBus_ranges_eq_none_iff (es : List RangeEntry) (w : PciWindows) :
    acceptBus (es.foldl applyRange w) = none ↔
      ¬ Acceptable ((ownRange 1 es).getD (w.iobase, w.iolen))
        ((ownRange 2 es).getD (w.membase, w.memlen)) := by
  rw [acceptBus_eq_none_iff, foldl_applyRange]

/-- Without an entry of each kind, the first call accepts nothing. -/
theorem acceptBus_zero {es : List RangeEntry}
    (h : ¬ ((ownRange 1 es).isSome = true ∧ (ownRange 2 es).isSome = true)) :
    acceptBus (es.foldl applyRange zeroWindows) = none := by
  rw [acceptBus_ranges_eq_none_iff]
  rintro ⟨hio, -, -, hmem⟩
  apply h
  constructor
  · cases hown : ownRange 1 es with
    | none =>
      rw [hown] at hio
      exact absurd rfl hio
    | some _ => rfl
  · cases hown : ownRange 2 es with
    | none =>
      rw [hown] at hmem
      revert hmem
      decide
    | some _ => rfl

/-- With an entry of each kind, nothing left over matters. -/
theorem acceptBus_both {es : List RangeEntry}
    (h : (ownRange 1 es).isSome = true ∧ (ownRange 2 es).isSome = true) (w : PciWindows) :
    acceptBus (es.foldl applyRange w) = acceptBus (es.foldl applyRange zeroWindows) := by
  obtain ⟨io, hio⟩ := Option.isSome_iff_exists.mp h.1
  obtain ⟨mem, hmem⟩ := Option.isSome_iff_exists.mp h.2
  rw [foldl_applyRange, foldl_applyRange, hio, hmem]
  exact acceptBus_congr rfl rfl rfl rfl

/-- **What a node decides for itself.** From any statics the first node may leave
    and for every `ranges` property of the second one, any number of entries of
    any types, `bases_for_bus` reads nothing but the property and decides what it
    decides from the all-zero statics, if and only if the entries that count fit
    in `cells` and there are none at all, or one for I/O and one for memory, or
    the variables left over for the missing kind do not make up a bus that is
    accepted. -/
theorem ownRanges_iff (w : PciWindows) (ranges : Option (List RangeEntry)) (cells : ℕ → Word) :
    OwnRanges w ranges cells ↔ ∀ es, ranges = some es → RangesFit es ∧
      (es = [] ∨ ((ownRange 1 es).isSome = true ∧ (ownRange 2 es).isSome = true) ∨
        ¬ Acceptable ((ownRange 1 es).getD (w.iobase, w.iolen))
          ((ownRange 2 es).getD (w.membase, w.memlen))) := by
  cases ranges with
  | none =>
    refine ⟨fun _ es h => absurd h (by simp), fun _ => ⟨fun k hk => ?_, fun _ => rfl⟩⟩
    have hzero : (promGetpropCells none cells).1.toNat / 4 = 0 := by
      show (-1 : ℤ).toNat / 4 = 0
      decide
    rw [Option.map_none, hzero] at hk
    exact absurd hk (Nat.not_lt_zero _)
  | some es =>
    simp only [Option.some.injEq, forall_eq']
    constructor
    · rintro ⟨hinside, hsame⟩
      have hfit := (readsInside_iff es cells).mp hinside
      refine ⟨hfit, ?_⟩
      by_contra hcon
      push Not at hcon
      obtain ⟨hnil, hkinds, haccept⟩ := hcon
      have heq := hsame cells
      rw [busDecision_eq hfit, busDecision_eq hfit, if_neg hnil, if_neg hnil,
        acceptBus_zero fun h => hkinds h.1 h.2] at heq
      exact (acceptBus_ranges_eq_none_iff es w).mp heq haccept
    · rintro ⟨hfit, hcond⟩
      refine ⟨(readsInside_iff es cells).mpr hfit, fun cells' => ?_⟩
      rw [busDecision_eq hfit, busDecision_eq hfit]
      by_cases hnil : es = []
      · rw [if_pos hnil, if_pos hnil]
      rw [if_neg hnil, if_neg hnil]
      by_cases hkinds : (ownRange 1 es).isSome = true ∧ (ownRange 2 es).isSome = true
      · exact acceptBus_both hkinds w
      · have haccept := (hcond.resolve_left hnil).resolve_left hkinds
        rw [acceptBus_zero hkinds, (acceptBus_ranges_eq_none_iff es w).mpr haccept]

/-- `ranges` of a first node: `pci0Ranges` as entries. -/
def pci0Entries : List RangeEntry :=
  [⟨0x01000000, 0, 0, 0xfe000000, 0, 0x10000⟩, ⟨0x02000000, 0, 0x80000000, 0x80000000, 0, 0x40000000⟩]

/-- `ranges` of a second node without I/O space. -/
def memoryEntries : List RangeEntry := [⟨0x02000000, 0, 0xc0000000, 0xc0000000, 0, 0x30000000⟩]

/-- The second node has no I/O space and is not accepted on its own. Behind
    the first one it is, with the first one's I/O window as its own. -/
theorem memoryEntries_borrow :
    (∀ cells, busDecision zeroWindows (some pci0Entries) cells = some pci0Windows) ∧
      (∀ cells, busDecision zeroWindows (some memoryEntries) cells = none) ∧
      (∀ cells, busDecision pci0Windows (some memoryEntries) cells = some {
        confAddr := 0xf1000cf8, dataAddr := 0xf1000cfc, iobase := 0xfe000000, iolen := 0x10000,
        membase := 0xc0000000, memlen := 0x30000000, ioresavail := 0x10000, ioavail := 0x1000,
        memavail := 0xc0000000 }) ∧
      ¬ OwnRanges pci0Windows (some memoryEntries) fun _ => 0 := by
  have hfit : RangesFit pci0Entries := ⟨by decide, by simp [pci0Entries]⟩
  have hfit' : RangesFit memoryEntries := ⟨by decide, by simp [memoryEntries]⟩
  refine ⟨fun cells => ?_, fun cells => ?_, fun cells => ?_, fun h => ?_⟩
  · rw [busDecision_eq hfit]
    rfl
  · rw [busDecision_eq hfit']
    rfl
  · rw [busDecision_eq hfit']
    rfl
  · have hsame := h.same fun _ => 0
    rw [busDecision_eq hfit', busDecision_eq hfit'] at hsame
    revert hsame
    decide

end BBoot.Pegasos2
