import BBoot.Common.Endian

/-!
# Properties of the firmware's device tree in `cells`

`brd_pegasos2.c` reads properties into the static array `cells` of 35 words and
writes them back from there. A property is a list of bytes; the machine is
big-endian, so four bytes of it are one cell as they stand.

Results:
* `getprop_holds`: whole entries that fit are in `cells` after `prom_getprop`.
* `readCells_eq`: what `prom_setprop` stores from cells that hold entries.
-/

namespace BBoot.Pegasos2

/-- `sizeof(cells) / sizeof(cells[0])` (`brd_pegasos2.c` line 45). -/
def cellsLength : ℕ := 7 * 5

/-- The bytes of a cell in memory. -/
def cellBytes (w : Word) : List Byte :=
  [w.extractLsb' 24 8, w.extractLsb' 16 8, w.extractLsb' 8 8, w.extractLsb' 0 8]

/-- Cell `i` after the bytes of a property were copied over the buffer: a byte that
    the property does not have stays. -/
def fillCell (value : List Byte) (i : ℕ) (old : Word) : Word :=
  value.getD (4 * i) (old.extractLsb' 24 8) ++ value.getD (4 * i + 1) (old.extractLsb' 16 8) ++
    value.getD (4 * i + 2) (old.extractLsb' 8 8) ++ value.getD (4 * i + 3) (old.extractLsb' 0 8)

/-- `prom_getprop(ph, _, cells, sizeof(cells))`: at most the size of the buffer is
    copied, the length of the property is returned. -/
def promGetpropCells (prop : Option (List Byte)) (cells : ℕ → Word) : ℤ × (ℕ → Word) :=
  match prop with
  | none => (-1, cells)
  | some value =>
    (value.length, fun i => if i < cellsLength then fillCell value i (cells i) else cells i)

/-- `prom_getprop(ph, _, &word, 4) != 4` is false, and what is in `word` then. -/
def promGetpropWord (prop : Option (List Byte)) : Option Word :=
  match prop with
  | some [a, b, c, d] => some (a ++ b ++ c ++ d)
  | _ => none

/-- The `n` cells from `i` on. -/
def readCells (cells : ℕ → Word) : ℕ → ℕ → List Word
  | _, 0 => []
  | i, n + 1 => cells i :: readCells cells (i + 1) n

/-- What `prom_setprop(ph, _, cells, n * sizeof(cells[0]))` stores. -/
def setpropValue (cells : ℕ → Word) (n : ℕ) : List Byte := (readCells cells 0 n).flatMap cellBytes

/-! ## Whole entries -/

/-- Five cells of `reg` or `assigned-addresses`: an address and a size. -/
structure Entry where
  physHi : Word
  physMid : Word
  physLo : Word
  sizeHi : Word
  sizeLo : Word
deriving DecidableEq, Repr

def Entry.cells (e : Entry) : List Word := [e.physHi, e.physMid, e.physLo, e.sizeHi, e.sizeLo]

/-- A property that consists of whole entries. -/
def entryBytes (es : List Entry) : List Byte := (es.flatMap Entry.cells).flatMap cellBytes

/-- The entries `es` are in `cells` from index `i` on. -/
def Holds (cells : ℕ → Word) : ℕ → List Entry → Prop
  | _, [] => True
  | i, e :: es =>
    (cells i = e.physHi ∧ cells (i + 1) = e.physMid ∧ cells (i + 2) = e.physLo ∧
      cells (i + 3) = e.sizeHi ∧ cells (i + 4) = e.sizeLo) ∧ Holds cells (i + 5) es

theorem cellBytes_join (w : Word) :
    w.extractLsb' 24 8 ++ w.extractLsb' 16 8 ++ w.extractLsb' 8 8 ++ w.extractLsb' 0 8 = w := by
  have join16 : w.extractLsb' 24 8 ++ w.extractLsb' 16 8 = w.extractLsb' 16 16 :=
    BitVec.extractLsb'_append_extractLsb'_eq_extractLsb' rfl
  have join8 : w.extractLsb' 16 16 ++ w.extractLsb' 8 8 = w.extractLsb' 8 24 :=
    BitVec.extractLsb'_append_extractLsb'_eq_extractLsb' rfl
  have join0 : w.extractLsb' 8 24 ++ w.extractLsb' 0 8 = w.extractLsb' 0 32 :=
    BitVec.extractLsb'_append_extractLsb'_eq_extractLsb' rfl
  rw [join16, join8, join0, BitVec.extractLsb'_eq_self]

theorem promGetpropWord_cellBytes (w : Word) : promGetpropWord (some (cellBytes w)) = some w := by
  show some _ = some w
  rw [cellBytes_join]

theorem fillCell_flatMap {ws : List Word} {i : ℕ} (hi : i < ws.length) (old : Word) :
    fillCell (ws.flatMap cellBytes) i old = ws[i] := by
  induction ws generalizing i with
  | nil => exact absurd hi (Nat.not_lt_zero _)
  | cons w ws ih =>
    cases i with
    | zero => exact cellBytes_join w
    | succ i => exact ih (Nat.lt_of_succ_lt_succ hi)

theorem entryCells_length (es : List Entry) : (es.flatMap Entry.cells).length = 5 * es.length := by
  induction es with
  | nil => rfl
  | cons e es ih =>
    rw [List.flatMap_cons, List.length_append, ih, List.length_cons]
    show 5 + 5 * es.length = 5 * (es.length + 1)
    omega

theorem cellBytes_length (ws : List Word) : (ws.flatMap cellBytes).length = 4 * ws.length := by
  induction ws with
  | nil => rfl
  | cons w ws ih =>
    rw [List.flatMap_cons, List.length_append, ih, List.length_cons]
    show 4 + 4 * ws.length = 4 * (ws.length + 1)
    omega

theorem entryBytes_length (es : List Entry) : (entryBytes es).length = 20 * es.length := by
  rw [entryBytes, cellBytes_length, entryCells_length]
  omega

/-- Cells that agree with those of the entries hold them. -/
theorem holds_of_getElem {cells : ℕ → Word} {es : List Entry} {i : ℕ}
    (h : ∀ j (hj : j < (es.flatMap Entry.cells).length),
      cells (i + j) = (es.flatMap Entry.cells)[j]) : Holds cells i es := by
  induction es generalizing i with
  | nil => trivial
  | cons e es ih =>
    have hlen : ((e :: es).flatMap Entry.cells).length = (es.flatMap Entry.cells).length + 5 := by
      rw [entryCells_length, entryCells_length, List.length_cons]
      omega
    refine ⟨⟨h 0 (by omega), h 1 (by omega), h 2 (by omega), h 3 (by omega), h 4 (by omega)⟩, ?_⟩
    apply ih
    intro j hj
    rw [Nat.add_assoc, Nat.add_comm 5 j]
    exact h (j + 5) (by omega)

theorem promGetpropCells_length (es : List Entry) (cells : ℕ → Word) :
    (promGetpropCells (some (entryBytes es)) cells).1 = ((20 * es.length : ℕ) : ℤ) := by
  rw [← entryBytes_length]
  rfl

/-- **Whole entries that fit** are in the buffer once they were read. -/
theorem getprop_holds (es : List Entry) (hlen : es.length ≤ 7) (cells : ℕ → Word) :
    ∃ cells', promGetpropCells (some (entryBytes es)) cells = (((20 * es.length : ℕ) : ℤ), cells') ∧
      Holds cells' 0 es := by
  refine ⟨(promGetpropCells (some (entryBytes es)) cells).2, ?_, ?_⟩
  · rw [← promGetpropCells_length es cells]
  · apply holds_of_getElem
    intro j hj
    have hlt : j < cellsLength := by
      rw [entryCells_length] at hj
      show j < 35
      omega
    show (if 0 + j < cellsLength then fillCell (entryBytes es) (0 + j) (cells (0 + j)) else _) = _
    rw [Nat.zero_add, if_pos hlt]
    exact fillCell_flatMap hj _

theorem readCells_eq {cells : ℕ → Word} {es : List Entry} {i : ℕ} (h : Holds cells i es) :
    readCells cells i (5 * es.length) = es.flatMap Entry.cells := by
  induction es generalizing i with
  | nil => rfl
  | cons e es ih =>
    obtain ⟨⟨h0, h1, h2, h3, h4⟩, hrest⟩ := h
    show readCells cells i (5 * es.length + 5) = _
    rw [readCells, readCells, readCells, readCells, readCells, h0, h1, h2, h3, h4, ih hrest]
    rfl

theorem setpropValue_eq {cells : ℕ → Word} {es : List Entry} (h : Holds cells 0 es) :
    setpropValue cells (5 * es.length) = entryBytes es := by
  rw [setpropValue, readCells_eq h, entryBytes]

end BBoot.Pegasos2
