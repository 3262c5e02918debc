import BBoot.Common.Memory

/-!
# Little-endian fields on the big-endian machine

`LE16` and `LE32` swap the bytes of a loaded value (`include/bboot.h` lines
19–21). `BytesAt.le16` and `BytesAt.le32` say that they undo `le16Bytes` and
`le32Bytes`; `BytesAt.field` finds one field of a record laid out as a list of
fields.
-/

namespace BBoot

/-- `LE16(x)`: `__builtin_bswap16`. -/
def le16 (x : BitVec 16) : BitVec 16 := x.extractLsb' 0 8 ++ x.extractLsb' 8 8

/-- `LE32(x)`: `__builtin_bswap32`. -/
def le32 (x : Word) : Word :=
  x.extractLsb' 0 8 ++ x.extractLsb' 8 8 ++ x.extractLsb' 16 8 ++ x.extractLsb' 24 8

/-- A 16-bit field, least significant byte first. -/
def le16Bytes (v : BitVec 16) : List Byte := [v.extractLsb' 0 8, v.extractLsb' 8 8]

/-- A 32-bit field, least significant byte first. -/
def le32Bytes (v : Word) : List Byte :=
  [v.extractLsb' 0 8, v.extractLsb' 8 8, v.extractLsb' 16 8, v.extractLsb' 24 8]

@[simp] theorem le16Bytes_length (v : BitVec 16) : (le16Bytes v).length = 2 := rfl

@[simp] theorem le32Bytes_length (v : Word) : (le32Bytes v).length = 4 := rfl

/-- The byte at bit `8 * k` of a value with a byte appended is the one before it. -/
theorem extract_append {n k : ℕ} (a : BitVec n) (b : Byte) :
    (a ++ b).extractLsb' (8 + k) 8 = a.extractLsb' k 8 := by
  rw [BitVec.extractLsb'_append_eq_of_le (by omega), Nat.add_sub_cancel_left]

theorem extract_byte (b : Byte) : b.extractLsb' 0 8 = b := by
  simp

/-- `LE16` of a load at a little-endian field. -/
theorem BytesAt.le16 {m : Mem} {p : Word} {v : BitVec 16} (h : BytesAt m p (le16Bytes v)) :
    le16 (load16 m p) = v := by
  obtain ⟨h0, h1, -⟩ := by simpa only [le16Bytes, bytesAt_cons] using h
  have join : v.extractLsb' 8 8 ++ v.extractLsb' 0 8 = v.extractLsb' 0 16 :=
    BitVec.extractLsb'_append_extractLsb'_eq_extractLsb' rfl
  rw [load16, h0, h1, BBoot.le16, BitVec.extractLsb'_append_eq_right,
    extract_append (k := 0), extract_byte, join, BitVec.extractLsb'_eq_self]

/-- A load at a little-endian field has its bytes swapped. -/
theorem BytesAt.load32 {m : Mem} {p : Word} {v : Word} (h : BytesAt m p (le32Bytes v)) :
    load32 m p = le32 v := by
  obtain ⟨h0, h1, h2, h3, -⟩ := by simpa only [le32Bytes, bytesAt_cons] using h
  have e2 : p + 1 + 1 = p + 2 := by rw [BitVec.add_assoc]; rfl
  have e3 : p + 1 + 1 + 1 = p + 3 := by rw [BitVec.add_assoc, BitVec.add_assoc]; rfl
  rw [e2] at h2
  rw [e3] at h3
  rw [BBoot.load32, h0, h1, h2, h3]
  rfl

/-- `LE32` of a load at a little-endian field. -/
theorem BytesAt.le32 {m : Mem} {p : Word} {v : Word} (h : BytesAt m p (le32Bytes v)) :
    le32 (BBoot.load32 m p) = v := by
  have join24 : v.extractLsb' 24 8 ++ v.extractLsb' 16 8 = v.extractLsb' 16 16 :=
    BitVec.extractLsb'_append_extractLsb'_eq_extractLsb' rfl
  have join16 : v.extractLsb' 16 16 ++ v.extractLsb' 8 8 = v.extractLsb' 8 24 :=
    BitVec.extractLsb'_append_extractLsb'_eq_extractLsb' rfl
  have join8 : v.extractLsb' 8 24 ++ v.extractLsb' 0 8 = v.extractLsb' 0 32 :=
    BitVec.extractLsb'_append_extractLsb'_eq_extractLsb' rfl
  rw [h.load32, BBoot.le32, BBoot.le32, BitVec.extractLsb'_append_eq_right, extract_append (k := 0),
    BitVec.extractLsb'_append_eq_right, extract_append (k := 8), extract_append (k := 0),
    BitVec.extractLsb'_append_eq_right, extract_append (k := 16), extract_append (k := 8),
    extract_append (k := 0), extract_byte, join24, join16, join8, BitVec.extractLsb'_eq_self]

/-- Field `k` of a record stands behind the fields before it. -/
theorem BytesAt.field {m : Mem} {p : Word} {fs : List (List Byte)} (h : BytesAt m p fs.flatten)
    (k : ℕ) {f : List Byte} (hk : fs[k]? = some f) :
    BytesAt m (p + BitVec.ofNat 32 (fs.take k).flatten.length) f := by
  induction fs generalizing p k with
  | nil => simp at hk
  | cons g fs ih =>
    rw [List.flatten_cons, bytesAt_append] at h
    cases k with
    | zero =>
      obtain rfl : g = f := by simpa using hk
      simpa using h.1
    | succ k =>
      have := ih h.2 k (by simpa using hk)
      rwa [List.take_succ_cons, List.flatten_cons, List.length_append, BitVec.ofNat_add,
        ← BitVec.add_assoc]

end BBoot
