import BBoot.Inflate.Result
import BBoot.Zip.Extract

/-!
# Extraction with the inflater of the program

`zip_file_extract` is modelled with `puff` as a parameter. Here it is given the `puff`
of `zip/puff.c`.

Results:
* `zipFileExtract_deflated`: extraction of a deflated entry succeeds exactly if its
  bytes begin with a stream whose data fit the declared size, and writes these.
* `zipFileExtract_encoded`: an entry that was encoded is extracted as it was.
-/

namespace BBoot.Zip

open BBoot.Inflate

section Extract

variable {m : Mem} {z : ZipT} {q : ZipEntry × ℕ} {buffer : Word}

/-- The call of `puff` that extracts the current entry. -/
def puffCall (m : Mem) (z : ZipT) (q : ZipEntry × ℕ) (buffer : Word) : Call :=
  ⟨m, buffer, ZipEntry.size32 q.1.data, entryBits m z, ZipEntry.size32 q.1.packed⟩

/-- Its input are the bytes of the entry, apart from the buffer. -/
theorem puffCall_fits (h : EntryAt m z q) (hend : q.2 + q.1.localRecord.length < z.len.toNat)
    (hfit : z.data.toNat + z.len.toNat ≤ 2 ^ 32) (hbuffer : Apart buffer q.1.data.length z) :
    (puffCall m z q buffer).Fits (puffCall m z q buffer).destlen.toNat ∧
      (puffCall m z q buffer).src = q.1.packed := by
  obtain ⟨h0, hwrap, hdisj⟩ := hbuffer
  have hinside := h.packed_inside hend hfit
  have hstop := hinside.2
  have hlen := z.len.isLt
  simp only [Span.stop_mk] at hstop
  have hpacked : (ZipEntry.size32 q.1.packed).toNat = q.1.packed.length :=
    ZipEntry.size32_toNat (by have := hinside.1; simp only at this; omega)
  have hdata : (ZipEntry.size32 q.1.data).toNat = q.1.data.length :=
    ZipEntry.size32_toNat q.1.data_lt
  refine ⟨⟨?_, ?_, fun _ => le_rfl, fun _ => ?_, fun _ => ?_⟩, ?_⟩
  · exact BitVec.isLt _
  · show (entryBits m z).toNat + (ZipEntry.size32 q.1.packed).toNat ≤ 2 ^ 32
    omega
  · show buffer.toNat + (ZipEntry.size32 q.1.data).toNat ≤ 2 ^ 32
    rw [hdata]
    exact hwrap
  · show Span.Disjoint ⟨buffer.toNat, (ZipEntry.size32 q.1.data).toNat⟩
      ⟨(entryBits m z).toNat, (ZipEntry.size32 q.1.packed).toNat⟩
    rw [hdata, hpacked]
    exact hdisj.mono ⟨le_rfl, le_rfl⟩ hinside
  · show readBytes m (entryBits m z) (ZipEntry.size32 q.1.packed).toNat = q.1.packed
    rw [hpacked]
    exact h.packed

/-- What extraction of a deflated entry returns is what `puff` returns. -/
theorem zipFileExtract_puff (h : EntryAt m z q) (hbuffer : buffer ≠ 0) {stream : List Byte}
    (hmethod : q.1.method = .deflate stream) :
    (zipFileExtract puff m z buffer).val = some
      ⟨if (puffCall m z q buffer).result.err ≠ 0 then .zError else .zOk,
        (puffCall m z q buffer).result.out⟩ := by
  have hpacked : q.1.packed = stream := by rw [ZipEntry.packed, hmethod]
  rw [zipFileExtract_entry h hbuffer, hmethod, puffCall, hpacked]
  rfl

/-- **Extraction of a deflated entry** returns `Z_OK` exactly if its bytes begin with a stream
    whose data fit the declared size, and then it writes these. Whatever the bytes are, it writes
    no more than the declared size, and nothing else. -/
theorem zipFileExtract_deflated (h : EntryAt m z q)
    (hend : q.2 + q.1.localRecord.length < z.len.toNat)
    (hfit : z.data.toNat + z.len.toNat ≤ 2 ^ 32) (hbuffer : Apart buffer q.1.data.length z)
    {stream : List Byte} (hmethod : q.1.method = .deflate stream)
    (hstream : stream.length + 2 ^ 16 ≤ 2 ^ 32) (hsize : q.1.data.length + 2 ^ 16 ≤ 2 ^ 32) :
    ∃ status out, (zipFileExtract puff m z buffer).val = some ⟨status, out⟩ ∧
      (status = .zOk ↔
        ∃ data used, Deflated stream data used ∧ data.length ≤ q.1.data.length) ∧
      (∀ data used, Deflated stream data used → data.length ≤ q.1.data.length → out = data) ∧
      out.length ≤ q.1.data.length ∧
      (puffCall m z q buffer).memory = writeBytes m buffer out := by
  obtain ⟨hfits, hsrc⟩ := puffCall_fits h hend hfit hbuffer
  have hpacked : q.1.packed = stream := by rw [ZipEntry.packed, hmethod]
  have hdata : (puffCall m z q buffer).destlen.toNat = q.1.data.length :=
    ZipEntry.size32_toNat q.1.data_lt
  have hlen : (puffCall m z q buffer).sourcelen.toNat = stream.length := by
    rw [← hpacked, ← hsrc, Call.src, readBytes_length]
  have hi : (puffCall m z q buffer).Inflates := ⟨hfits, hbuffer.1, by omega, by omega⟩
  have hr := Call.returns hi
  have hall : ∀ data used, Deflated stream data used → data.length ≤ q.1.data.length →
      (puffCall m z q buffer).result.err = 0 ∧ (puffCall m z q buffer).result.out = data := by
    intro data used hdeflated hle
    rw [← hpacked, ← hsrc] at hdeflated
    obtain ⟨herr, hout, -⟩ := puff_returns hfits hbuffer.1 hdeflated (hdata ▸ hle)
    exact ⟨herr, hout⟩
  refine ⟨_, _, zipFileExtract_puff h hbuffer.1 hmethod, ?_, ?_, hdata ▸ hr.out_le, hr.memory⟩
  · have hok : (if (puffCall m z q buffer).result.err ≠ 0 then ZStatus.zError else .zOk) = .zOk ↔
        (puffCall m z q buffer).result.err = 0 := by
      split_ifs with herr
      · exact iff_of_false (by simp) herr
      · exact iff_of_true rfl (not_not.mp herr)
    rw [hok]
    constructor
    · intro herr
      have hdeflated := hr.deflated herr
      rw [hsrc, hpacked] at hdeflated
      exact ⟨_, _, hdeflated, hdata ▸ hr.out_le⟩
    · rintro ⟨data, used, hdeflated, hle⟩
      exact (hall data used hdeflated hle).1
  · exact fun data used hdeflated hle => (hall data used hdeflated hle).2

/-- **An entry that was encoded is extracted as it was**: an entry whose stream is what the
    encoder made of tokens for its data. -/
theorem zipFileExtract_encoded (h : EntryAt m z q)
    (hend : q.2 + q.1.localRecord.length < z.len.toNat)
    (hfit : z.data.toNat + z.len.toNat ≤ 2 ^ 32) (hbuffer : Apart buffer q.1.data.length z)
    {stream : List Byte} (hmethod : q.1.method = .deflate stream) {toks : List Token}
    (htoks : deflateFixed toks = some stream) (hexpand : expand toks [] = some q.1.data) :
    (zipFileExtract puff m z buffer).val = some ⟨.zOk, q.1.data⟩ := by
  obtain ⟨hfits, hsrc⟩ := puffCall_fits h hend hfit hbuffer
  have hpacked : q.1.packed = stream := by rw [ZipEntry.packed, hmethod]
  have hdata : (puffCall m z q buffer).destlen.toNat = q.1.data.length :=
    ZipEntry.size32_toNat q.1.data_lt
  have hdeflated := deflateFixed_deflated htoks hexpand []
  rw [List.append_nil, ← hpacked, ← hsrc] at hdeflated
  obtain ⟨herr, hout, -⟩ := puff_returns hfits hbuffer.1 hdeflated hdata.ge
  rw [zipFileExtract_puff h hbuffer.1 hmethod, herr, hout, if_neg (not_not.mpr rfl)]

/-- An entry whose stream is one literal and a copy of nine bytes. -/
def lettersEntry : ZipEntry :=
  { deflatedEntry with
    method := .deflate [0x4b, 0x84, 0x03, 0x00]
    data := List.replicate 10 97
    data_lt := by decide }

/-- The archive of `lettersEntry` in memory. -/
def lettersMem : Mem := memOf 0x1000 (archive [lettersEntry] [])

/-- Its first header is the current one. -/
def lettersHandle : ZipT := ⟨0x1000, 121, 0x1063, 0x1034⟩

theorem lettersEntry_at : EntryAt lettersMem lettersHandle (lettersEntry, 0) where
  gfh := by decide
  signature := by decide +kernel
  method := by decide +kernel
  compressedSize := by
    unfold BytesAt
    decide +kernel
  uncompressedSize := by
    unfold BytesAt
    decide +kernel
  bits := by decide +kernel
  packed := by
    unfold BytesAt
    decide +kernel

theorem lettersEntry_apart : Apart 0x8000 lettersEntry.data.length lettersHandle :=
  ⟨by decide, by decide, .inr (by decide)⟩

theorem zipFileExtract_deflated_letters :
    ∃ out, (zipFileExtract puff lettersMem lettersHandle 0x8000).val = some ⟨.zOk, out⟩ := by
  obtain ⟨status, out, hval, hok, -⟩ := zipFileExtract_deflated lettersEntry_at (by decide)
    (by decide) lettersEntry_apart rfl (by decide) (by decide)
  have hstatus := hok.mpr ⟨_, 4, letters_deflated, by decide⟩
  exact ⟨out, hstatus ▸ hval⟩

theorem zipFileExtract_encoded_letters :
    (zipFileExtract puff lettersMem lettersHandle 0x8000).val =
      some ⟨.zOk, List.replicate 10 97⟩ :=
  zipFileExtract_encoded lettersEntry_at (by decide) (by decide) lettersEntry_apart rfl
    letters_encoded letters_expand

end Extract

end BBoot.Zip
