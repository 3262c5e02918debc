import BBoot.Common.CString
import BBoot.Common.Endian

/-!
# The zip reader

`zip.c` works on the archive in memory through the handle `zip_t`: the buffer,
the end record `er` and the current central header `gfh`, both pointers with
`0` as `NULL`. Every function is given with the reads it makes. `puff` is a
parameter; the bytes a call writes to its output buffer are part of its result.

Results:
* `zipReaddir_frame`, `zipFileFind_frame`: the calls return and change only
  `gfh`.
* `zipFileFind_gfh`: `zip_file_find` does not depend on the current entry.
-/

namespace BBoot.Zip

/-! ## Model -/

/-- `Z_OK` and `Z_ERROR` (`zip.h` lines 10–11). -/
inductive ZStatus
  | zOk
  | zError
deriving DecidableEq, Repr

/-- `sizeof(JZLocalFileHeader)` (`junzip.h` lines 26–38). -/
def sizeofLocalFileHeader : Word := 30

/-- `sizeof(JZGlobalFileHeader)` (lines 40–58). -/
def sizeofGlobalFileHeader : Word := 46

/-- `sizeof(JZEndRecord)` (lines 60–70). -/
def sizeofEndRecord : Word := 22

/-- `zip_t` (`zip.h` lines 13–18). -/
structure ZipT where
  data : Word
  len : Word
  er : Word
  gfh : Word
deriving DecidableEq, Repr

/-- A 32-bit load as it stands; `BE32` is the identity. -/
def readWord (m : Mem) (p : Word) : Reads Word := .access p 4 (load32 m p)

/-- A 16-bit load as it stands. -/
def readHalf (m : Mem) (p : Word) : Reads (BitVec 16) := .access p 2 (load16 m p)

/-- `LE16` of a field. -/
def readLe16 (m : Mem) (p : Word) : Reads Word := .access p 2 ((le16 (load16 m p)).setWidth 32)

/-- `LE32` of a field. -/
def readLe32 (m : Mem) (p : Word) : Reads Word := .access p 4 (le32 (load32 m p))

/-- The loop of `zip_findLen` (`zip.c` lines 18–21) with `maxlen - i` rounds to go. -/
def findLenLoop (m : Mem) : ℕ → Word → Word → Reads Word
  | 0, _, _ => pure 0
  | n + 1, zipdata, i => do
    let sig ← readWord m zipdata
    if sig = 0x504B0506 then pure (i + sizeofEndRecord) else findLenLoop m n (zipdata + 1) (i + 1)

/-- `zip_findLen` (lines 14–25). -/
def zipFindLen (m : Mem) (zipdata maxlen : Word) : Reads Word :=
  if zipdata = 0 then pure 0
  else do
    let sig ← readWord m zipdata
    if sig ≠ 0x504B0304 then pure 0
    else
      findLenLoop m (maxlen.toNat - sizeofLocalFileHeader.toNat) (zipdata + sizeofLocalFileHeader)
        sizeofLocalFileHeader

/-- The loop of `zip_openBuffer` (`zip.c` lines 34–38) from index `i` down. -/
def findEndRecord (m : Mem) (zipdata : Word) : ℕ → Reads (Option ℕ)
  | 0 => do
    let sig ← readWord m zipdata
    if sig = 0x504B0506 then pure (some 0) else pure none
  | i + 1 => do
    let sig ← readWord m (zipdata + BitVec.ofNat 32 (i + 1))
    if sig = 0x504B0506 then pure (some (i + 1)) else findEndRecord m zipdata i

/-- `zip_openBuffer` (lines 27–50). `i` is a signed `long`. -/
def zipOpenBuffer (m : Mem) (z : ZipT) (zipdata ziplen : Word) : Reads (ZStatus × ZipT) :=
  if ziplen ≤ sizeofEndRecord then pure (.zError, z)
  else if (ziplen - sizeofEndRecord).toInt < 0 then pure (.zError, z)
  else do
    match ← findEndRecord m zipdata (ziplen - sizeofEndRecord).toNat with
    | none => pure (.zError, z)
    | some i => do
      let er := zipdata + BitVec.ofNat 32 i
      let diskNumber ← readHalf m (er + 4)
      let centralDirectoryDiskNumber ← readHalf m (er + 6)
      let numEntriesThisDisk ← readHalf m (er + 8)
      let numEntries ← readHalf m (er + 10)
      if diskNumber ≠ 0 ∨ centralDirectoryDiskNumber ≠ 0 ∨ numEntries ≠ numEntriesThisDisk then
        pure (.zError, z)
      else pure (.zOk, ⟨zipdata, ziplen, er, 0⟩)

/-- `zip_numEntries` (lines 52–56). -/
def zipNumEntries (m : Mem) (z : ZipT) : Reads Word := readLe16 m (z.er + 10)

/-- `zip_file_compressedSize` (lines 82–86). -/
def zipFileCompressedSize (m : Mem) (z : ZipT) : Reads Word := readLe32 m (z.gfh + 20)

/-- `zip_file_uncompressedSize` (lines 88–92). -/
def zipFileUncompressedSize (m : Mem) (z : ZipT) : Reads Word := readLe32 m (z.gfh + 24)

/-- `zip_file_fileNameLength` (lines 94–98). -/
def zipFileFileNameLength (m : Mem) (z : ZipT) : Reads Word := readLe16 m (z.gfh + 28)

/-- The offset `zip_readdir` goes to (lines 61–71). -/
def nextOffset (m : Mem) (z : ZipT) : Reads Word :=
  if z.gfh = 0 then readLe32 m (z.er + 16)
  else do
    let fileNameLength ← readLe16 m (z.gfh + 28)
    let extraFieldLength ← readLe16 m (z.gfh + 30)
    pure (z.gfh - z.data + sizeofGlobalFileHeader + fileNameLength + extraFieldLength)

/-- `zip_readdir` (lines 58–80). -/
def zipReaddir (m : Mem) (z : ZipT) : Reads (ZStatus × ZipT) :=
  if z.er = 0 then pure (.zError, z)
  else do
    let offs ← nextOffset m z
    if offs ≥ z.len then pure (.zError, z)
    else do
      let gfh := z.data + offs
      let sig ← readWord m gfh
      if sig ≠ 0x504B0102 then pure (.zError, { z with gfh := 0 })
      else pure (.zOk, { z with gfh := gfh })

/-- The bytes `zip_file_get_name` (lines 100–107) puts in front of the NUL. -/
def zipFileGetName (m : Mem) (z : ZipT) (len : Word) : Reads (List Byte) :=
  .access (z.gfh + sizeofGlobalFileHeader) len.toNat
    (readBytes m (z.gfh + sizeofGlobalFileHeader) len.toNat)

/-- The loop of `zip_file_find` (lines 116–124) with `n - i` rounds to go.
    `fnbuf` is compared up to its first NUL. -/
def findLoop (m : Mem) (name : CStr) : ℕ → ZipT → Reads (ZStatus × ZipT)
  | 0, z => pure (.zError, z)
  | n + 1, z => do
    let r ← zipReaddir m z
    if r.1 = .zError then pure (.zError, r.2)
    else do
      let fnlen ← zipFileFileNameLength m r.2
      if fnlen > 255 then pure (.zError, r.2)
      else if fnlen.toNat = name.bytes.length then do
        let fnbuf ← zipFileGetName m r.2 fnlen
        if fnbuf.takeWhile (· ≠ 0) = name.bytes then pure (.zOk, r.2) else findLoop m name n r.2
      else findLoop m name n r.2

/-- `zip_file_find` (lines 109–126). -/
def zipFileFind (m : Mem) (z : ZipT) (name : CStr) : Reads (ZStatus × ZipT) :=
  if z.er = 0 then pure (.zError, z)
  else do
    let n ← zipNumEntries m z
    findLoop m name n.toNat { z with gfh := 0 }

/-- What a call of `puff` returns: its code, the bytes it wrote to `dest` and
    the final `*destlen` and `*sourcelen`. -/
structure PuffResult where
  err : ℤ
  out : List Byte
  destlen : Word
  sourcelen : Word
deriving DecidableEq, Repr

/-- `puff(dest, &destlen, source, &sourcelen)` on the memory it is called in. -/
abbrev Puff := (m : Mem) → (dest destlen source sourcelen : Word) → PuffResult

/-- The status of `zip_file_extract` and the bytes it wrote to the buffer. -/
structure Extracted where
  status : ZStatus
  out : List Byte
deriving DecidableEq, Repr

/-- `zip_file_extract` (lines 128–153). The log holds the source range handed to
    `memcpy` or `puff`. -/
def zipFileExtract (puff : Puff) (m : Mem) (z : ZipT) (buffer : Word) : Reads Extracted :=
  if z.gfh = 0 ∨ buffer = 0 then pure ⟨.zError, []⟩
  else do
    let lfh := z.data + (← readLe32 m (z.gfh + 42))
    let sig ← readWord m lfh
    if sig ≠ 0x504B0304 then pure ⟨.zError, []⟩
    else do
      let fileNameLength ← readLe16 m (lfh + 26)
      let extraFieldLength ← readLe16 m (lfh + 28)
      let bits := lfh + sizeofLocalFileHeader + fileNameLength + extraFieldLength
      let method ← readLe16 m (lfh + 8)
      if method = 0 then do
        let compressedSize ← readWord m (z.gfh + 20)
        let uncompressedSize ← readWord m (z.gfh + 24)
        if compressedSize ≠ uncompressedSize then pure ⟨.zError, []⟩
        else
          .access bits (le32 uncompressedSize).toNat
            ⟨.zOk, readBytes m bits (le32 uncompressedSize).toNat⟩
      else if method = 8 then do
        let dstlen ← readLe32 m (z.gfh + 24)
        let srclen ← readLe32 m (z.gfh + 20)
        let r := puff m buffer dstlen bits srclen
        .access bits srclen.toNat ⟨if r.err ≠ 0 then .zError else .zOk, r.out⟩
      else pure ⟨.zError, []⟩

/-! ## What the calls leave alone -/

theorem zipReaddir_frame (m : Mem) (z : ZipT) :
    ∃ status g, (zipReaddir m z).val = some (status, { z with gfh := g }) := by
  unfold zipReaddir
  split_ifs with her
  · exact ⟨_, z.gfh, rfl⟩
  · have hoffs : ∃ offs, (nextOffset m z).val = some offs := by
      unfold nextOffset
      split_ifs
      · exact ⟨_, rfl⟩
      · exact ⟨_, rfl⟩
    obtain ⟨offs, hoffs⟩ := hoffs
    rw [Reads.val_bind, hoffs, Option.bind_some]
    split_ifs with hlen
    · exact ⟨_, z.gfh, rfl⟩
    · rw [Reads.val_bind, readWord, Reads.val_access, Option.bind_some]
      split_ifs
      · exact ⟨_, 0, rfl⟩
      · exact ⟨_, _, rfl⟩

theorem findLoop_frame (m : Mem) (name : CStr) (n : ℕ) (z : ZipT) :
    ∃ status g, (findLoop m name n z).val = some (status, { z with gfh := g }) := by
  induction n generalizing z with
  | zero => exact ⟨_, z.gfh, rfl⟩
  | succ n ih =>
    obtain ⟨status, g, hr⟩ := zipReaddir_frame m z
    rw [findLoop, Reads.val_bind, hr, Option.bind_some]
    dsimp only
    split_ifs with hstatus
    · exact ⟨_, g, rfl⟩
    · rw [Reads.val_bind, zipFileFileNameLength, readLe16, Reads.val_access, Option.bind_some]
      split_ifs
      · exact ⟨_, g, rfl⟩
      · rw [Reads.val_bind, zipFileGetName, Reads.val_access, Option.bind_some]
        split_ifs
        · exact ⟨_, g, rfl⟩
        · exact ih _
      · exact ih _

theorem zipFileFind_frame (m : Mem) (z : ZipT) (name : CStr) :
    ∃ status g, (zipFileFind m z name).val = some (status, { z with gfh := g }) := by
  unfold zipFileFind
  split_ifs
  · exact ⟨_, z.gfh, rfl⟩
  · rw [Reads.val_bind, zipNumEntries, readLe16, Reads.val_access, Option.bind_some]
    exact findLoop_frame m name _ _

/-- The search starts at the first entry, whichever was current. -/
theorem zipFileFind_gfh (m : Mem) {z : ZipT} (her : z.er ≠ 0) (g : Word) (name : CStr) :
    zipFileFind m { z with gfh := g } name = zipFileFind m z name := by
  unfold zipFileFind
  rw [if_neg her, if_neg her]
  rfl

end BBoot.Zip
