import BBoot.Common.CString
import BBoot.Common.Endian

/-!
# The zip format

`archive es comment` is the file `zip -r` writes for the entries `es`: the
local records, the central directory and the end record. Every record is a list
of fields, so that one of them is found with `BytesAt.field`. `ArchiveAt` says
that any single-disk archive stands in memory: in whatever order its records are
and whatever is between them.

Results:
* `localAt_of_archive`: every entry's local record stands at the offset its
  central header gives.
* `directoryAt`, `endRecordAt`: where the directory and the end record stand.
* `archiveAt_of_archive`: `archive` is one of the archives of `ArchiveAt`.
-/

namespace BBoot.Zip

/-- How an entry is compressed: not at all, or to a deflate stream. -/
inductive ZipMethod
  | store
  | deflate (stream : List Byte)
deriving DecidableEq, Repr

/-- The value of `compressionMethod`. -/
def ZipMethod.code : ZipMethod → BitVec 16
  | .store => 0
  | .deflate _ => 8

/-- An entry of an archive, with the header fields the reader does not look at.
    `descriptor` is `none` where the local header has the sizes; otherwise they
    are zero there and a data descriptor follows, with its signature or not. -/
structure ZipEntry where
  name : List Byte
  data : List Byte
  method : ZipMethod
  localExtra : List Byte
  centralExtra : List Byte
  comment : List Byte
  descriptor : Option Bool
  versionMadeBy : BitVec 16
  versionNeededToExtract : BitVec 16
  generalPurposeBitFlag : BitVec 16
  lastModFileTime : BitVec 16
  lastModFileDate : BitVec 16
  crc32 : Word
  internalFileAttributes : BitVec 16
  externalFileAttributes : Word
  name_pos : 1 ≤ name.length
  name_lt : name.length < 2 ^ 16
  localExtra_lt : localExtra.length < 2 ^ 16
  centralExtra_lt : centralExtra.length < 2 ^ 16
  comment_lt : comment.length < 2 ^ 16
  data_lt : data.length < 2 ^ 32

namespace ZipEntry

/-- The bytes of the entry as they are stored. -/
def packed (e : ZipEntry) : List Byte :=
  match e.method with
  | .store => e.data
  | .deflate stream => stream

/-- A length as a 32-bit field. -/
def size32 (bs : List Byte) : Word := BitVec.ofNat 32 bs.length

/-- A length as a 16-bit field. -/
def size16 (bs : List Byte) : BitVec 16 := BitVec.ofNat 16 bs.length

/-- The data descriptor, if there is one. -/
def descriptorBytes (e : ZipEntry) : List Byte :=
  match e.descriptor with
  | none => []
  | some sig =>
    (if sig then le32Bytes 0x08074b50 else []) ++
      (le32Bytes e.crc32 ++ (le32Bytes (size32 e.packed) ++ le32Bytes (size32 e.data)))

/-- A field that is zero in the local header if a descriptor follows. -/
def unlessDescriptor (e : ZipEntry) (v : Word) : Word := if e.descriptor.isSome then 0 else v

/-- The local header (`JZLocalFileHeader`), the name, the extra field, the data
    and the descriptor. -/
def localFields (e : ZipEntry) : List (List Byte) :=
  [le32Bytes 0x04034b50, le16Bytes e.versionNeededToExtract, le16Bytes e.generalPurposeBitFlag,
    le16Bytes e.method.code, le16Bytes e.lastModFileTime, le16Bytes e.lastModFileDate,
    le32Bytes (e.unlessDescriptor e.crc32), le32Bytes (e.unlessDescriptor (size32 e.packed)),
    le32Bytes (e.unlessDescriptor (size32 e.data)), le16Bytes (size16 e.name),
    le16Bytes (size16 e.localExtra), e.name, e.localExtra, e.packed, e.descriptorBytes]

/-- The central header (`JZGlobalFileHeader`) of an entry whose local record is
    at `offset`, with the name, the extra field and the comment. -/
def centralFields (e : ZipEntry) (offset : ℕ) : List (List Byte) :=
  [le32Bytes 0x02014b50, le16Bytes e.versionMadeBy, le16Bytes e.versionNeededToExtract,
    le16Bytes e.generalPurposeBitFlag, le16Bytes e.method.code, le16Bytes e.lastModFileTime,
    le16Bytes e.lastModFileDate, le32Bytes e.crc32, le32Bytes (size32 e.packed),
    le32Bytes (size32 e.data), le16Bytes (size16 e.name), le16Bytes (size16 e.centralExtra),
    le16Bytes (size16 e.comment), le16Bytes 0, le16Bytes e.internalFileAttributes,
    le32Bytes e.externalFileAttributes, le32Bytes (BitVec.ofNat 32 offset), e.name,
    e.centralExtra, e.comment]

/-- The local record of an entry. -/
def localRecord (e : ZipEntry) : List Byte := e.localFields.flatten

/-- The central record of an entry. -/
def centralRecord (e : ZipEntry) (offset : ℕ) : List Byte := (e.centralFields offset).flatten

end ZipEntry

/-- The end record (`JZEndRecord`) of a single-disk archive with its comment. -/
def endFields (n size offset : ℕ) (comment : List Byte) : List (List Byte) :=
  [le32Bytes 0x06054b50, le16Bytes 0, le16Bytes 0, le16Bytes (BitVec.ofNat 16 n),
    le16Bytes (BitVec.ofNat 16 n), le32Bytes (BitVec.ofNat 32 size),
    le32Bytes (BitVec.ofNat 32 offset), le16Bytes (ZipEntry.size16 comment), comment]

/-- The entries with the offsets of their local records, the first one at `o`. -/
def placed : ℕ → List ZipEntry → List (ZipEntry × ℕ)
  | _, [] => []
  | o, e :: es => (e, o) :: placed (o + e.localRecord.length) es

/-- The local records. -/
def locals (es : List ZipEntry) : List Byte := es.flatMap ZipEntry.localRecord

/-- The central directory of placed entries. -/
def directory (ps : List (ZipEntry × ℕ)) : List Byte := ps.flatMap fun p => p.1.centralRecord p.2

/-- The whole file. -/
def archive (es : List ZipEntry) (comment : List Byte) : List Byte :=
  locals es ++ (directory (placed 0 es) ++
    (endFields es.length (directory (placed 0 es)).length (locals es).length comment).flatten)

/-- A file that is stored, without extra fields, comment or descriptor. The
    reader does not look at the check sum. -/
def storedFile (name : CStr) (data : List Byte) (name_pos : 1 ≤ name.bytes.length)
    (name_lt : name.bytes.length < 2 ^ 16) (data_lt : data.length < 2 ^ 32) : ZipEntry where
  name := name.bytes
  data := data
  method := .store
  localExtra := []
  centralExtra := []
  comment := []
  descriptor := none
  versionMadeBy := 0x31e
  versionNeededToExtract := 10
  generalPurposeBitFlag := 0
  lastModFileTime := 0
  lastModFileDate := 0
  crc32 := 0
  internalFileAttributes := 0
  externalFileAttributes := 0
  name_pos := name_pos
  name_lt := name_lt
  localExtra_lt := by decide
  centralExtra_lt := by decide
  comment_lt := by decide
  data_lt := data_lt

/-- A stored entry `a` with an extra field in its central header. -/
def storedEntry : ZipEntry where
  name := [0x61]
  data := [1, 2, 3]
  method := .store
  localExtra := []
  centralExtra := [9, 9]
  comment := []
  descriptor := none
  versionMadeBy := 0x31e
  versionNeededToExtract := 10
  generalPurposeBitFlag := 0
  lastModFileTime := 0
  lastModFileDate := 0
  crc32 := 0x55bc801d
  internalFileAttributes := 0
  externalFileAttributes := 0
  name_pos := by decide
  name_lt := by decide
  localExtra_lt := by decide
  centralExtra_lt := by decide
  comment_lt := by decide
  data_lt := by decide

/-- A deflated entry `b` with a data descriptor and a local extra field. -/
def deflatedEntry : ZipEntry where
  name := [0x62]
  data := [7, 8]
  method := .deflate [1, 2, 0, 0xfd, 0xff, 7, 8]
  localExtra := [5]
  centralExtra := []
  comment := []
  descriptor := some true
  versionMadeBy := 0x31e
  versionNeededToExtract := 20
  generalPurposeBitFlag := 8
  lastModFileTime := 0
  lastModFileDate := 0
  crc32 := 0
  internalFileAttributes := 0
  externalFileAttributes := 0
  name_pos := by decide
  name_lt := by decide
  localExtra_lt := by decide
  centralExtra_lt := by decide
  comment_lt := by decide
  data_lt := by decide

/-! ## Lengths -/

theorem ZipEntry.localRecord_length (e : ZipEntry) :
    e.localRecord.length = 30 + e.name.length + e.localExtra.length + e.packed.length +
      e.descriptorBytes.length := by
  simp only [localRecord, localFields, List.flatten_cons, List.flatten_nil, List.length_append,
    List.length_nil, le16Bytes_length, le32Bytes_length]
  omega

theorem ZipEntry.centralRecord_length (e : ZipEntry) (offset : ℕ) :
    (e.centralRecord offset).length =
      46 + e.name.length + e.centralExtra.length + e.comment.length := by
  simp only [centralRecord, centralFields, List.flatten_cons, List.flatten_nil, List.length_append,
    List.length_nil, le16Bytes_length, le32Bytes_length]
  omega

theorem endFields_length (n size offset : ℕ) (comment : List Byte) :
    (endFields n size offset comment).flatten.length = 22 + comment.length := by
  simp only [endFields, List.flatten_cons, List.flatten_nil, List.length_append, List.length_nil,
    le16Bytes_length, le32Bytes_length]
  omega

@[simp] theorem placed_length (o : ℕ) (es : List ZipEntry) : (placed o es).length = es.length := by
  induction es generalizing o with
  | nil => rfl
  | cons e es ih => simp [placed, ih]

/-- A place in memory behind `n` bytes. -/
theorem add_ofNat_add (p : Word) (a b : ℕ) :
    p + BitVec.ofNat 32 a + BitVec.ofNat 32 b = p + BitVec.ofNat 32 (a + b) := by
  rw [BitVec.add_assoc, ← BitVec.ofNat_add]

/-- The local records of placed entries stand at their offsets. -/
theorem localAt_of_locals {m : Mem} {p : Word} {o : ℕ} {es : List ZipEntry}
    (h : BytesAt m (p + BitVec.ofNat 32 o) (locals es)) :
    ∀ q ∈ placed o es, BytesAt m (p + BitVec.ofNat 32 q.2) q.1.localRecord := by
  induction es generalizing o with
  | nil => simp [placed]
  | cons e es ih =>
    rw [locals, List.flatMap_cons, bytesAt_append, add_ofNat_add] at h
    intro q hq
    rcases List.mem_cons.mp hq with rfl | hq
    · exact h.1
    · exact ih h.2 q hq

section Archive

variable {m : Mem} {p : Word} {es : List ZipEntry} {comment : List Byte}
  (h : BytesAt m p (archive es comment))

include h

theorem localAt_of_archive :
    ∀ q ∈ placed 0 es, BytesAt m (p + BitVec.ofNat 32 q.2) q.1.localRecord :=
  localAt_of_locals (by simpa using ((bytesAt_append ..).mp h).1)

theorem directoryAt :
    BytesAt m (p + BitVec.ofNat 32 (locals es).length) (directory (placed 0 es)) :=
  ((bytesAt_append ..).mp ((bytesAt_append ..).mp h).2).1

theorem endRecordAt :
    BytesAt m (p + BitVec.ofNat 32 ((locals es).length + (directory (placed 0 es)).length))
      (endFields es.length (directory (placed 0 es)).length (locals es).length comment).flatten := by
  rw [← add_ofNat_add]
  exact ((bytesAt_append ..).mp ((bytesAt_append ..).mp h).2).2

end Archive

/-! ## Archives in memory -/

/-- A single-disk archive at `p`: the central directory of the entries `ps` at
    `dir`, their local records before it, and the end record with the archive
    comment at `er`. -/
structure ArchiveAt (m : Mem) (p : Word) (ps : List (ZipEntry × ℕ)) (dir er : ℕ)
    (comment : List Byte) : Prop where
  count : ps.length < 65536
  comment_lt : comment.length < 2 ^ 16
  localRecord_le : ∀ q ∈ ps, q.2 + q.1.localRecord.length ≤ dir
  localRecord : ∀ q ∈ ps, BytesAt m (p + BitVec.ofNat 32 q.2) q.1.localRecord
  central_le : dir + (directory ps).length ≤ er
  central : BytesAt m (p + BitVec.ofNat 32 dir) (directory ps)
  endRecord : BytesAt m (p + BitVec.ofNat 32 er)
    (endFields ps.length (directory ps).length dir comment).flatten
  fits : p.toNat + (er + 22 + comment.length) ≤ 2 ^ 32
  length_lt : er + 22 + comment.length < 2 ^ 32

/-- A placed entry is one of the entries, and its record ends before the directory. -/
theorem placed_spec {o : ℕ} {es : List ZipEntry} {q : ZipEntry × ℕ} (hq : q ∈ placed o es) :
    q.1 ∈ es ∧ q.2 + q.1.localRecord.length ≤ o + (locals es).length := by
  induction es generalizing o with
  | nil => simp [placed] at hq
  | cons e es ih =>
    rw [locals, List.flatMap_cons, List.length_append]
    rcases List.mem_cons.mp hq with rfl | hq
    · exact ⟨by simp, by simp only; omega⟩
    · obtain ⟨h1, h2⟩ := ih hq
      refine ⟨by simp [h1], ?_⟩
      rw [locals] at h2
      omega

theorem archive_length (es : List ZipEntry) (comment : List Byte) :
    (archive es comment).length =
      (locals es).length + (directory (placed 0 es)).length + 22 + comment.length := by
  rw [archive, List.length_append, List.length_append, endFields_length]
  omega

theorem archiveAt_of_archive {m : Mem} {p : Word} {es : List ZipEntry} {comment : List Byte}
    (h : BytesAt m p (archive es comment)) (hcount : es.length < 65536)
    (hcomment : comment.length < 2 ^ 16) (hfit : p.toNat + (archive es comment).length ≤ 2 ^ 32)
    (hlt : (archive es comment).length < 2 ^ 32) :
    ArchiveAt m p (placed 0 es) (locals es).length
      ((locals es).length + (directory (placed 0 es)).length) comment where
  count := by rwa [placed_length]
  comment_lt := hcomment
  localRecord_le := fun q hq => by simpa using (placed_spec hq).2
  localRecord := localAt_of_archive h
  central_le := le_rfl
  central := directoryAt h
  endRecord := by rw [placed_length]; exact endRecordAt h
  fits := by rwa [archive_length] at hfit
  length_lt := by rwa [archive_length] at hlt

/-- An archive that is all there is in memory. -/
theorem archiveAt_memOf (p : Word) {es : List ZipEntry} {comment : List Byte}
    (hcount : es.length < 65536) (hcomment : comment.length < 2 ^ 16)
    (hfit : p.toNat + (archive es comment).length ≤ 2 ^ 32)
    (hlt : (archive es comment).length < 2 ^ 32) :
    ArchiveAt (memOf p (archive es comment)) p (placed 0 es) (locals es).length
      ((locals es).length + (directory (placed 0 es)).length) comment :=
  archiveAt_of_archive (bytesAt_memOf p hlt.le) hcount hcomment hfit hlt

/-- An archive with an entry is longer than its end record. -/
theorem ArchiveAt.lt_dir {m : Mem} {p : Word} {ps : List (ZipEntry × ℕ)} {dir er : ℕ}
    {comment : List Byte} (h : ArchiveAt m p ps dir er comment) (hne : ps ≠ []) : 30 < dir := by
  obtain ⟨q, hq⟩ := List.exists_mem_of_ne_nil ps hne
  have hle := h.localRecord_le q hq
  have hrec := q.1.localRecord_length
  have hpos := q.1.name_pos
  omega

end BBoot.Zip
