import BBoot.Zip.Archive
import BBoot.Zip.Reader

/-!
# Walking a central directory

On the central directory of an archive `zip_readdir` steps from one header to
the next as long as the header it leaves has no comment, and `zip_file_find`
stops at the first name that is the one asked for or does not fit its buffer.

Results:
* `nextOffset_central`: the offset `zip_readdir` takes for the next header.
* `findLoop_round`: one round of the search.
* `findLoop_search`: the whole search, against `search` on the list of names.
* `zipFileFind_search`: `zip_file_find` on an archive in memory.
-/

namespace BBoot.Zip

/-! ## Fields of the records -/

theorem readLe16_at {m : Mem} {p : Word} {v : BitVec 16} (h : BytesAt m p (le16Bytes v)) :
    (readLe16 m p).val = some (v.setWidth 32) := by
  rw [readLe16, Reads.val_access, h.le16]

theorem readLe32_at {m : Mem} {p : Word} {v : Word} (h : BytesAt m p (le32Bytes v)) :
    (readLe32 m p).val = some v := by
  rw [readLe32, Reads.val_access, h.le32]

theorem readWord_at {m : Mem} {p : Word} {v : Word} (h : BytesAt m p (le32Bytes v)) :
    (readWord m p).val = some (le32 v) := by
  rw [readWord, Reads.val_access, h.load32]

/-- A 16-bit length, read and widened. -/
theorem setWidth_size16 {bs : List Byte} (h : bs.length < 2 ^ 16) :
    (ZipEntry.size16 bs).setWidth 32 = BitVec.ofNat 32 bs.length := by
  apply BitVec.eq_of_toNat_eq
  simp only [ZipEntry.size16, BitVec.toNat_setWidth, BitVec.toNat_ofNat]
  omega

/-- The fields of a central header that are read. -/
structure CentralAt (m : Mem) (p : Word) (q : ZipEntry × ℕ) : Prop where
  signature : (readWord m p).val = some 0x504B0102
  compressedSize : BytesAt m (p + 20) (le32Bytes (ZipEntry.size32 q.1.packed))
  uncompressedSize : BytesAt m (p + 24) (le32Bytes (ZipEntry.size32 q.1.data))
  fileNameLength : (readLe16 m (p + 28)).val = some (BitVec.ofNat 32 q.1.name.length)
  extraFieldLength : (readLe16 m (p + 30)).val = some (BitVec.ofNat 32 q.1.centralExtra.length)
  offset : (readLe32 m (p + 42)).val = some (BitVec.ofNat 32 q.2)
  name : BytesAt m (p + 46) q.1.name

theorem centralAt {m : Mem} {p : Word} {q : ZipEntry × ℕ}
    (h : BytesAt m p (q.1.centralRecord q.2)) : CentralAt m p q where
  signature := by
    have := h.field 0 rfl
    rw [List.take_zero, List.flatten_nil, List.length_nil, BitVec.add_zero] at this
    rw [readWord_at this]
    decide
  compressedSize := h.field 8 rfl
  uncompressedSize := h.field 9 rfl
  fileNameLength := by
    rw [← setWidth_size16 q.1.name_lt]
    exact readLe16_at (h.field 10 rfl)
  extraFieldLength := by
    rw [← setWidth_size16 q.1.centralExtra_lt]
    exact readLe16_at (h.field 11 rfl)
  offset := readLe32_at (h.field 16 rfl)
  name := h.field 17 rfl

/-- The fields of an end record that are read. -/
structure EndAt (m : Mem) (p : Word) (n offset : ℕ) : Prop where
  signature : (readWord m p).val = some 0x504B0506
  diskNumber : load16 m (p + 4) = 0
  centralDirectoryDiskNumber : load16 m (p + 6) = 0
  numEntriesThisDisk : load16 m (p + 8) = load16 m (p + 10)
  numEntries : (readLe16 m (p + 10)).val = some (BitVec.ofNat 32 n)
  centralDirectoryOffset : (readLe32 m (p + 16)).val = some (BitVec.ofNat 32 offset)

/-- A 16-bit load at a little-endian field. -/
theorem load16_at {m : Mem} {p : Word} {v : BitVec 16} (h : BytesAt m p (le16Bytes v)) :
    load16 m p = v.extractLsb' 0 8 ++ v.extractLsb' 8 8 := by
  simp only [le16Bytes, bytesAt_cons] at h
  rw [load16, h.1, h.2.1]

theorem endAt {m : Mem} {p : Word} {n size offset : ℕ} {comment : List Byte} (hn : n < 65536)
    (h : BytesAt m p (endFields n size offset comment).flatten) : EndAt m p n offset where
  signature := by
    have := h.field 0 rfl
    rw [List.take_zero, List.flatten_nil, List.length_nil, BitVec.add_zero] at this
    rw [readWord_at this]
    decide
  diskNumber := (load16_at (h.field 1 rfl)).trans (by decide)
  centralDirectoryDiskNumber := (load16_at (h.field 2 rfl)).trans (by decide)
  numEntriesThisDisk := (load16_at (h.field 3 rfl)).trans (load16_at (h.field 4 rfl)).symm
  numEntries := by
    have hwide : (BitVec.ofNat 16 n).setWidth 32 = BitVec.ofNat 32 n := by
      apply BitVec.eq_of_toNat_eq
      simp only [BitVec.toNat_setWidth, BitVec.toNat_ofNat]
      omega
    rw [← hwide]
    exact readLe16_at (h.field 4 rfl)
  centralDirectoryOffset := readLe32_at (h.field 6 rfl)

/-! ## Stepping through the directory -/

/-- `q` is the current entry of the handle. -/
def Current (m : Mem) (z : ZipT) (q : ZipEntry × ℕ) : Prop :=
  z.gfh ≠ 0 ∧ CentralAt m z.gfh q

/-- The handle with the header at offset `off` as the current one. -/
def ZipT.at (z : ZipT) (off : ℕ) : ZipT := { z with gfh := z.data + BitVec.ofNat 32 off }

@[simp] theorem ZipT.at_data (z : ZipT) (off : ℕ) : (z.at off).data = z.data := rfl

@[simp] theorem ZipT.at_len (z : ZipT) (off : ℕ) : (z.at off).len = z.len := rfl

@[simp] theorem ZipT.at_er (z : ZipT) (off : ℕ) : (z.at off).er = z.er := rfl

@[simp] theorem ZipT.at_gfh (z : ZipT) (off : ℕ) : (z.at off).gfh = z.data + BitVec.ofNat 32 off := rfl

@[simp] theorem ZipT.at_at (z : ZipT) (o off : ℕ) : (z.at o).at off = z.at off := rfl

/-- A place behind the start of a buffer that does not wrap is not `NULL`. -/
theorem add_ofNat_ne_zero {p : Word} {n : ℕ} (h0 : 0 < n) (h : p.toNat + n < 2 ^ 32) :
    p + BitVec.ofNat 32 n ≠ 0 := by
  intro heq
  have := congrArg BitVec.toNat heq
  rw [BitVec.toNat_add, BitVec.toNat_ofNat, Nat.mod_eq_of_lt (a := n) (by omega),
    Nat.mod_eq_of_lt h] at this
  simp at this
  omega

/-- From the central header at `off` the next one is looked for right behind its
    extra field, where its comment is if it has one. -/
theorem nextOffset_central {m : Mem} {z : ZipT} {q : ZipEntry × ℕ} {off : ℕ}
    (hcur : Current m (z.at off) q) :
    (nextOffset m (z.at off)).val =
      some (BitVec.ofNat 32 (off + (46 + q.1.name.length + q.1.centralExtra.length))) := by
  obtain ⟨hne, hc⟩ := hcur
  rw [nextOffset, if_neg hne, Reads.val_bind, hc.fileNameLength, Option.bind_some, Reads.val_bind,
    hc.extraFieldLength, Option.bind_some, Reads.val_pure]
  congr 1
  rw [ZipT.at_gfh, ZipT.at_data, BitVec.add_comm z.data, BitVec.add_sub_cancel, ← Nat.add_assoc,
    ← Nat.add_assoc, BitVec.ofNat_add, BitVec.ofNat_add, BitVec.ofNat_add]
  rfl

/-- `zip_readdir` at a central header makes it the current one. -/
theorem zipReaddir_central {m : Mem} {z : ZipT} {q : ZipEntry × ℕ} {off : ℕ} (her : z.er ≠ 0)
    (hnext : (nextOffset m z).val = some (BitVec.ofNat 32 off)) (hoff : off < z.len.toNat)
    (hc : CentralAt m (z.data + BitVec.ofNat 32 off) q) :
    (zipReaddir m z).val = some (.zOk, z.at off) := by
  have hlt : ¬ BitVec.ofNat 32 off ≥ z.len := by
    have := z.len.isLt
    rw [ge_iff_le, BitVec.le_def, BitVec.toNat_ofNat, Nat.mod_eq_of_lt (by omega)]
    omega
  rw [zipReaddir, if_neg her, Reads.val_bind, hnext, Option.bind_some, if_neg hlt, Reads.val_bind,
    hc.signature, Option.bind_some, if_neg (by decide), Reads.val_pure]
  rfl

/-- A name of the right length is equal to the one asked for if it agrees with it
    up to its first NUL. -/
theorem takeWhile_eq_name {bs : List Byte} {name : CStr} (h : bs.length = name.bytes.length) :
    bs.takeWhile (· ≠ 0) = name.bytes ↔ bs = name.bytes := by
  have hpre : bs.takeWhile (· ≠ 0) <+: bs := List.takeWhile_prefix _
  constructor
  · intro heq
    rw [heq] at hpre
    exact (hpre.eq_of_length h.symm).symm
  · rintro rfl
    exact List.takeWhile_eq_self_iff.mpr fun b hb => by
      simpa using fun h0 : b = 0 => name.noNul (h0 ▸ hb)

/-- **One round of the search**, at the central header of `q`. -/
theorem findLoop_round {m : Mem} (name : CStr) (n : ℕ) {z : ZipT} {q : ZipEntry × ℕ} {off : ℕ}
    (her : z.er ≠ 0) (hnext : (nextOffset m z).val = some (BitVec.ofNat 32 off))
    (hoff : off < z.len.toNat) (hc : CentralAt m (z.data + BitVec.ofNat 32 off) q) :
    (findLoop m name (n + 1) z).val =
      if 255 < q.1.name.length then some (.zError, z.at off)
      else if q.1.name = name.bytes then some (.zOk, z.at off)
      else (findLoop m name n (z.at off)).val := by
  have hlt := q.1.name_lt
  have hfn : (BitVec.ofNat 32 q.1.name.length).toNat = q.1.name.length := by
    rw [BitVec.toNat_ofNat, Nat.mod_eq_of_lt (by omega)]
  have hlong : BitVec.ofNat 32 q.1.name.length > 255 ↔ 255 < q.1.name.length := by
    rw [gt_iff_lt, BitVec.lt_def, hfn]
    rfl
  have hcopy : readBytes m (z.data + BitVec.ofNat 32 off + sizeofGlobalFileHeader)
      q.1.name.length = q.1.name := hc.name
  rw [findLoop, Reads.val_bind, zipReaddir_central her hnext hoff hc, Option.bind_some,
    if_neg (by simp), Reads.val_bind, zipFileFileNameLength, ZipT.at_gfh, hc.fileNameLength,
    Option.bind_some, hfn]
  simp only [hlong]
  by_cases h255 : 255 < q.1.name.length
  · rw [if_pos h255, if_pos h255, Reads.val_pure]
  rw [if_neg h255, if_neg h255]
  by_cases hlen : q.1.name.length = name.bytes.length
  · -- the name has the right length and is copied and compared
    rw [if_pos hlen, Reads.val_bind, zipFileGetName, Reads.val_access, Option.bind_some, hfn,
      ZipT.at_gfh, hcopy]
    simp only [takeWhile_eq_name hlen]
    split_ifs <;> rfl
  · rw [if_neg hlen, if_neg fun h => hlen (by rw [h])]

/-! ## The search -/

/-- The index at which a search for `name` succeeds: an earlier name that does
    not fit the buffer of 256 bytes ends it. -/
def search (name : CStr) : List (List Byte) → Option ℕ
  | [] => none
  | bs :: names =>
    if 255 < bs.length then none
    else if bs = name.bytes then some 0
    else (search name names).map (· + 1)

/-- The names of placed entries. -/
def names (ps : List (ZipEntry × ℕ)) : List (List Byte) := ps.map fun q => q.1.name

@[simp] theorem names_cons (q : ZipEntry × ℕ) (ps : List (ZipEntry × ℕ)) :
    names (q :: ps) = q.1.name :: names ps := rfl

/-- Where the central header of the entry at an index stands in the directory. -/
def headerOffset (ps : List (ZipEntry × ℕ)) (i : ℕ) : ℕ := (directory (ps.take i)).length

@[simp] theorem headerOffset_zero (ps : List (ZipEntry × ℕ)) : headerOffset ps 0 = 0 := rfl

@[simp] theorem headerOffset_cons (q : ZipEntry × ℕ) (ps : List (ZipEntry × ℕ)) (i : ℕ) :
    headerOffset (q :: ps) (i + 1) = (q.1.centralRecord q.2).length + headerOffset ps i := by
  rw [headerOffset, List.take_succ_cons, directory, List.flatMap_cons, List.length_append]
  rfl

/-- **The search over the rest of a central directory** that starts at `off`, if
    no entry but the last has a comment; by induction on the directory, the next
    offset being the invariant. -/
theorem findLoop_search {m : Mem} (name : CStr) {ps : List (ZipEntry × ℕ)} {z : ZipT} {off : ℕ}
    (her : z.er ≠ 0) (hnext : (nextOffset m z).val = some (BitVec.ofNat 32 off)) (hpos : 0 < off)
    (hlen : off + (directory ps).length < z.len.toNat)
    (hfit : z.data.toNat + z.len.toNat ≤ 2 ^ 32)
    (hdir : BytesAt m (z.data + BitVec.ofNat 32 off) (directory ps))
    (hps : ∀ q ∈ ps.dropLast, q.1.comment = []) :
    (∀ i, search name (names ps) = some i →
        (findLoop m name ps.length z).val = some (.zOk, z.at (off + headerOffset ps i))) ∧
      (search name (names ps) = none →
        ∃ z', (findLoop m name ps.length z).val = some (.zError, z')) := by
  induction ps generalizing z off with
  | nil => exact ⟨fun i h => absurd h (by simp [search, names]), fun _ => ⟨z, rfl⟩⟩
  | cons q ps ih =>
    rw [directory, List.flatMap_cons, bytesAt_append, add_ofNat_add] at hdir
    rw [directory, List.flatMap_cons, List.length_append] at hlen
    have hc := centralAt hdir.1
    have hrec := q.1.centralRecord_length q.2
    rw [List.length_cons, findLoop_round name ps.length her hnext (by omega) hc, names_cons, search]
    by_cases h255 : 255 < q.1.name.length
    · rw [if_pos h255, if_pos h255]
      exact ⟨fun i h => absurd h (by simp), fun _ => ⟨_, rfl⟩⟩
    rw [if_neg h255, if_neg h255]
    by_cases hname : q.1.name = name.bytes
    · rw [if_pos hname, if_pos hname]
      refine ⟨fun i h => ?_, fun h => absurd h (by simp)⟩
      obtain rfl : 0 = i := by simpa using h
      rw [headerOffset_zero, Nat.add_zero]
    rw [if_neg hname, if_neg hname]
    cases ps with
    | nil => exact ⟨fun i h => absurd h (by simp [search, names]), fun _ => ⟨_, rfl⟩⟩
    | cons q' ps =>
      have hcomment : q.1.comment = [] := hps q (by simp)
      have hcur : Current m (z.at off) q := ⟨add_ofNat_ne_zero hpos (by omega), hc⟩
      have hnext' := nextOffset_central hcur
      rw [show 46 + q.1.name.length + q.1.centralExtra.length = (q.1.centralRecord q.2).length by
        rw [hrec, hcomment, List.length_nil, Nat.add_zero]] at hnext'
      obtain ⟨hsome, hnone⟩ := ih (z := z.at off) her hnext' (by omega)
        (by simp only [directory, ZipT.at_len]; omega) hfit hdir.2
        (fun r hr => hps r (by rw [List.dropLast_cons_cons]; exact List.mem_cons_of_mem _ hr))
      refine ⟨fun i h => ?_, fun h => hnone (Option.map_eq_none_iff.mp h)⟩
      obtain ⟨j, hj, rfl⟩ := Option.map_eq_some_iff.mp h
      rw [hsome j hj, ZipT.at_at, headerOffset_cons, Nat.add_assoc]

/-- The handle on an archive of `len` bytes at `p` with its end record at `er`,
    before the first entry. -/
def opened (p : Word) (er len : ℕ) : ZipT := ⟨p, BitVec.ofNat 32 len, p + BitVec.ofNat 32 er, 0⟩

theorem ArchiveAt.endAt {m : Mem} {p : Word} {ps : List (ZipEntry × ℕ)} {dir er : ℕ}
    {comment : List Byte} (ha : ArchiveAt m p ps dir er comment) :
    EndAt m (p + BitVec.ofNat 32 er) ps.length dir :=
  Zip.endAt ha.count ha.endRecord

/-- The length of an archive as `unsigned long`. -/
theorem ArchiveAt.len_toNat {m : Mem} {p : Word} {ps : List (ZipEntry × ℕ)} {dir er : ℕ}
    {comment : List Byte} (ha : ArchiveAt m p ps dir er comment) :
    (BitVec.ofNat 32 (er + 22 + comment.length)).toNat = er + 22 + comment.length := by
  rw [BitVec.toNat_ofNat, Nat.mod_eq_of_lt ha.length_lt]

/-- **`zip_file_find`** on an archive none of whose entries but the last has a
    comment, whichever entry was current. -/
theorem zipFileFind_search {m : Mem} {p : Word} {ps : List (ZipEntry × ℕ)} {dir er : ℕ}
    {comment : List Byte} (ha : ArchiveAt m p ps dir er comment)
    (hps : ∀ q ∈ ps.dropLast, q.1.comment = []) (name : CStr) (g : Word) :
    let z : ZipT := { opened p er (er + 22 + comment.length) with gfh := g }
    (∀ i, search name (names ps) = some i →
        (zipFileFind m z name).val = some (.zOk, z.at (dir + headerOffset ps i))) ∧
      (search name (names ps) = none → ∃ z', (zipFileFind m z name).val = some (.zError, z')) := by
  intro z
  have hcount : (BitVec.ofNat 32 ps.length).toNat = ps.length := by
    have := ha.count
    rw [BitVec.toNat_ofNat, Nat.mod_eq_of_lt (by omega)]
  by_cases hne : ps = []
  · -- nothing is found in an archive without entries, end record or not
    subst hne
    refine ⟨fun i h => absurd h (by simp [search, names]), fun _ => ?_⟩
    unfold zipFileFind
    split_ifs
    · exact ⟨_, rfl⟩
    · rw [Reads.val_bind, zipNumEntries, show z.er = p + BitVec.ofNat 32 er from rfl,
        ha.endAt.numEntries, Option.bind_some]
      exact ⟨_, rfl⟩
  have hdir := ha.lt_dir hne
  have hle := ha.central_le
  have hfits := ha.fits
  have her : z.er ≠ 0 := add_ofNat_ne_zero (by omega) (by omega)
  have hfind : (zipFileFind m z name).val = (findLoop m name ps.length { z with gfh := 0 }).val := by
    rw [zipFileFind, if_neg her, Reads.val_bind, zipNumEntries,
      show z.er = p + BitVec.ofNat 32 er from rfl, ha.endAt.numEntries, Option.bind_some, hcount]
  rw [hfind]
  have hzlen : z.len.toNat = er + 22 + comment.length := ha.len_toNat
  exact findLoop_search name (z := { z with gfh := 0 }) her
    (by rw [nextOffset, if_pos rfl]; exact ha.endAt.centralDirectoryOffset) (by omega)
    (by simp only [hzlen]; omega) (by simp only [hzlen]; exact hfits) ha.central hps

/-- Where a search succeeds. -/
theorem search_eq_some {name : CStr} {ns : List (List Byte)} {i : ℕ} :
    search name ns = some i ↔ ns[i]? = some name.bytes ∧
      (∀ j < i, ns[j]? ≠ some name.bytes) ∧ ∀ j ≤ i, ∀ bs, ns[j]? = some bs → bs.length ≤ 255 := by
  induction ns generalizing i with
  | nil => simp [search]
  | cons bs ns ih =>
    rw [search]
    by_cases h255 : 255 < bs.length
    · rw [if_pos h255]
      refine iff_of_false (by simp) ?_
      rintro ⟨-, -, hle⟩
      exact absurd (hle 0 (Nat.zero_le i) bs rfl) (by omega)
    rw [if_neg h255]
    by_cases hname : bs = name.bytes
    · rw [if_pos hname, Option.some.injEq]
      constructor
      · rintro rfl
        refine ⟨by simp [hname], fun j hj => absurd hj (Nat.not_lt_zero j), fun j hj bs' h => ?_⟩
        obtain rfl : j = 0 := Nat.le_zero.mp hj
        obtain rfl : bs = bs' := by simpa using h
        omega
      · rintro ⟨-, hfirst, -⟩
        by_contra hne
        exact hfirst 0 (by omega) (by simp [hname])
    rw [if_neg hname, Option.map_eq_some_iff]
    constructor
    · rintro ⟨j, hj, rfl⟩
      obtain ⟨hget, hfirst, hle⟩ := ih.mp hj
      refine ⟨by simpa using hget, fun k hk => ?_, fun k hk bs' h => ?_⟩
      · cases k with
        | zero => simpa using hname
        | succ k => simpa using hfirst k (by omega)
      · cases k with
        | zero =>
          obtain rfl : bs = bs' := by simpa using h
          omega
        | succ k => exact hle k (by omega) bs' (by simpa using h)
    · rintro ⟨hget, hfirst, hle⟩
      cases i with
      | zero => exact absurd (by simpa using hget) hname
      | succ i =>
        refine ⟨i, ih.mpr ⟨by simpa using hget, fun j hj => ?_, fun j hj bs' h => ?_⟩, rfl⟩
        · simpa using hfirst (j + 1) (by omega)
        · exact hle (j + 1) (by omega) bs' (by simpa using h)

/-- The central header the search stops at is that of the entry at its index. -/
theorem ArchiveAt.current {m : Mem} {p : Word} {ps : List (ZipEntry × ℕ)} {dir er : ℕ}
    {comment : List Byte} (ha : ArchiveAt m p ps dir er comment) {i : ℕ} {q : ZipEntry × ℕ}
    (hi : ps[i]? = some q) {z : ZipT} (hz : z.data = p) :
    Current m (z.at (dir + headerOffset ps i)) q := by
  obtain ⟨hlt, hget⟩ := List.getElem?_eq_some_iff.mp hi
  have hsplit : ps = ps.take i ++ q :: ps.drop (i + 1) := by
    rw [← hget, List.cons_getElem_drop_succ, List.take_append_drop]
  have hdir := ha.central
  have hle := ha.central_le
  have hfits := ha.fits
  have hpos := ha.lt_dir (List.ne_nil_of_length_pos (by omega))
  rw [hsplit, directory, List.flatMap_append, List.flatMap_cons, bytesAt_append, bytesAt_append,
    add_ofNat_add] at hdir
  have hoff : headerOffset ps i < (directory ps).length := by
    have hrec := q.1.centralRecord_length q.2
    rw [hsplit, directory, List.flatMap_append, List.flatMap_cons, List.length_append,
      List.length_append, ← hsplit]
    show (directory (ps.take i)).length < _
    rw [directory]
    omega
  refine ⟨?_, ?_⟩
  · rw [ZipT.at_gfh, hz]
    exact add_ofNat_ne_zero (by omega) (by omega)
  · rw [ZipT.at_gfh, hz]
    exact centralAt hdir.2.1

end BBoot.Zip
