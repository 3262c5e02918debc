import BBoot.Zip.RoundTrip

/-!
# Where the zip reader reads

`zip_readdir` compares the offset of a central header with the length of the
buffer and checks nothing else: not the rest of the header, its name, the local
header or the data. `CallInside` is, call by call, the condition on the headers
the call visits under which it reads inside the buffer.

Results:
* `zipReaddir_inside`, `zipFileFind_inside`, `zipFileExtract_inside`: one call.
* `endInside_of_open`: the end record an opened handle points to is inside.
* `zip_inside_iff`: a run of calls on an opened handle reads only inside
  `[0, ziplen)` exactly when each of them meets its condition.
* `shortDirectory_outside`: an archive that opens and is read past its end.
-/

namespace BBoot.Zip

/-! ## The conditions -/

/-- The `n` bytes at `p` lie inside the archive. -/
def ZipT.Holds (z : ZipT) (p : Word) (n : ℕ) : Prop := Access.Within ⟨p, n⟩ z.data z.len.toNat

/-- The offset of the central header after the current one, or of the first. -/
def nextHeader (m : Mem) (z : ZipT) : Word :=
  if z.gfh = 0 then field32 m (z.er + 16)
  else z.gfh - z.data + sizeofGlobalFileHeader + field16 m (z.gfh + 28) + field16 m (z.gfh + 30)

/-- The handle at the header `zip_readdir` goes to. -/
def ZipT.step (m : Mem) (z : ZipT) : ZipT := { z with gfh := z.data + nextHeader m z }

/-- There is a central header below the length of the buffer to go to. -/
def Visits (m : Mem) (z : ZipT) : Prop :=
  nextHeader m z < z.len ∧ load32 m (z.data + nextHeader m z) = 0x504B0102

/-- The two lengths of the header that is left, and the signature of the next
    one if its offset is below the length. -/
structure ReaddirInside (m : Mem) (z : ZipT) : Prop where
  lengths : z.gfh ≠ 0 → z.Holds (z.gfh + 28) 2 ∧ z.Holds (z.gfh + 30) 2
  signature : nextHeader m z < z.len → z.Holds (z.data + nextHeader m z) 4

/-- The headers a search visits in at most `n` rounds: the name length of each,
    and its name where the length is the one asked for. -/
def FindInside (m : Mem) (name : CStr) : ℕ → ZipT → Prop
  | 0, _ => True
  | n + 1, z =>
    ReaddirInside m z ∧ (Visits m z →
      z.Holds ((z.step m).gfh + 28) 2 ∧ (field16 m ((z.step m).gfh + 28) ≤ 255 →
        (if (field16 m ((z.step m).gfh + 28)).toNat = name.bytes.length then
          z.Holds ((z.step m).gfh + sizeofGlobalFileHeader) name.bytes.length ∧
            (¬ (readBytes m ((z.step m).gfh + sizeofGlobalFileHeader)
              name.bytes.length).takeWhile (· ≠ 0) = name.bytes → FindInside m name n (z.step m))
        else FindInside m name n (z.step m))))

/-- The offset field of the current central header, the signature it points to
    and, if that is right, the fields of the local header; for a method that is
    known the size fields and the data as it is stored. -/
def ExtractInside (m : Mem) (z : ZipT) : Prop :=
  z.Holds (z.gfh + 42) 4 ∧ z.Holds (localHeader m z) 4 ∧
    (load32 m (localHeader m z) = 0x504B0304 →
      z.Holds (localHeader m z + 26) 2 ∧ z.Holds (localHeader m z + 28) 2 ∧
        z.Holds (localHeader m z + 8) 2 ∧
        (field16 m (localHeader m z + 8) = 0 →
          z.Holds (z.gfh + 20) 4 ∧ z.Holds (z.gfh + 24) 4 ∧
            (load32 m (z.gfh + 20) = load32 m (z.gfh + 24) →
              z.Holds (entryBits m z) (field32 m (z.gfh + 24)).toNat)) ∧
        (field16 m (localHeader m z + 8) = 8 →
          z.Holds (z.gfh + 24) 4 ∧ z.Holds (z.gfh + 20) 4 ∧
            z.Holds (entryBits m z) (field32 m (z.gfh + 20)).toNat))

/-- The condition on one call on a handle with an end record. -/
def CallInside (m : Mem) (z : ZipT) : ZipCall → Prop
  | .readdir => z.er ≠ 0 → ReaddirInside m z
  | .find name => z.er ≠ 0 → FindInside m name (field16 m (z.er + 10)).toNat { z with gfh := 0 }
  | .extract buffer => z.gfh ≠ 0 → buffer ≠ 0 → ExtractInside m z

/-- What the functions read of the end record is inside. -/
structure EndInside (z : ZipT) : Prop where
  numEntries : z.Holds (z.er + 10) 2
  centralDirectoryOffset : z.Holds (z.er + 16) 4

/-! ## One call -/

section Reads

variable (m : Mem) (p : Word) (z : ZipT)

@[simp] theorem readWord_within :
    (readWord m p).Within z.data z.len.toNat ↔ z.Holds p 4 := Reads.within_access ..

@[simp] theorem readHalf_within :
    (readHalf m p).Within z.data z.len.toNat ↔ z.Holds p 2 := Reads.within_access ..

@[simp] theorem readLe16_within :
    (readLe16 m p).Within z.data z.len.toNat ↔ z.Holds p 2 := Reads.within_access ..

@[simp] theorem readLe32_within :
    (readLe32 m p).Within z.data z.len.toNat ↔ z.Holds p 4 := Reads.within_access ..

end Reads

theorem nextOffset_val (m : Mem) (z : ZipT) : (nextOffset m z).val = some (nextHeader m z) := by
  unfold nextOffset nextHeader
  split_ifs <;> rfl

theorem nextOffset_within {m : Mem} {z : ZipT} (hend : EndInside z) :
    (nextOffset m z).Within z.data z.len.toNat ↔
      (z.gfh ≠ 0 → z.Holds (z.gfh + 28) 2 ∧ z.Holds (z.gfh + 30) 2) := by
  unfold nextOffset
  split_ifs with h
  · exact iff_of_true ((readLe32_within m _ z).mpr hend.centralDirectoryOffset)
      fun hne => absurd h hne
  · simp only [Reads.within_bind, readLe16_within, readLe16_val, Option.some.injEq, forall_eq',
      Reads.within_pure, and_true, ne_eq, h, not_false_eq_true, true_imp_iff]

theorem zipReaddir_val {m : Mem} {z : ZipT} (her : z.er ≠ 0) (h : Visits m z) :
    (zipReaddir m z).val = some (.zOk, z.step m) := by
  rw [zipReaddir, if_neg her, Reads.val_bind, nextOffset_val, Option.bind_some,
    if_neg (BitVec.not_le.mpr h.1), Reads.val_bind, readWord_val, Option.bind_some,
    if_neg (not_not.mpr h.2)]
  rfl

theorem zipReaddir_val_error {m : Mem} {z : ZipT} (h : ¬ Visits m z) :
    ∃ z', (zipReaddir m z).val = some (.zError, z') := by
  rw [zipReaddir]
  split_ifs
  · exact ⟨_, rfl⟩
  rw [Reads.val_bind, nextOffset_val, Option.bind_some]
  split_ifs with hlen
  · exact ⟨_, rfl⟩
  rw [Reads.val_bind, readWord_val, Option.bind_some, if_pos]
  · exact ⟨_, rfl⟩
  · exact fun hsig => h ⟨BitVec.not_le.mp hlen, hsig⟩

/-- What `zip_readdir` reads. -/
theorem zipReaddir_inside {m : Mem} {z : ZipT} (hend : EndInside z) (her : z.er ≠ 0) :
    (zipReaddir m z).Within z.data z.len.toNat ↔ ReaddirInside m z := by
  rw [zipReaddir, if_neg her, Reads.within_bind, nextOffset_within hend, nextOffset_val]
  simp only [Option.some.injEq, forall_eq']
  have hrest : (if nextHeader m z ≥ z.len then (pure (.zError, z) : Reads (ZStatus × ZipT)) else do
      let sig ← readWord m (z.data + nextHeader m z)
      if sig ≠ 0x504B0102 then pure (.zError, { z with gfh := 0 })
      else pure (.zOk, { z with gfh := z.data + nextHeader m z })).Within z.data z.len.toNat ↔
        (nextHeader m z < z.len → z.Holds (z.data + nextHeader m z) 4) := by
    by_cases h : nextHeader m z ≥ z.len
    · rw [if_pos h]
      simp [BitVec.not_lt.mpr h]
    · rw [if_neg h, Reads.within_bind, readWord_within]
      have hrest : ∀ sig : Word, (if sig ≠ 0x504B0102 then
          (pure (.zError, { z with gfh := 0 }) : Reads (ZStatus × ZipT))
          else pure (.zOk, { z with gfh := z.data + nextHeader m z })).Within z.data z.len.toNat := by
        intro sig
        split_ifs <;> exact Reads.within_pure _ _ _
      simp only [hrest, implies_true, and_true, BitVec.not_le.mp h, forall_const]
  rw [hrest]
  exact ⟨fun h => ⟨h.1, h.2⟩, fun h => ⟨h.1, h.2⟩⟩

/-- What a search reads; by induction on the rounds. -/
theorem findLoop_inside {m : Mem} {name : CStr} (n : ℕ) {z : ZipT} (hend : EndInside z)
    (her : z.er ≠ 0) :
    (findLoop m name n z).Within z.data z.len.toNat ↔ FindInside m name n z := by
  induction n generalizing z with
  | zero => simp [findLoop, FindInside]
  | succ n ih =>
    rw [findLoop, Reads.within_bind, zipReaddir_inside hend her, FindInside]
    refine and_congr_right fun _ => ?_
    by_cases hv : Visits m z
    · have ih' := ih (z := z.step m) ⟨hend.numEntries, hend.centralDirectoryOffset⟩ her
      rw [zipReaddir_val her hv]
      simp only [Option.some.injEq, forall_eq', reduceCtorEq, if_false, hv, true_imp_iff,
        Reads.within_bind, zipFileFileNameLength, readLe16_val]
      refine and_congr (readLe16_within m _ z) ?_
      by_cases hlong : field16 m ((z.step m).gfh + 28) > 255
      · rw [if_pos hlong]
        exact iff_of_true (Reads.within_pure _ _ _) fun hle => absurd hle (BitVec.not_le.mpr hlong)
      · rw [if_neg hlong]
        simp only [BitVec.not_lt.mp hlong, true_imp_iff]
        split_ifs with hlen
        · rw [Reads.within_bind, zipFileGetName, Reads.within_access, Reads.val_access, hlen]
          simp only [Option.some.injEq, forall_eq']
          refine and_congr Iff.rfl ?_
          split_ifs with heq
          · exact iff_of_true (Reads.within_pure _ _ _) fun hne => absurd heq hne
          · rw [imp_iff_right heq]
            exact ih'
        · exact ih'
    · obtain ⟨z', hz'⟩ := zipReaddir_val_error hv
      rw [hz']
      simp [hv]

/-- What `zip_file_find` reads. -/
theorem zipFileFind_inside {m : Mem} {name : CStr} {z : ZipT} (hend : EndInside z)
    (her : z.er ≠ 0) :
    (zipFileFind m z name).Within z.data z.len.toNat ↔
      FindInside m name (field16 m (z.er + 10)).toNat { z with gfh := 0 } := by
  rw [zipFileFind, if_neg her, Reads.within_bind, zipNumEntries, readLe16_within, readLe16_val]
  simp only [Option.some.injEq, forall_eq', hend.numEntries, true_and]
  exact findLoop_inside _ (z := { z with gfh := 0 })
    ⟨hend.numEntries, hend.centralDirectoryOffset⟩ her

/-- What `zip_file_extract` reads. -/
theorem zipFileExtract_inside {puff : Puff} {m : Mem} {z : ZipT} {buffer : Word} (hgfh : z.gfh ≠ 0)
    (hbuffer : buffer ≠ 0) :
    (zipFileExtract puff m z buffer).Within z.data z.len.toNat ↔ ExtractInside m z := by
  rw [zipFileExtract, if_neg (not_or.mpr ⟨hgfh, hbuffer⟩)]
  simp only [Reads.within_bind, readLe32_within, readWord_within, readLe32_val, readWord_val,
    Option.some.injEq, forall_eq']
  refine and_congr Iff.rfl (and_congr Iff.rfl ?_)
  change Reads.Within (ite (load32 m (localHeader m z) ≠ 0x504B0304) _ _) _ _ ↔ _
  by_cases hsig : load32 m (localHeader m z) = 0x504B0304
  swap
  · rw [if_pos hsig]
    exact iff_of_true (Reads.within_pure _ _ _) fun h => absurd h hsig
  rw [if_neg (not_not.mpr hsig), imp_iff_right hsig]
  simp only [Reads.within_bind, readLe16_within, readLe16_val, Option.some.injEq, forall_eq']
  refine and_congr Iff.rfl (and_congr Iff.rfl (and_congr Iff.rfl ?_))
  change Reads.Within (ite (field16 m (localHeader m z + 8) = 0) _ _) _ _ ↔ _
  by_cases h0 : field16 m (localHeader m z + 8) = 0
  · have h8 : ¬ field16 m (localHeader m z + 8) = 8 := by rw [h0]; decide
    rw [if_pos h0, imp_iff_right h0, and_iff_left fun h => absurd h h8]
    simp only [Reads.within_bind, readWord_within, readWord_val, Option.some.injEq, forall_eq']
    refine and_congr Iff.rfl (and_congr Iff.rfl ?_)
    by_cases hsize : load32 m (z.gfh + 20) = load32 m (z.gfh + 24)
    · rw [if_neg (not_not.mpr hsize), imp_iff_right hsize]
      exact Reads.within_access ..
    · rw [if_pos hsize]
      exact iff_of_true (Reads.within_pure _ _ _) fun h => absurd h hsize
  rw [if_neg h0]
  change Reads.Within (ite (field16 m (localHeader m z + 8) = 8) _ _) _ _ ↔ _
  by_cases h8 : field16 m (localHeader m z + 8) = 8
  · rw [if_pos h8, imp_iff_right h8, and_iff_right fun h => absurd h h0]
    simp only [Reads.within_bind, readLe32_within, readLe32_val, Option.some.injEq, forall_eq']
    exact and_congr Iff.rfl (and_congr Iff.rfl (Reads.within_access ..))
  · rw [if_neg h8]
    exact iff_of_true (Reads.within_pure _ _ _) ⟨fun h => absurd h h0, fun h => absurd h h8⟩

/-- What one call reads. -/
theorem zipCall_inside {puff : Puff} {m : Mem} {z : ZipT} (hend : z.er ≠ 0 → EndInside z)
    (c : ZipCall) : (c.run puff m z).Within z.data z.len.toNat ↔ CallInside m z c := by
  cases c with
  | readdir =>
    rw [ZipCall.run, Reads.within_bind, CallInside]
    simp only [Reads.within_pure, implies_true, and_true]
    by_cases her : z.er = 0
    · rw [zipReaddir, if_pos her]
      exact iff_of_true (Reads.within_pure _ _ _) fun h => absurd her h
    · rw [zipReaddir_inside (hend her) her, imp_iff_right her]
  | find name =>
    rw [ZipCall.run, Reads.within_bind, CallInside]
    simp only [Reads.within_pure, implies_true, and_true]
    by_cases her : z.er = 0
    · rw [zipFileFind, if_pos her]
      exact iff_of_true (Reads.within_pure _ _ _) fun h => absurd her h
    · rw [zipFileFind_inside (hend her) her, imp_iff_right her]
  | extract buffer =>
    rw [ZipCall.run, Reads.within_bind, CallInside]
    simp only [Reads.within_pure, implies_true, and_true]
    by_cases h : z.gfh = 0 ∨ buffer = 0
    · rw [zipFileExtract, if_pos h]
      exact iff_of_true (Reads.within_pure _ _ _) fun h1 h2 => absurd h (not_or.mpr ⟨h1, h2⟩)
    · obtain ⟨h1, h2⟩ := not_or.mp h
      rw [zipFileExtract_inside h1 h2, imp_iff_right h1, imp_iff_right h2]

/-! ## Runs -/

/-- Every call of a run meets its condition, on the handle it is made on. -/
def CallsInside (puff : Puff) : List (Mem × ZipCall) → ZipT → Prop
  | [], _ => True
  | (m, c) :: cs, z =>
    CallInside m z c ∧ ∀ z', (c.run puff m z).val = some z' → CallsInside puff cs z'

/-- A call leaves the archive and the end record as they are. -/
theorem ZipCall.run_frame {puff : Puff} {m : Mem} {z z' : ZipT} {c : ZipCall}
    (h : (c.run puff m z).val = some z') : z'.data = z.data ∧ z'.len = z.len ∧ z'.er = z.er := by
  obtain ⟨g, hg⟩ := runCalls_frame puff [(m, c)] z
  rw [runCalls, Reads.val_bind, h, Option.bind_some] at hg
  obtain rfl : z' = { z with gfh := g } := by simpa [runCalls] using hg
  exact ⟨rfl, rfl, rfl⟩

/-- **Run lemma**, by induction on the calls. -/
theorem runCalls_inside {puff : Puff} (cs : List (Mem × ZipCall)) {z : ZipT}
    (hend : z.er ≠ 0 → EndInside z) :
    (runCalls puff cs z).Within z.data z.len.toNat ↔ CallsInside puff cs z := by
  induction cs generalizing z with
  | nil => exact iff_of_true (Reads.within_pure _ _ _) trivial
  | cons c cs ih =>
    obtain ⟨m, c⟩ := c
    rw [runCalls, Reads.within_bind, zipCall_inside hend, CallsInside]
    refine and_congr_right fun _ => forall_congr' fun z' => imp_congr_right fun hz' => ?_
    obtain ⟨hdata, hlen, her⟩ := ZipCall.run_frame hz'
    have hend' : z'.er ≠ 0 → EndInside z' := by
      intro hne
      rw [her] at hne
      have h := hend hne
      refine ⟨?_, ?_⟩
      · unfold ZipT.Holds
        rw [hdata, hlen, her]
        exact h.numEntries
      · unfold ZipT.Holds
        rw [hdata, hlen, her]
        exact h.centralDirectoryOffset
    rw [← ih hend', hdata, hlen]

/-- The scan finds nothing above where it starts. -/
theorem findEndRecord_le {m : Mem} {zipdata : Word} {k i : ℕ}
    (h : (findEndRecord m zipdata k).val = some (some i)) : i ≤ k := by
  induction k with
  | zero =>
    rw [findEndRecord, Reads.val_bind, readWord_val, Option.bind_some] at h
    split_ifs at h
    · obtain rfl : 0 = i := by simpa using h
      exact le_rfl
    · simp at h
  | succ k ih =>
    rw [findEndRecord, Reads.val_bind, readWord_val, Option.bind_some] at h
    split_ifs at h
    · obtain rfl : k + 1 = i := by simpa using h
      exact le_rfl
    · exact (ih h).trans (Nat.le_succ k)

/-- An opened handle keeps the buffer it was opened on, and its end record lies
    inside. -/
theorem endInside_of_open {m : Mem} {z₀ z : ZipT} {zipdata ziplen : Word}
    (h : (zipOpenBuffer m z₀ zipdata ziplen).val = some (.zOk, z)) :
    z.data = zipdata ∧ z.len = ziplen ∧ EndInside z := by
  unfold zipOpenBuffer at h
  split_ifs at h with hsmall hneg
  · simp at h
  · simp at h
  rw [Reads.val_bind] at h
  cases hscan : (findEndRecord m zipdata (ziplen - sizeofEndRecord).toNat).val with
  | none =>
    rw [hscan] at h
    exact absurd h (by simp)
  | some o =>
    cases o with
    | none =>
      rw [hscan] at h
      exact absurd h (by simp)
    | some i =>
      rw [hscan, Option.bind_some] at h
      simp only [Reads.val_bind, readHalf, Reads.val_access, Option.bind_some] at h
      split_ifs at h with herr
      · simp at h
      obtain rfl : (⟨zipdata, ziplen, zipdata + BitVec.ofNat 32 i, 0⟩ : ZipT) = z := by
        simpa using h
      have hi := findEndRecord_le hscan
      have hlt := BitVec.not_le.mp hsmall
      rw [BitVec.toNat_sub_of_le (BitVec.le_of_lt hlt)] at hi
      rw [BitVec.lt_def] at hlt
      have h22 : sizeofEndRecord.toNat = 22 := rfl
      have hbound := ziplen.isLt
      have hin : ∀ a b : ℕ, a + b ≤ 22 → Access.Within ⟨zipdata + BitVec.ofNat 32 i +
          BitVec.ofNat 32 a, b⟩ zipdata ziplen.toNat := by
        intro a b hab j hj
        have heq : zipdata + BitVec.ofNat 32 i + BitVec.ofNat 32 a + BitVec.ofNat 32 j - zipdata =
            BitVec.ofNat 32 (i + a + j) := by
          rw [add_ofNat_add, add_ofNat_add, BitVec.add_comm, BitVec.add_sub_cancel, Nat.add_assoc]
        rw [heq, BitVec.toNat_ofNat, Nat.mod_eq_of_lt (by simp only at hj; omega)]
        simp only at hj
        omega
      exact ⟨rfl, rfl, hin 10 2 (by omega), hin 16 4 (by omega)⟩

/-- **Where the reader reads.** On a handle that `zip_openBuffer` opened on any
    buffer, a run of `zip_readdir`, `zip_file_find` and `zip_file_extract` calls
    reads archive bytes only at offsets in `[0, ziplen)` if and only if every
    call meets its condition on the headers it visits. -/
theorem zip_inside_iff {puff : Puff} {m : Mem} {z₀ z : ZipT} {zipdata ziplen : Word}
    (hopen : (zipOpenBuffer m z₀ zipdata ziplen).val = some (.zOk, z))
    (cs : List (Mem × ZipCall)) :
    (runCalls puff cs z).Within zipdata ziplen.toNat ↔ CallsInside puff cs z := by
  obtain ⟨hdata, hlen, hend⟩ := endInside_of_open hopen
  rw [← hdata, ← hlen]
  exact runCalls_inside cs fun _ => hend

/-- A byte and an end record whose directory is said to start at offset 22. -/
def shortDirectory : List Byte :=
  [0, 0x50, 0x4b, 5, 6, 0, 0, 0, 0, 1, 0, 1, 0, 46, 0, 0, 0, 22, 0, 0, 0, 0, 0]

/-- `shortDirectory` opens, and the first `zip_readdir` reads a signature that
    ends three bytes behind the buffer. -/
theorem shortDirectory_outside :
    (zipOpenBuffer (memOf 0x1000 shortDirectory) ⟨0, 0, 0, 0⟩ 0x1000 23).val =
        some (.zOk, ⟨0x1000, 23, 0x1001, 0⟩) ∧
      ¬ (runCalls puffStored [(memOf 0x1000 shortDirectory, .readdir)]
        ⟨0x1000, 23, 0x1001, 0⟩).Within 0x1000 23 := by
  refine ⟨by decide +kernel, fun h => ?_⟩
  have hend : EndInside ⟨0x1000, 23, 0x1001, 0⟩ :=
    ⟨by unfold ZipT.Holds Access.Within; decide, by unfold ZipT.Holds Access.Within; decide⟩
  have hcalls := (runCalls_inside _ (z := ⟨0x1000, 23, 0x1001, 0⟩) fun _ => hend).mp h
  have hsig := (hcalls.1 (by decide)).signature (by decide) 3 (by decide)
  revert hsig
  decide

/-- The first header of the archive of two entries is read inside. -/
theorem zip_inside_two :
    (runCalls puffStored [(memOf 0x1000 (archive [storedEntry, deflatedEntry] []), .readdir)]
      ⟨0x1000, 207, 0x10b9, 0⟩).Within 0x1000 (207 : Word).toNat := by
  have hopen : (zipOpenBuffer (memOf 0x1000 (archive [storedEntry, deflatedEntry] []))
      ⟨0, 0, 0, 0⟩ 0x1000 207).val = some (.zOk, ⟨0x1000, 207, 0x10b9, 0⟩) := by decide +kernel
  have hsig : ZipT.Holds ⟨0x1000, 207, 0x10b9, 0⟩ (0x1000 + nextHeader
      (memOf 0x1000 (archive [storedEntry, deflatedEntry] [])) ⟨0x1000, 207, 0x10b9, 0⟩) 4 := by
    unfold ZipT.Holds Access.Within
    decide +kernel
  exact (zip_inside_iff hopen _).mpr
    ⟨fun _ => ⟨fun h => absurd rfl h, fun _ => hsig⟩, fun _ _ => trivial⟩

end BBoot.Zip
