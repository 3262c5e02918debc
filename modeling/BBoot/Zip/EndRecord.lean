import BBoot.Zip.Directory

/-!
# Finding the end record

`zip_openBuffer` looks for the signature of the end record from the last place
an end record fits at down to the start of the buffer, `zip_findLen` from behind
the first local header up. Both take the first one they meet.

Results:
* `findEndRecord_eq_some`, `findLenLoop_eq`: what the two scans return.
* `zipOpenBuffer_selects_iff`: an archive with a comment is opened at its own end
  record exactly when no end signature stands behind it where the scan looks.
* `zipFindLen_archive_iff`: the length found is that of the archive exactly when
  no end signature stands before its own.
-/

namespace BBoot.Zip

/-- The signature of an end record stands at `p`. -/
def EndSignature (m : Mem) (p : Word) : Prop := load32 m p = 0x504B0506

instance (m : Mem) (p : Word) : Decidable (EndSignature m p) := by
  unfold EndSignature; infer_instance

theorem EndAt.endSignature {m : Mem} {p : Word} {n offset : ℕ} (h : EndAt m p n offset) :
    EndSignature m p :=
  Option.some.inj h.signature

/-! ## The backward scan -/

theorem findEndRecord_zero (m : Mem) (zipdata : Word) :
    (findEndRecord m zipdata 0).val = if EndSignature m zipdata then some (some 0) else some none := by
  rw [findEndRecord, Reads.val_bind, readWord, Reads.val_access, Option.bind_some]
  show (if EndSignature m zipdata then _ else _ : Reads (Option ℕ)).val = _
  split_ifs <;> rfl

theorem findEndRecord_succ (m : Mem) (zipdata : Word) (k : ℕ) :
    (findEndRecord m zipdata (k + 1)).val =
      if EndSignature m (zipdata + BitVec.ofNat 32 (k + 1)) then some (some (k + 1))
      else (findEndRecord m zipdata k).val := by
  rw [findEndRecord, Reads.val_bind, readWord, Reads.val_access, Option.bind_some]
  show (if EndSignature m (zipdata + BitVec.ofNat 32 (k + 1)) then _ else _ :
    Reads (Option ℕ)).val = _
  split_ifs <;> rfl

/-- The scan from `k` down finds the last signature there is up to `k`. -/
theorem findEndRecord_eq_some {m : Mem} {zipdata : Word} {k i : ℕ} :
    (findEndRecord m zipdata k).val = some (some i) ↔
      i ≤ k ∧ EndSignature m (zipdata + BitVec.ofNat 32 i) ∧
        ∀ j, i < j → j ≤ k → ¬ EndSignature m (zipdata + BitVec.ofNat 32 j) := by
  induction k with
  | zero =>
    rw [findEndRecord_zero]
    constructor
    · intro h
      split_ifs at h with hsig
      · obtain rfl : 0 = i := by simpa using h
        exact ⟨le_rfl, by rwa [BitVec.add_zero], fun j h1 h2 => absurd h1 (by omega)⟩
      · simp at h
    · rintro ⟨hi, hsig, -⟩
      obtain rfl : i = 0 := Nat.le_zero.mp hi
      rw [BitVec.add_zero] at hsig
      rw [if_pos hsig]
  | succ k ih =>
    rw [findEndRecord_succ]
    by_cases hsig : EndSignature m (zipdata + BitVec.ofNat 32 (k + 1))
    · rw [if_pos hsig]
      constructor
      · intro h
        obtain rfl : k + 1 = i := by simpa using h
        exact ⟨le_rfl, hsig, fun j h1 h2 => absurd h1 (by omega)⟩
      · rintro ⟨hi, -, hlast⟩
        obtain rfl | hlt := Nat.eq_or_lt_of_le hi
        · rfl
        · exact absurd hsig (hlast (k + 1) hlt le_rfl)
    · rw [if_neg hsig, ih]
      constructor
      · rintro ⟨hi, hsig', hlast⟩
        refine ⟨by omega, hsig', fun j h1 h2 => ?_⟩
        obtain rfl | hlt := Nat.eq_or_lt_of_le h2
        · exact hsig
        · exact hlast j h1 (by omega)
      · rintro ⟨hi, hsig', hlast⟩
        have hne : i ≠ k + 1 := fun h => hsig (h ▸ hsig')
        exact ⟨by omega, hsig', fun j h1 h2 => hlast j h1 (by omega)⟩

/-- **What `zip_openBuffer` does with what the scan found.** -/
theorem zipOpenBuffer_val {m : Mem} (z : ZipT) {zipdata ziplen : Word} (hlen : 22 < ziplen.toNat) :
    (zipOpenBuffer m z zipdata ziplen).val =
      if 2 ^ 31 ≤ ziplen.toNat - 22 then some (.zError, z)
      else (findEndRecord m zipdata (ziplen.toNat - 22)).val.bind fun o =>
        match o with
        | none => some (.zError, z)
        | some i =>
          let er := zipdata + BitVec.ofNat 32 i
          if load16 m (er + 4) ≠ 0 ∨ load16 m (er + 6) ≠ 0 ∨
              load16 m (er + 10) ≠ load16 m (er + 8) then some (.zError, z)
          else some (.zOk, ⟨zipdata, ziplen, er, 0⟩) := by
  have h22 : sizeofEndRecord.toNat = 22 := rfl
  have hgt : ¬ ziplen ≤ sizeofEndRecord := by
    rw [BitVec.le_def, h22]
    omega
  have hi : (ziplen - sizeofEndRecord).toNat = ziplen.toNat - 22 := by
    rw [BitVec.toNat_sub_of_le (BitVec.le_of_lt (BitVec.not_le.mp hgt)), h22]
  have hsigned : (ziplen - sizeofEndRecord).toInt < 0 ↔ 2 ^ 31 ≤ ziplen.toNat - 22 := by
    have := ziplen.isLt
    rw [BitVec.toInt_eq_toNat_cond, hi]
    split_ifs <;> omega
  rw [zipOpenBuffer, if_neg hgt]
  by_cases hbig : 2 ^ 31 ≤ ziplen.toNat - 22
  · rw [if_pos (hsigned.mpr hbig), if_pos hbig]
    rfl
  rw [if_neg fun h => hbig (hsigned.mp h), if_neg hbig, Reads.val_bind, hi]
  congr 1
  funext o
  cases o with
  | none => rfl
  | some i =>
    simp only [Reads.val_bind, readHalf, Reads.val_access, Option.bind_some]
    split_ifs <;> rfl

theorem findEndRecord_returns (m : Mem) (zipdata : Word) (k : ℕ) :
    ∃ o, (findEndRecord m zipdata k).val = some o := by
  induction k with
  | zero =>
    rw [findEndRecord_zero]
    split_ifs
    · exact ⟨_, rfl⟩
    · exact ⟨_, rfl⟩
  | succ k ih =>
    rw [findEndRecord_succ]
    split_ifs
    · exact ⟨_, rfl⟩
    · exact ih

theorem zipOpenBuffer_returns (m : Mem) (z : ZipT) (zipdata ziplen : Word) :
    ∃ r, (zipOpenBuffer m z zipdata ziplen).val = some r := by
  by_cases hlen : 22 < ziplen.toNat
  · obtain ⟨o, ho⟩ := findEndRecord_returns m zipdata (ziplen.toNat - 22)
    rw [zipOpenBuffer_val z hlen, ho, Option.bind_some]
    cases o with
    | none =>
      split_ifs
      · exact ⟨_, rfl⟩
      · exact ⟨_, rfl⟩
    | some i =>
      dsimp only
      split_ifs
      · exact ⟨_, rfl⟩
      · exact ⟨_, rfl⟩
      · exact ⟨_, rfl⟩
  · have hle : ziplen ≤ sizeofEndRecord := by
      rw [BitVec.le_def, show sizeofEndRecord.toNat = 22 from rfl]
      omega
    exact ⟨_, by rw [zipOpenBuffer, if_pos hle]; rfl⟩

/-- A handle that could not be opened is left as it was. -/
theorem zipOpenBuffer_error {m : Mem} {z z' : ZipT} {zipdata ziplen : Word}
    (h : (zipOpenBuffer m z zipdata ziplen).val = some (.zError, z')) : z' = z := by
  by_cases hlen : 22 < ziplen.toNat
  · rw [zipOpenBuffer_val z hlen] at h
    split_ifs at h with hbig
    · simpa using h.symm
    obtain ⟨o, -, ho⟩ := Option.bind_eq_some_iff.mp h
    cases o with
    | none => simpa using ho.symm
    | some i =>
      simp only at ho
      split_ifs at ho
      · simpa using ho.symm
      · simp at ho
  · have hle : ziplen ≤ sizeofEndRecord := by
      rw [BitVec.le_def, show sizeofEndRecord.toNat = 22 from rfl]
      omega
    rw [zipOpenBuffer, if_pos hle] at h
    simpa using h.symm

/-! ## An archive with a comment -/

section Archive

variable {m : Mem} {p : Word} {ps : List (ZipEntry × ℕ)} {dir er : ℕ} {comment : List Byte}
  (ha : ArchiveAt m p ps dir er comment)

include ha

/-- What `zip_openBuffer` does with the archive's own end record. -/
theorem ArchiveAt.zipOpenBuffer_own (z : ZipT) (hne : ps ≠ []) (hlt : er + comment.length < 2 ^ 31)
    (hno : ∀ k, 1 ≤ k → k ≤ comment.length → ¬ EndSignature m (p + BitVec.ofNat 32 (er + k))) :
    (zipOpenBuffer m z p (BitVec.ofNat 32 (er + 22 + comment.length))).val =
      some (.zOk, opened p er (er + 22 + comment.length)) := by
  have hdir := ha.lt_dir hne
  have hle := ha.central_le
  have hscan : (findEndRecord m p (er + comment.length)).val = some (some er) :=
    findEndRecord_eq_some.mpr ⟨by omega, ha.endAt.endSignature, fun j h1 h2 => by
      rw [show j = er + (j - er) by omega]
      exact hno (j - er) (by omega) (by omega)⟩
  rw [zipOpenBuffer_val z (by rw [ha.len_toNat]; omega), ha.len_toNat, if_neg (by omega),
    show er + 22 + comment.length - 22 = er + comment.length by omega, hscan, Option.bind_some]
  simp only [ha.endAt.diskNumber, ha.endAt.centralDirectoryDiskNumber, ha.endAt.numEntriesThisDisk,
    ne_eq, not_true_eq_false, or_self, if_false]
  rfl

/-- **Opening an archive with a comment.** `zip_openBuffer` over exactly the
    archive returns `Z_OK` with the archive's end record, its number of entries
    and the offset of its directory, if and only if the offset of the last place
    it looks at is not negative as a `long` and no end signature stands at a
    place behind the end record where an end record would fit. When it returns
    `Z_ERROR`, on whatever buffer, the `zip_t` is as it was. -/
theorem zipOpenBuffer_selects_iff (hne : ps ≠ []) (z₀ : ZipT) :
    ((∃ z, (zipOpenBuffer m z₀ p (BitVec.ofNat 32 (er + 22 + comment.length))).val =
          some (.zOk, z) ∧ z.er = p + BitVec.ofNat 32 er ∧
        (zipNumEntries m z).val = some (BitVec.ofNat 32 ps.length) ∧
        (nextOffset m z).val = some (BitVec.ofNat 32 dir)) ↔
      er + comment.length < 2 ^ 31 ∧
        ∀ k, 1 ≤ k → k ≤ comment.length → ¬ EndSignature m (p + BitVec.ofNat 32 (er + k))) ∧
    ∀ (m' : Mem) (z z' : ZipT) (zipdata ziplen : Word),
      (zipOpenBuffer m' z zipdata ziplen).val = some (.zError, z') → z' = z := by
  refine ⟨⟨?_, ?_⟩, fun m' z z' zipdata ziplen h => zipOpenBuffer_error h⟩
  · rintro ⟨z, hval, her, -, -⟩
    have hdir := ha.lt_dir hne
    have hle := ha.central_le
    have hlt := ha.length_lt
    rw [zipOpenBuffer_val z₀ (by rw [ha.len_toNat]; omega), ha.len_toNat,
      show er + 22 + comment.length - 22 = er + comment.length by omega] at hval
    split_ifs at hval with hbig
    · simp at hval
    refine ⟨by omega, ?_⟩
    obtain ⟨o, hscan, ho⟩ := Option.bind_eq_some_iff.mp hval
    cases o with
    | none => simp at ho
    | some i =>
      simp only at ho
      split_ifs at ho
      · simp at ho
      obtain rfl : (⟨p, _, p + BitVec.ofNat 32 i, 0⟩ : ZipT) = z := by simpa using ho
      obtain ⟨hi, -, hlast⟩ := findEndRecord_eq_some.mp hscan
      have hier : i = er := by
        have h1 := congrArg BitVec.toNat (BitVec.add_right_inj p |>.mp her)
        rwa [BitVec.toNat_ofNat, BitVec.toNat_ofNat, Nat.mod_eq_of_lt (by omega),
          Nat.mod_eq_of_lt (by omega)] at h1
      exact fun k h1 h2 => hlast (er + k) (by omega) (by omega)
  · rintro ⟨hlt, hno⟩
    refine ⟨_, ha.zipOpenBuffer_own z₀ hne hlt hno, rfl, ha.endAt.numEntries, ?_⟩
    show (readLe32 m (p + BitVec.ofNat 32 er + 16)).val = _
    exact ha.endAt.centralDirectoryOffset

end Archive

/-! ## The forward scan -/

theorem findLenLoop_succ (m : Mem) (n : ℕ) (zipdata i : Word) :
    (findLenLoop m (n + 1) zipdata i).val =
      if EndSignature m zipdata then some (i + sizeofEndRecord)
      else (findLenLoop m n (zipdata + 1) (i + 1)).val := by
  rw [findLenLoop, Reads.val_bind, readWord, Reads.val_access, Option.bind_some]
  show (if EndSignature m zipdata then _ else _ : Reads Word).val = _
  split_ifs <;> rfl

theorem findLenLoop_returns (m : Mem) (n : ℕ) (zipdata i : Word) :
    ∃ len, (findLenLoop m n zipdata i).val = some len := by
  induction n generalizing zipdata i with
  | zero => exact ⟨0, rfl⟩
  | succ n ih =>
    rw [findLenLoop_succ]
    split_ifs
    · exact ⟨_, rfl⟩
    · exact ih _ _

theorem zipFindLen_returns (m : Mem) (zipdata maxlen : Word) :
    ∃ len, (zipFindLen m zipdata maxlen).val = some len := by
  unfold zipFindLen
  split_ifs
  · exact ⟨0, rfl⟩
  · rw [Reads.val_bind, readWord, Reads.val_access, Option.bind_some]
    split_ifs
    · exact ⟨0, rfl⟩
    · exact findLenLoop_returns ..

/-- The scan from index `i` finds the first signature below `i + n`. -/
theorem findLenLoop_eq {m : Mem} {zipdata i : Word} {n k : ℕ} (hk : k < n)
    (hsig : EndSignature m (zipdata + BitVec.ofNat 32 k))
    (hfirst : ∀ j < k, ¬ EndSignature m (zipdata + BitVec.ofNat 32 j)) :
    (findLenLoop m n zipdata i).val = some (i + BitVec.ofNat 32 k + sizeofEndRecord) := by
  induction k generalizing n zipdata i with
  | zero =>
    obtain ⟨n, rfl⟩ := Nat.exists_eq_succ_of_ne_zero (by omega : n ≠ 0)
    rw [BitVec.add_zero] at hsig ⊢
    rw [findLenLoop_succ, if_pos hsig]
  | succ k ih =>
    obtain ⟨n, rfl⟩ := Nat.exists_eq_succ_of_ne_zero (by omega : n ≠ 0)
    have hmove : ∀ j : ℕ, zipdata + 1 + BitVec.ofNat 32 j = zipdata + BitVec.ofNat 32 (j + 1) := by
      intro j
      rw [ofNat_succ, BitVec.add_assoc, BitVec.add_comm 1]
    have h0 := hfirst 0 (by omega)
    rw [BitVec.add_zero] at h0
    rw [findLenLoop_succ, if_neg h0, ih (by omega) (by rwa [hmove]) (fun j hj => by rw [hmove]; exact hfirst (j + 1) (by omega)),
      ofNat_succ, BitVec.add_assoc i 1, BitVec.add_comm 1]

/-- The end signatures `zip_findLen` may meet before the end record at `er`. -/
def NoEarlierEnd (m : Mem) (p : Word) (er : ℕ) : Prop :=
  ∀ i, 30 ≤ i → i < er → ¬ EndSignature m (p + BitVec.ofNat 32 i)

/-- **The length that is discovered** for an archive without a comment that fits
    below `maxlen`: the scan returns it if and only if the buffer starts with a
    local header and no end signature stands between that and the end record.
    Otherwise a smaller one is returned. -/
theorem zipFindLen_eq {m : Mem} {p : Word} {ps : List (ZipEntry × ℕ)} {dir er : ℕ}
    (ha : ArchiveAt m p ps dir er []) (hne : ps ≠ []) (hp : p ≠ 0) {maxlen : Word}
    (hmax : er + 22 ≤ maxlen.toNat) :
    (zipFindLen m p maxlen).val = some (BitVec.ofNat 32 (er + 22)) ↔
      load32 m p = 0x504B0304 ∧ NoEarlierEnd m p er := by
  have hdir := ha.lt_dir hne
  have hle := ha.central_le
  have hlt := ha.length_lt
  rw [List.length_nil, Nat.add_zero] at hlt
  have h30 : sizeofLocalFileHeader = BitVec.ofNat 32 30 := rfl
  have hplace : ∀ j, p + sizeofLocalFileHeader + BitVec.ofNat 32 j = p + BitVec.ofNat 32 (30 + j) :=
    fun j => add_ofNat_add p 30 j
  -- what the scan returns if its first signature is at `i`
  have hscan : ∀ i, 30 ≤ i → i ≤ er → EndSignature m (p + BitVec.ofNat 32 i) →
      (∀ j, 30 ≤ j → j < i → ¬ EndSignature m (p + BitVec.ofNat 32 j)) →
      (findLenLoop m (maxlen.toNat - sizeofLocalFileHeader.toNat) (p + sizeofLocalFileHeader)
        sizeofLocalFileHeader).val = some (BitVec.ofNat 32 (i + 22)) := by
    intro i h1 h2 hsig hfirst
    have hval : sizeofLocalFileHeader + BitVec.ofNat 32 (i - 30) + sizeofEndRecord =
        BitVec.ofNat 32 (i + 22) := by
      rw [h30, show sizeofEndRecord = BitVec.ofNat 32 22 from rfl, ← BitVec.ofNat_add,
        ← BitVec.ofNat_add, show 30 + (i - 30) + 22 = i + 22 by omega]
    rw [← hval]
    apply findLenLoop_eq
    · rw [show sizeofLocalFileHeader.toNat = 30 from rfl]
      omega
    · rwa [hplace, show 30 + (i - 30) = i by omega]
    · intro j hj
      rw [hplace]
      exact hfirst (30 + j) (by omega) (by omega)
  unfold zipFindLen
  rw [if_neg hp, Reads.val_bind, readWord, Reads.val_access, Option.bind_some]
  by_cases hsig : load32 m p = 0x504B0304
  swap
  · rw [if_pos hsig, Reads.val_pure]
    refine iff_of_false (fun h => ?_) fun h => hsig h.1
    have h1 := congrArg BitVec.toNat (Option.some.inj h)
    rw [BitVec.toNat_ofNat, Nat.mod_eq_of_lt hlt] at h1
    simp at h1
  rw [if_neg (not_not.mpr hsig), and_iff_right hsig]
  constructor
  · intro h i h1 h2 hend
    -- the first signature, at `i` or before, would have ended the scan
    have hex : ∃ j, 30 ≤ j ∧ EndSignature m (p + BitVec.ofNat 32 j) := ⟨i, h1, hend⟩
    classical
    obtain ⟨hj1, hj2⟩ := Nat.find_spec hex
    have hji : Nat.find hex ≤ i := Nat.find_min' hex ⟨h1, hend⟩
    rw [hscan _ hj1 (by omega) hj2 fun j h3 h4 h5 => Nat.find_min hex h4 ⟨h3, h5⟩] at h
    have h6 := congrArg BitVec.toNat (Option.some.inj h)
    rw [BitVec.toNat_ofNat, BitVec.toNat_ofNat, Nat.mod_eq_of_lt (by omega),
      Nat.mod_eq_of_lt (by omega)] at h6
    omega
  · intro hno
    exact hscan er (by omega) le_rfl ha.endAt.endSignature hno

/-! ## A comment that is an end record -/

/-- An end record without entries, as a comment. -/
def endComment : List Byte := [0x50, 0x4b, 5, 6] ++ List.replicate 18 0

/-- The archive of `storedEntry` with that comment opens at the comment, and so
    without entries. -/
theorem endComment_selected :
    ArchiveAt (memOf 0x1000 (archive [storedEntry] endComment)) 0x1000 (placed 0 [storedEntry]) 34 83
        endComment ∧
      ∃ z, (zipOpenBuffer (memOf 0x1000 (archive [storedEntry] endComment)) ⟨0, 0, 0, 0⟩ 0x1000
          (BitVec.ofNat 32 (83 + 22 + endComment.length))).val = some (.zOk, z) ∧
        z.er ≠ 0x1000 + BitVec.ofNat 32 83 ∧
        (zipNumEntries (memOf 0x1000 (archive [storedEntry] endComment)) z).val = some 0 :=
  ⟨archiveAt_memOf 0x1000 (by decide) (by decide) (by decide +kernel) (by decide +kernel),
    ⟨0x1000, 127, 0x1069, 0⟩, by decide +kernel, by decide, by decide +kernel⟩

/-- With another comment the archive opens at its own end record. -/
theorem otherComment_selected :
    ∃ z, (zipOpenBuffer (memOf 0x1000 (archive [storedEntry] [0x21])) ⟨0, 0, 0, 0⟩ 0x1000
        (BitVec.ofNat 32 (83 + 22 + [(0x21 : Byte)].length))).val = some (.zOk, z) ∧
      z.er = 0x1000 + BitVec.ofNat 32 83 ∧
      (zipNumEntries (memOf 0x1000 (archive [storedEntry] [0x21])) z).val =
        some (BitVec.ofNat 32 (placed 0 [storedEntry]).length) ∧
      (nextOffset (memOf 0x1000 (archive [storedEntry] [0x21])) z).val = some (BitVec.ofNat 32 34) := by
  have ha : ArchiveAt (memOf 0x1000 (archive [storedEntry] [0x21])) 0x1000 (placed 0 [storedEntry])
      34 83 [0x21] :=
    archiveAt_memOf 0x1000 (by decide) (by decide) (by decide +kernel) (by decide +kernel)
  refine (zipOpenBuffer_selects_iff ha (by simp [placed]) ⟨0, 0, 0, 0⟩).1.mpr
    ⟨by decide, fun k h1 h2 => ?_⟩
  obtain rfl : k = 1 := le_antisymm h2 h1
  decide +kernel

end BBoot.Zip
