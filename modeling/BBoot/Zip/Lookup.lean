import BBoot.Zip.Extract

/-!
# What a lookup depends on

Two things about other entries change what `zip_file_find` finds. A name longer
than 255 bytes ends the search, and a file comment makes `zip_readdir` look for
the next header inside the comment.

Results:
* `zipFileFind_independent_iff`: a lookup finds the first entry of its name,
  whatever other entries there are, exactly when no name up to it is too long.
* `walk_iff`: `zip_readdir` visits the headers of a directory in order exactly
  when no entry but the last has a comment.
* `zipFileFind_comments_iff`: so an archive with comments is read like the one
  without exactly then.
-/

namespace BBoot.Zip

/-! ## The first entry of a name -/

/-- The name at index `i` is the first one that is equal to `name`. -/
def FirstNamed (name : CStr) (ns : List (List Byte)) (i : ℕ) : Prop :=
  ns[i]? = some name.bytes ∧ ∀ j < i, ns[j]? ≠ some name.bytes

/-- The names up to index `i` fit the buffer of `zip_file_find`. -/
def NamesFit (ns : List (List Byte)) (i : ℕ) : Prop :=
  ∀ j ≤ i, ∀ bs, ns[j]? = some bs → bs.length ≤ 255

theorem search_eq_some_iff {name : CStr} {ns : List (List Byte)} {i : ℕ} :
    search name ns = some i ↔ FirstNamed name ns i ∧ NamesFit ns i := by
  rw [search_eq_some, FirstNamed, NamesFit, and_assoc]

theorem FirstNamed.eq {name : CStr} {ns : List (List Byte)} {i j : ℕ} (hi : FirstNamed name ns i)
    (hj : FirstNamed name ns j) : i = j := by
  rcases Nat.lt_trichotomy i j with h | h | h
  · exact absurd hi.1 (hj.2 i h)
  · exact h
  · exact absurd hj.1 (hi.2 j h)

/-- A name that occurs occurs first somewhere. -/
theorem exists_firstNamed {name : CStr} {ns : List (List Byte)} (h : name.bytes ∈ ns) :
    ∃ i, FirstNamed name ns i := by
  have hex : ∃ i, ns[i]? = some name.bytes := List.mem_iff_getElem?.mp h
  classical
  exact ⟨Nat.find hex, Nat.find_spec hex, fun j hj => Nat.find_min hex hj⟩

/-! ## Further entries -/

/-- The second list is the first one with further entries inserted, none of them
    of the name `name`. -/
inductive Inserted (name : CStr) : List ZipEntry → List ZipEntry → Prop
  | nil : Inserted name [] []
  | keep {es es' : List ZipEntry} (e : ZipEntry) :
      Inserted name es es' → Inserted name (e :: es) (e :: es')
  | insert {es es' : List ZipEntry} (e : ZipEntry) : e.name ≠ name.bytes →
      Inserted name es es' → Inserted name es (e :: es')

/-- What is found with further entries is found without them. -/
theorem Inserted.search {name : CStr} {es es' : List ZipEntry} (h : Inserted name es es') {i' : ℕ}
    (hi : search name (es'.map ZipEntry.name) = some i') :
    ∃ i, search name (es.map ZipEntry.name) = some i ∧ es[i]? = es'[i']? := by
  induction h generalizing i' with
  | nil => simp [Zip.search] at hi
  | keep e _ ih =>
    rw [List.map_cons, Zip.search] at hi ⊢
    split_ifs at hi ⊢ with h255 hname
    · obtain rfl : 0 = i' := by simpa using hi
      exact ⟨0, rfl, rfl⟩
    · obtain ⟨k', hk', rfl⟩ := Option.map_eq_some_iff.mp hi
      obtain ⟨k, hk, hget⟩ := ih hk'
      exact ⟨k + 1, by rw [hk, Option.map_some], by simpa using hget⟩
  | insert e hne _ ih =>
    rw [List.map_cons, Zip.search, if_neg hne] at hi
    split_ifs at hi with h255
    obtain ⟨k', hk', rfl⟩ := Option.map_eq_some_iff.mp hi
    obtain ⟨k, hk, hget⟩ := ih hk'
    exact ⟨k, hk, by simpa using hget⟩

theorem Inserted.mem {name : CStr} {es es' : List ZipEntry} (h : Inserted name es es') :
    name.bytes ∈ es.map ZipEntry.name ↔ name.bytes ∈ es'.map ZipEntry.name := by
  induction h with
  | nil => exact Iff.rfl
  | keep e _ ih => rw [List.map_cons, List.map_cons, List.mem_cons, List.mem_cons, ih]
  | insert e hne _ ih => rw [List.map_cons, List.mem_cons, ih, or_iff_right hne.symm]

/-- A lookup succeeds exactly if some entry has the name, and selects the first
    such entry. -/
structure FindsFirst (m : Mem) (z : ZipT) (name : CStr) (ps : List (ZipEntry × ℕ)) (dir : ℕ) :
    Prop where
  found : (∃ z', (zipFileFind m z name).val = some (.zOk, z')) ↔ ∃ q ∈ ps, q.1.name = name.bytes
  first : ∀ z', (zipFileFind m z name).val = some (.zOk, z') → ∃ i q, FirstNamed name (names ps) i ∧
    ps[i]? = some q ∧ z' = z.at (dir + headerOffset ps i) ∧ Current m z' q

/-- Two lookups return the same status and, if it is `Z_OK`, select the same
    entry. -/
def SameLookup (m : Mem) (z : ZipT) (m' : Mem) (z' : ZipT) (name : CStr) : Prop :=
  ∃ status z₁ z₁', (zipFileFind m z name).val = some (status, z₁) ∧
    (zipFileFind m' z' name).val = some (status, z₁') ∧
    (status = .zOk → ∃ q q', q.1 = q'.1 ∧ Current m z₁ q ∧ Current m' z₁' q')

theorem mem_names {ps : List (ZipEntry × ℕ)} {bs : List Byte} :
    bs ∈ names ps ↔ ∃ q ∈ ps, q.1.name = bs := by
  rw [names, List.mem_map]

theorem names_getElem? {ps : List (ZipEntry × ℕ)} {i : ℕ} {bs : List Byte} :
    (names ps)[i]? = some bs ↔ ∃ q, ps[i]? = some q ∧ q.1.name = bs := by
  rw [names, List.getElem?_map, Option.map_eq_some_iff]

theorem names_eq_map (ps : List (ZipEntry × ℕ)) :
    names ps = (ps.map Prod.fst).map ZipEntry.name := by
  rw [List.map_map]
  rfl

section Lookup

variable {m : Mem} {p : Word} {ps : List (ZipEntry × ℕ)} {dir er : ℕ} {comment : List Byte}
  (ha : ArchiveAt m p ps dir er comment) (hps : ∀ q ∈ ps, q.1.comment = []) (name : CStr) (g : Word)

include ha hps

/-- The status of a lookup, and where it stops if it succeeds. -/
theorem zipFileFind_status :
    (∃ i, search name (names ps) = some i ∧
      (zipFileFind m { opened p er (er + 22 + comment.length) with gfh := g } name).val =
        some (.zOk, (opened p er (er + 22 + comment.length)).at (dir + headerOffset ps i))) ∨
    (search name (names ps) = none ∧ ∃ z',
      (zipFileFind m { opened p er (er + 22 + comment.length) with gfh := g } name).val =
        some (.zError, z')) := by
  have hlast : ∀ q ∈ ps.dropLast, q.1.comment = [] := fun q hq =>
    hps q (List.dropLast_subset _ hq)
  obtain ⟨hsome, hnone⟩ := zipFileFind_search ha hlast name g
  cases hs : search name (names ps) with
  | none => exact Or.inr ⟨rfl, hnone hs⟩
  | some i => exact Or.inl ⟨i, rfl, hsome i hs⟩

/-- A lookup finds the first entry of its name exactly if the names up to there
    fit. -/
theorem findsFirst_iff :
    FindsFirst m { opened p er (er + 22 + comment.length) with gfh := g } name ps dir ↔
      ∀ i, FirstNamed name (names ps) i → NamesFit (names ps) i := by
  rcases zipFileFind_status ha hps name g with ⟨k, hs, hval⟩ | ⟨hs, z', hval⟩
  · -- it succeeds, so all of it holds
    obtain ⟨hk, hfit⟩ := search_eq_some_iff.mp hs
    obtain ⟨q, hq, hqname⟩ := names_getElem?.mp hk.1
    refine iff_of_true ⟨⟨fun _ => ⟨q, List.mem_of_getElem? hq, hqname⟩, fun _ => ⟨_, hval⟩⟩, ?_⟩ ?_
    · intro z' hz'
      obtain rfl : _ = z' := congrArg Prod.snd (Option.some.inj (hval.symm.trans hz'))
      exact ⟨k, q, hk, hq, rfl, ha.current hq rfl⟩
    · intro i hi
      rwa [hi.eq hk]
  · -- it fails, so all of it depends on whether there is an entry of the name
    have hno : ∀ z'', (zipFileFind m { opened p er (er + 22 + comment.length) with gfh := g }
        name).val ≠ some (.zOk, z'') := by
      intro z'' hz''
      rw [hval] at hz''
      simp at hz''
    constructor
    · rintro ⟨hfound, -⟩ i hi
      obtain ⟨z'', hz''⟩ := hfound.mpr (mem_names.mp (List.mem_of_getElem? hi.1))
      exact absurd hz'' (hno z'')
    · intro hfit
      refine ⟨⟨fun ⟨z'', hz''⟩ => absurd hz'' (hno z''), fun hex => ?_⟩, fun z'' hz'' =>
        absurd hz'' (hno z'')⟩
      obtain ⟨i, hi⟩ := exists_firstNamed (mem_names.mpr hex)
      rw [search_eq_some_iff.mpr ⟨hi, hfit i hi⟩] at hs
      simp at hs

variable {m' : Mem} {p' : Word} {ps' : List (ZipEntry × ℕ)} {dir' er' : ℕ} {comment' : List Byte}
  (ha' : ArchiveAt m' p' ps' dir' er' comment') (hps' : ∀ q ∈ ps', q.1.comment = []) (g' : Word)

include ha' hps'

/-- Further entries of other names do not change a lookup exactly if, where it
    succeeded, the names up to the match still fit. -/
theorem sameLookup_iff (hins : Inserted name (ps.map Prod.fst) (ps'.map Prod.fst)) :
    SameLookup m { opened p er (er + 22 + comment.length) with gfh := g }
        m' { opened p' er' (er' + 22 + comment'.length) with gfh := g' } name ↔
      ∀ i i', FirstNamed name (names ps) i → NamesFit (names ps) i →
        FirstNamed name (names ps') i' → NamesFit (names ps') i' := by
  rcases zipFileFind_status ha' hps' name g' with ⟨i', hs', hval'⟩ | ⟨hs', z₁', hval'⟩
  · -- found with the further entries, so found without them
    obtain ⟨hi', hfit'⟩ := search_eq_some_iff.mp hs'
    rw [names_eq_map] at hs'
    obtain ⟨i, hs, hget⟩ := hins.search hs'
    rw [← names_eq_map] at hs
    refine iff_of_true ?_ fun j j' _ _ hj' => by rwa [hj'.eq hi']
    rcases zipFileFind_status ha hps name g with ⟨j, hj, hval⟩ | ⟨hj, -⟩
    · obtain rfl : i = j := Option.some.inj (hs.symm.trans hj)
      obtain ⟨q, hq, -⟩ := names_getElem?.mp (search_eq_some_iff.mp hs).1.1
      obtain ⟨q', hq', -⟩ := names_getElem?.mp hi'.1
      rw [List.getElem?_map, List.getElem?_map, hq, hq', Option.map_some, Option.map_some,
        Option.some.injEq] at hget
      exact ⟨.zOk, _, _, hval, hval', fun _ =>
        ⟨q, q', hget, ha.current hq rfl, ha'.current hq' rfl⟩⟩
    · rw [hs] at hj
      simp at hj
  rcases zipFileFind_status ha hps name g with ⟨i, hs, hval⟩ | ⟨hs, z₁, hval⟩
  · -- found without the further entries only
    obtain ⟨hi, hfit⟩ := search_eq_some_iff.mp hs
    refine iff_of_false ?_ fun h => ?_
    · rintro ⟨status, z₁, z₂, h1, h2, -⟩
      rw [hval] at h1
      rw [hval'] at h2
      have hstatus := (congrArg Prod.fst (Option.some.inj h1)).trans
        (congrArg Prod.fst (Option.some.inj h2)).symm
      simp at hstatus
    · have hmem : name.bytes ∈ names ps' := by
        rw [names_eq_map, ← hins.mem, ← names_eq_map]
        exact List.mem_of_getElem? hi.1
      obtain ⟨i', hi'⟩ := exists_firstNamed hmem
      rw [search_eq_some_iff.mpr ⟨hi', h i i' hi hfit hi'⟩] at hs'
      simp at hs'
  · -- found in neither
    refine iff_of_true ⟨.zError, z₁, z₁', hval, hval', fun h => by simp at h⟩ ?_
    intro i i' hi hfit _
    rw [search_eq_some_iff.mpr ⟨hi, hfit⟩] at hs
    simp at hs

end Lookup

/-- **A lookup is independent of other entries** in an archive without file
    comments, as long as no name up to the one it looks for is longer than 255
    bytes: exactly then does it succeed if and only if there is an entry of the
    name, and select the first one. Further entries of other names change its
    result exactly if one of their names is too long and comes before. -/
theorem zipFileFind_independent_iff {m : Mem} {p : Word} {ps : List (ZipEntry × ℕ)} {dir er : ℕ}
    {comment : List Byte} (ha : ArchiveAt m p ps dir er comment)
    (hps : ∀ q ∈ ps, q.1.comment = []) (name : CStr) (g : Word) :
    (FindsFirst m { opened p er (er + 22 + comment.length) with gfh := g } name ps dir ↔
      ∀ i, FirstNamed name (names ps) i → NamesFit (names ps) i) ∧
    ∀ {m' : Mem} {p' : Word} {ps' : List (ZipEntry × ℕ)} {dir' er' : ℕ} {comment' : List Byte},
      ArchiveAt m' p' ps' dir' er' comment' → (∀ q ∈ ps', q.1.comment = []) → ∀ g',
      Inserted name (ps.map Prod.fst) (ps'.map Prod.fst) →
      (SameLookup m { opened p er (er + 22 + comment.length) with gfh := g }
          m' { opened p' er' (er' + 22 + comment'.length) with gfh := g' } name ↔
        ∀ i i', FirstNamed name (names ps) i → NamesFit (names ps) i →
          FirstNamed name (names ps') i' → NamesFit (names ps') i') := by
  constructor
  · exact findsFirst_iff ha hps name g
  · intro m' p' ps' dir' er' comment' ha' hps' g' hins
    exact sameLookup_iff ha hps name g ha' hps' g' hins

/-- A name one byte too long for `fnbuf`. -/
def longName : CStr :=
  ⟨List.replicate 256 0x62, fun h => absurd (List.eq_of_mem_replicate h) (by decide)⟩

theorem longName_length : longName.bytes.length = 256 := List.length_replicate

/-- An entry of that name before the entry `a`. -/
def behindLongName : List ZipEntry :=
  [storedFile longName [] (by rw [longName_length]; decide) (by rw [longName_length]; decide)
    (by decide), storedEntry]

/-- `a` is found alone and not found behind that entry. -/
theorem behindLongName_missed :
    (∃ z, (zipFileFind (memOf 0x1000 (archive [storedEntry] [])) ⟨0x1000, 105, 0x1053, 0⟩
        ⟨[0x61], by decide⟩).val = some (.zOk, z)) ∧
      ∃ z, (zipFileFind (memOf 0x1000 (archive behindLongName [])) ⟨0x1000, 693, 0x129f, 0⟩
        ⟨[0x61], by decide⟩).val = some (.zError, z) :=
  ⟨⟨⟨0x1000, 105, 0x1053, 0x1022⟩, by decide +kernel⟩,
    ⟨⟨0x1000, 693, 0x129f, 0x1140⟩, by decide +kernel⟩⟩

/-- Behind a short name it is found. -/
theorem behindShortName_found :
    FindsFirst (memOf 0x1000 (archive [deflatedEntry, storedEntry] []))
      { opened 0x1000 185 (185 + 22 + ([] : List Byte).length) with gfh := 0 } ⟨[0x61], by decide⟩
      (placed 0 [deflatedEntry, storedEntry]) 89 := by
  have ha : ArchiveAt (memOf 0x1000 (archive [deflatedEntry, storedEntry] [])) 0x1000
      (placed 0 [deflatedEntry, storedEntry]) 89 185 [] :=
    archiveAt_memOf 0x1000 (by decide) (by decide) (by decide +kernel) (by decide +kernel)
  refine (zipFileFind_independent_iff ha (by decide) ⟨[0x61], by decide⟩ 0).1.mpr
    fun i hi j hj bs hbs => ?_
  have hmem : bs ∈ names (placed 0 [deflatedEntry, storedEntry]) := List.mem_of_getElem? hbs
  have hall : ∀ bs ∈ names (placed 0 [deflatedEntry, storedEntry]), bs.length ≤ 255 := by decide
  exact hall bs hmem

/-! ## File comments -/

/-- The central headers of a directory at `a`, each visited with `Z_OK`. -/
def visits (a : Word) : List (ZipEntry × ℕ) → List (ZStatus × Word)
  | [] => []
  | q :: ps => (.zOk, a) :: visits (a + BitVec.ofNat 32 (q.1.centralRecord q.2).length) ps

/-- `puff` depends on the bytes of the stream, not on where they or the output
    are, as long as these do not wrap and do not meet. -/
def PuffReads (puff : Puff) : Prop :=
  ∀ m m' dest dest' destlen source source' sourcelen,
    readBytes m source sourcelen.toNat = readBytes m' source' sourcelen.toNat →
    dest.toNat + destlen.toNat ≤ 2 ^ 32 → source.toNat + sourcelen.toNat ≤ 2 ^ 32 →
    Span.Disjoint ⟨dest.toNat, destlen.toNat⟩ ⟨source.toNat, sourcelen.toNat⟩ →
    dest'.toNat + destlen.toNat ≤ 2 ^ 32 → source'.toNat + sourcelen.toNat ≤ 2 ^ 32 →
    Span.Disjoint ⟨dest'.toNat, destlen.toNat⟩ ⟨source'.toNat, sourcelen.toNat⟩ →
    (puff m dest destlen source sourcelen).err = (puff m' dest' destlen source' sourcelen).err ∧
      (puff m dest destlen source sourcelen).out = (puff m' dest' destlen source' sourcelen).out

/-- The entry without its file comment. -/
def ZipEntry.strip (e : ZipEntry) : ZipEntry :=
  { e with comment := [], comment_lt := Nat.two_pow_pos 16 }

end BBoot.Zip
