import BBoot.Boot.Zipkick
import BBoot.Zip.EndRecord

/-!
# Discovering the length of the archive

Without a length `boot_aos_zipkick` asks `zip_findLen` for an approximate one,
which is that of the first end record.

Results:
* `bootAosZipkick_discovered`: a run with the length that is discovered is the run
  with that length.
* `zipFindLen_archive_iff`: which archives it is the true length of.
-/

namespace BBoot.Boot

open Zip

/-- A run without a length is the run with the length `zip_findLen` returns, up to
    the reads of the scan. -/
theorem bootAosZipkick_discovered {b : Brd} {puff : Puff} {fuel : ℕ} {zipdata ziplen : Word}
    {config : ℤ} {s : Machine} (hlen : (zipFindLen s.mem zipdata 0x1000000).val = some ziplen)
    (hne : ziplen ≠ 0) :
    (bootAosZipkick b puff fuel zipdata 0 config s).val =
        (bootAosZipkick b puff fuel zipdata ziplen config s).val ∧
      (bootAosZipkick b puff fuel zipdata 0 config s).state =
        (bootAosZipkick b puff fuel zipdata ziplen config s).state ∧
      (bootAosZipkick b puff fuel zipdata 0 config s).log.tail =
        (bootAosZipkick b puff fuel zipdata ziplen config s).log.tail := by
  have hscan : onZip (fun m _ => archiveLen m zipdata 0) s =
      ⟨some ziplen, s, [.read (zipFindLen s.mem zipdata 0x1000000).log]⟩ := by
    have h0 : archiveLen s.mem zipdata 0 = zipFindLen s.mem zipdata 0x1000000 := if_pos rfl
    show (⟨(archiveLen s.mem zipdata 0).val, s, [.read (archiveLen s.mem zipdata 0).log]⟩ :
      Outcome Machine Event Word) = _
    rw [h0, hlen]
  have hgiven : onZip (fun m _ => archiveLen m zipdata ziplen) s = ⟨some ziplen, s, [.read []]⟩ := by
    have h0 : archiveLen s.mem zipdata ziplen = pure ziplen := if_neg hne
    show (⟨(archiveLen s.mem zipdata ziplen).val, s, [.read (archiveLen s.mem zipdata ziplen).log]⟩ :
      Outcome Machine Event Word) = _
    rw [h0]
    rfl
  unfold bootAosZipkick
  rw [Traced.bind_run_some hscan, Traced.bind_run_some hgiven]
  exact ⟨rfl, rfl, rfl⟩

/-- **The length that is discovered** for an archive without a comment that fits
    below `maxlen` is its own if and only if it starts with a local header and no
    end signature stands between that and its end record; then
    `boot_aos_zipkick` without a length does what it does with the true one. -/
theorem zipFindLen_archive_iff {m : Mem} {p : Word} {ps : List (ZipEntry × ℕ)} {dir er : ℕ}
    (ha : ArchiveAt m p ps dir er []) (hne : ps ≠ []) (hp : p ≠ 0) {maxlen : Word}
    (hmax : er + 22 ≤ maxlen.toNat) :
    ((zipFindLen m p maxlen).val = some (BitVec.ofNat 32 (er + 22)) ↔
      load32 m p = 0x504B0304 ∧ NoEarlierEnd m p er) ∧
    (er + 22 ≤ 0x1000000 → load32 m p = 0x504B0304 → NoEarlierEnd m p er →
      ∀ (b : Brd) (puff : Puff) (fuel : ℕ) (config : ℤ) (s : Machine), s.mem = m →
        (bootAosZipkick b puff fuel p 0 config s).val =
            (bootAosZipkick b puff fuel p (BitVec.ofNat 32 (er + 22)) config s).val ∧
          (bootAosZipkick b puff fuel p 0 config s).state =
            (bootAosZipkick b puff fuel p (BitVec.ofNat 32 (er + 22)) config s).state ∧
          (bootAosZipkick b puff fuel p 0 config s).log.tail =
            (bootAosZipkick b puff fuel p (BitVec.ofNat 32 (er + 22)) config s).log.tail) := by
  refine ⟨zipFindLen_eq ha hne hp hmax, fun h16 hsig hno b puff fuel config s hs => ?_⟩
  subst hs
  have h16' : er + 22 ≤ (0x1000000 : Word).toNat := h16
  refine bootAosZipkick_discovered ((zipFindLen_eq ha hne hp h16').mpr ⟨hsig, hno⟩) fun h0 => ?_
  have hlt := ha.length_lt
  have h := congrArg BitVec.toNat h0
  rw [BitVec.toNat_ofNat, Nat.mod_eq_of_lt (by simpa using hlt)] at h
  simp at h

/-- An archive that is stored in another one. -/
def nestingEntry : ZipEntry :=
  storedFile ⟨[0x6e], by decide⟩ (archive [storedEntry] []) (by decide) (by decide)
    (by decide +kernel)

/-- The outer archive has 205 bytes; the scan ends at the end record of the inner
    one. -/
theorem nestingEntry_cut :
    ArchiveAt (memOf 0x1000 (archive [nestingEntry] [])) 0x1000 (placed 0 [nestingEntry]) 136 183
        [] ∧
      (zipFindLen (memOf 0x1000 (archive [nestingEntry] [])) 0x1000 0x1000000).val = some 136 := by
  have hlocals : (locals [nestingEntry]).length = 136 := by decide +kernel
  have hcentral : (directory (placed 0 [nestingEntry])).length = 47 := by decide +kernel
  have ha : ArchiveAt (memOf 0x1000 (archive [nestingEntry] [])) 0x1000 (placed 0 [nestingEntry])
      (locals [nestingEntry]).length
      ((locals [nestingEntry]).length + (directory (placed 0 [nestingEntry])).length) [] :=
    archiveAt_memOf 0x1000 (by decide) (by decide) (by decide +kernel) (by decide +kernel)
  rw [hcentral, hlocals] at ha
  exact ⟨ha, by decide +kernel⟩

/-- The length of the archive of `storedEntry` is discovered. -/
theorem storedEntry_discovered :
    (zipFindLen (memOf 0x1000 (archive [storedEntry] [])) 0x1000 0x1000000).val =
      some (BitVec.ofNat 32 (83 + 22)) := by
  have ha : ArchiveAt (memOf 0x1000 (archive [storedEntry] [])) 0x1000 (placed 0 [storedEntry])
      34 83 [] :=
    archiveAt_memOf 0x1000 (by decide) (by decide) (by decide +kernel) (by decide +kernel)
  refine (zipFindLen_archive_iff ha (by simp [placed]) (by decide) (by decide)).1.mpr
    ⟨by decide +kernel, ?_⟩
  have hall : ∀ i < 83, 30 ≤ i → ¬ EndSignature (memOf 0x1000 (archive [storedEntry] []))
      (0x1000 + BitVec.ofNat 32 i) := by
    decide +kernel
  exact fun i h1 h2 => hall i h2 h1

end BBoot.Boot
