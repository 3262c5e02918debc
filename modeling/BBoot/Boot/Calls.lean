import BBoot.Boot.Modules
import BBoot.Zip.Extract

/-!
# The calls of the loader

What each call of a run does to the machine, and to what is known of it: `Tracks`
says that all that was written is inside the ranges stored to, that only these
differ from the memory at the start, and that the handle is the one that was opened.

Results:
* `zipFind_run`, `zipExtract_run`: the zip functions as calls of the loader.
* `zipExtract_tracks`: an extraction stays inside the range it is made for.
-/

namespace BBoot.Boot

open Zip

/-! ## The calls -/

theorem onMem_run {α : Type} {x : MemM α} {s : Machine} {a : Option α} {m : Mem} {log : List Access}
    (h : x s.mem = ⟨a, m, log⟩) : onMem x s = ⟨a, { s with mem := m }, log.map Event.write⟩ := by
  unfold onMem
  rw [h]

theorem onZip_run {α : Type} {f : Mem → ZipT → Reads α} {s : Machine} {a : α}
    (h : (f s.mem s.z).val = some a) : onZip f s = ⟨some a, s, [.read (f s.mem s.z).log]⟩ := by
  unfold onZip
  rw [h]

theorem claim_run (b : Brd) (r : Request) (addr : Word) (s : Machine) :
    claim b r addr s = ⟨some (b.claim s.claims addr r.size), { s with claims := s.claims + 1 },
      [.claim r addr (b.claim s.claims addr r.size)]⟩ := rfl

theorem storeIf_run (r : Request) (addr : Word) (s : Machine) :
    storeIf true r addr s = ⟨some (), s, [.store r addr]⟩ := rfl

theorem zipFind_run (name : CStr) (s : Machine) :
    ∃ status g, (zipFileFind s.mem s.z name).val = some (status, { s.z with gfh := g }) ∧
      zipFind name s = ⟨some status, { s with z := { s.z with gfh := g } },
        [.read (zipFileFind s.mem s.z name).log]⟩ := by
  obtain ⟨status, g, hfind⟩ := zipFileFind_frame s.mem s.z name
  refine ⟨status, g, hfind, ?_⟩
  have hrun := onZip_run (f := fun m z => zipFileFind m z name) hfind
  unfold zipFind
  rw [Traced.bind_run_some hrun]
  rfl

theorem uncompressedSize_run (s : Machine) :
    onZip zipFileUncompressedSize s = ⟨some (field32 s.mem (s.z.gfh + 24)), s,
      [.read (zipFileUncompressedSize s.mem s.z).log]⟩ :=
  onZip_run rfl

theorem zipExtract_run (puff : Puff) (r : Request) (buffer : Word) (s : Machine) {x : Extracted}
    (h : (zipFileExtract puff s.mem s.z buffer).val = some x) :
    zipExtract puff r buffer s =
      ⟨some x.status, { s with mem := writeBytes s.mem buffer x.out },
        .extract (zipFileExtract puff s.mem s.z buffer).log (some x) ::
          ((if starts x = true then [.store r buffer] else []) ++
            [.write ⟨buffer, x.out.length⟩])⟩ := by
  have hx : onExtract puff buffer s = ⟨some x, s,
      [.extract (zipFileExtract puff s.mem s.z buffer).log (some x)]⟩ := by
    unfold onExtract
    rw [h]
  unfold zipExtract
  rw [Traced.bind_run_some hx]
  cases hs : starts x
  · rfl
  · rfl

theorem zipFileExtract_returns (puff : Puff) (m : Mem) (z : ZipT) (buffer : Word) :
    ∃ x, (zipFileExtract puff m z buffer).val = some x := by
  by_cases hnone : z.gfh = 0 ∨ buffer = 0
  · exact ⟨_, zipFileExtract_missing hnone⟩
  · obtain ⟨hgfh, hbuffer⟩ := not_or.mp hnone
    exact ⟨_, zipFileExtract_val hgfh hbuffer⟩

/-- `puff` writes no more than there is room for. -/
def PuffBounded (puff : Puff) : Prop :=
  ∀ m dest destlen source sourcelen, (puff m dest destlen source sourcelen).out.length ≤ destlen.toNat

theorem puffStored_bounded : PuffBounded puffStored := by
  intro m dest destlen source sourcelen
  unfold puffStored
  split
  · split_ifs with hroom
    · exact hroom
    · exact Nat.zero_le _
  · exact Nat.zero_le _

/-- An extraction writes no more than the declared size. -/
theorem zipFileExtract_length {puff : Puff} (hpuff : PuffBounded puff) {m : Mem} {z : ZipT}
    {buffer : Word} {x : Extracted} (h : (zipFileExtract puff m z buffer).val = some x) :
    x.out.length ≤ (field32 m (z.gfh + 24)).toNat := by
  by_cases hnone : z.gfh = 0 ∨ buffer = 0
  · rw [zipFileExtract_missing hnone, Option.some.injEq] at h
    rw [← h]
    exact Nat.zero_le _
  obtain ⟨hgfh, hbuffer⟩ := not_or.mp hnone
  rw [zipFileExtract_val hgfh hbuffer, Option.some.injEq] at h
  rw [← h]
  dsimp only
  split_ifs
  · exact Nat.zero_le _
  · exact Nat.zero_le _
  · rw [readBytes_length]
  · exact hpuff ..
  · exact hpuff ..
  · exact Nat.zero_le _

/-! ## What is known of a run -/

/-- After the events `log` of a run that started with the memory `m₀` and opened the
    archive as `z₀`. -/
structure Tracks (m₀ : Mem) (z₀ : ZipT) (s : Machine) (log : List Event) : Prop where
  writes : WritesInside log
  zip : ∃ g, s.z = { z₀ with gfh := g }
  mem : SameOutside m₀ s.mem (regions log)

variable {m₀ : Mem} {z₀ : ZipT} {s : Machine} {past : List Event}

theorem Tracks.start (hz : ∃ g, s.z = { z₀ with gfh := g }) (hmem : s.mem = m₀) :
    Tracks m₀ z₀ s [] := ⟨WritesInside.nil, hz, hmem ▸ SameOutside.refl _ _⟩

/-- More events that write inside the ranges stored to. -/
theorem Tracks.append (h : Tracks m₀ z₀ s past) {s' : Machine} {log : List Event}
    (hwrites : ∀ w, .write w ∈ log → w.len ≠ 0 → w.InsideOne (regions (past ++ log)))
    (hz : ∃ g, s'.z = { s.z with gfh := g })
    (hmem : SameOutside s.mem s'.mem (regions (past ++ log))) : Tracks m₀ z₀ s' (past ++ log) where
  writes := h.writes.append hwrites
  zip := by
    obtain ⟨g, hg⟩ := h.zip
    obtain ⟨g', hg'⟩ := hz
    exact ⟨g', by rw [hg', hg]⟩
  mem := (h.mem.mono fun r hr => ⟨r, mem_regions_append hr, le_rfl, le_rfl⟩).trans hmem

/-- Events that neither store nor write. -/
theorem Tracks.silent (h : Tracks m₀ z₀ s past) {s' : Machine} {log : List Event}
    (hlog : ∀ e ∈ log, e.silent = true) (hz : ∃ g, s'.z = { s.z with gfh := g })
    (hmem : s'.mem = s.mem) : Tracks m₀ z₀ s' (past ++ log) := by
  refine h.append (fun w hw _ => absurd (hlog _ hw) Bool.false_ne_true) hz ?_
  rw [hmem]
  exact SameOutside.refl _ _

/-- One such event. -/
theorem Tracks.event (h : Tracks m₀ z₀ s past) {s' : Machine} {e : Event} (he : e.silent = true)
    (hz : ∃ g, s'.z = { s.z with gfh := g }) (hmem : s'.mem = s.mem) :
    Tracks m₀ z₀ s' (past ++ [e]) :=
  h.silent (List.forall_mem_singleton.mpr he) hz hmem

/-- A program on memory that writes inside the ranges stored to. -/
theorem Tracks.onMem (h : Tracks m₀ z₀ s past) {m : Mem} {log : List Access} {rs : List Span}
    (hlog : ∀ w ∈ log, w.len ≠ 0 → w.InsideOne rs) (hmem : SameOutside s.mem m rs)
    (hrs : ∀ r ∈ rs, ∃ r' ∈ regions past, r.Inside r') :
    Tracks m₀ z₀ { s with mem := m } (past ++ log.map Event.write) := by
  have hregions : ∀ r ∈ rs, ∃ r' ∈ regions (past ++ log.map Event.write), r.Inside r' := by
    intro r hr
    obtain ⟨r', hr', hin⟩ := hrs r hr
    exact ⟨r', mem_regions_append hr', hin⟩
  refine h.append (fun w hw hlen => ?_) ⟨_, rfl⟩ (hmem.mono hregions)
  obtain ⟨w', hw', heq⟩ := List.mem_map.mp hw
  obtain rfl := Event.write.inj heq
  exact (hlog w' hw' hlen).mono hregions

/-- A change of memory inside one range. -/
theorem sameOutside_out (m : Mem) {r : Request} {buffer : Word} {bs : List Byte}
    (hlen : bs.length ≤ r.need) (hfit : (r.region buffer).stop ≤ 2 ^ 32) :
    SameOutside m (writeBytes m buffer bs) [r.region buffer] := by
  have hstop : buffer.toNat + r.need ≤ 2 ^ 32 := hfit
  refine (sameOutside_writeBytes m buffer bs (by omega)).mono fun r' hr' => ?_
  obtain rfl := List.mem_singleton.mp hr'
  refine ⟨_, List.mem_singleton_self _, le_rfl, ?_⟩
  show buffer.toNat + bs.length ≤ buffer.toNat + r.need
  omega

/-- **An extraction** into the range it is made for. -/
theorem zipExtract_tracks {puff : Puff} (h : Tracks m₀ z₀ s past) {r : Request} {buffer : Word}
    {x : Extracted} (hx : (zipFileExtract puff s.mem s.z buffer).val = some x)
    (hlen : x.out.length ≤ r.need)
    (hsep : Separate (past ++ (zipExtract puff r buffer s).log)) :
    Tracks m₀ z₀ (zipExtract puff r buffer s).state
        (past ++ (zipExtract puff r buffer s).log) ∧
      (starts x = true → SameOutside s.mem (zipExtract puff r buffer s).state.mem [r.region buffer] ∧
        BytesAt (zipExtract puff r buffer s).state.mem buffer x.out) := by
  rw [zipExtract_run puff r buffer s hx] at hsep ⊢
  dsimp only at hsep ⊢
  by_cases hstarts : starts x = true
  · rw [if_pos hstarts] at hsep ⊢
    let log : List Event := [.extract (zipFileExtract puff s.mem s.z buffer).log (some x),
      .store r buffer, .write ⟨buffer, x.out.length⟩]
    replace hsep : Separate (past ++ log) := hsep
    have hmem : r.region buffer ∈ regions (past ++ log) := by
      rw [regions_append]
      exact List.mem_append_right _ List.mem_cons_self
    have hfit : buffer.toNat + r.need ≤ 2 ^ 32 := hsep.fits _ hmem
    have hout := sameOutside_out s.mem hlen hfit
    refine ⟨Tracks.append h ?_ ⟨_, rfl⟩ ?_, fun _ => ⟨hout, bytesAt_writeBytes _ (by omega)⟩⟩
    · intro w hw _
      obtain rfl : w = ⟨buffer, x.out.length⟩ := by simpa [log] using hw
      refine ⟨?_, _, hmem, le_rfl, ?_⟩
      · show buffer.toNat + x.out.length ≤ 2 ^ 32
        omega
      · show buffer.toNat + x.out.length ≤ buffer.toNat + r.need
        omega
    · refine hout.mono fun r' hr' => ?_
      obtain rfl := List.mem_singleton.mp hr'
      exact ⟨_, hmem, le_rfl, le_rfl⟩
  · rw [if_neg hstarts]
    -- nothing is written
    have hnil : x.out = [] := by
      by_contra hne
      exact hstarts (decide_eq_true (Or.inr hne))
    refine ⟨Tracks.append h ?_ ⟨_, rfl⟩ ?_, fun h => absurd h hstarts⟩
    · intro w hw hne
      obtain rfl : w = ⟨buffer, x.out.length⟩ := by simpa using hw
      rw [hnil] at hne
      exact absurd rfl hne
    · rw [hnil]
      exact fun a _ => rfl

end BBoot.Boot
