import BBoot.Boot.Kicklayout
import BBoot.Boot.OfClaim

/-!
# Loading with no_claim

On amigaone and sam460 `brd.claim` is `no_claim`: it compares the end of the
range with the size of RAM, computed modulo `2^32`, and knows nothing of what was
claimed before. Whether the ranges are inside RAM and apart is up to the sizes
in the archive.

Results:
* `writesGranted_iff`: where the ranges stored to are apart, every byte is
  stored inside a claimed range and RAM exactly when no size wraps.
-/

namespace BBoot.Boot

open Zip Traced

/-- Nothing is said about the answers of the zip functions. -/
def Answers.any : Answers := ⟨fun _ _ _ => True, fun _ _ => True, fun _ _ => True⟩

/-- All that is stored is inside claimed ranges and RAM: the things stored for each request,
    the `module_t` apart from the data of its module, and every write of a byte. -/
structure WritesGranted (memsize : Word) (log : List Event) : Prop where
  granted : ∀ q ∈ stores log, q ∈ grants log
  placed : ∀ q ∈ stores log, q.1.Placed memsize q.2
  writes : ∀ w, .write w ∈ log → w.len ≠ 0 →
    ∃ q ∈ grants log, w.span.Inside (q.1.claimed q.2) ∧ w.span.stop ≤ memsize.toNat

/-- Every range stored to fits. -/
def AllFit (memsize : Word) (log : List Event) : Prop :=
  ∀ q ∈ stores log, q.1.Fits memsize q.2

instance (memsize : Word) (r : Request) (addr : Word) : Decidable (r.Fits memsize addr) :=
  decidable_of_iff (r.need ≤ r.size.toNat ∧ addr.toNat + r.need ≤ memsize.toNat)
    ⟨fun h => ⟨h.1, h.2⟩, fun h => ⟨h.exact, h.ram⟩⟩

/-- The ranges stored to do not overlap. -/
def RangesApart (log : List Event) : Prop := (regions log).Pairwise Span.Disjoint

section

variable {puff : Puff} {memsize : Word} {m₀ : Mem} {z₀ : ZipT} {s : Machine} {log : List Event}
  {A : List Event → Prop}

theorem AllFit.append_left {past : List Event} (h : AllFit memsize (past ++ log)) :
    AllFit memsize past := fun q hq =>
  h q (by rw [stores_append]; exact List.mem_append_left _ hq)

theorem RangesApart.append_left {past : List Event} (h : RangesApart (past ++ log)) :
    RangesApart past := by
  unfold RangesApart at h
  rw [regions_append] at h
  exact (List.pairwise_append.mp h).1

/-- What fits in RAM ends by `2^32`. -/
theorem AllFit.separate (h : AllFit memsize log) (hapart : RangesApart log) : Separate log where
  apart := hapart
  fits r hr := by
    obtain ⟨q, hq, rfl⟩ := List.mem_map.mp hr
    have := (h q hq).ram
    have := memsize.isLt
    show q.2.toNat + q.1.need ≤ 2 ^ 32
    omega

/-- `no_claim` grants at the address it is asked for. -/
theorem noClaim_setting (hpuff : PuffBounded puff) (hA : PrefixClosed A)
    (hsep : ∀ {log avail}, Tiled (noClaim memsize).execAddr log avail → A log → Separate log) :
    Setting A (noClaim memsize) puff m₀ z₀ .any where
  prefixClosed := hA
  separate := hsep
  claim _ := by
    unfold noClaim
    dsimp only
    split_ifs
    · exact Or.inl rfl
    · exact Or.inr rfl
  bounded := hpuff
  find _ _ _ _ := trivial
  size _ _ _ := trivial
  extract _ _ _ _ _ _ _ := trivial

variable {execAddr : Word} {ans : Answers} {text : Span} {goal : Option (List (List Byte))}
  {broken : Bool} {short : Prop} {items : List Item} {v : Option Kick} {n fuel : ℕ}

theorem Booted.tracked (h : Booted execAddr m₀ z₀ ans text goal broken short items v s log) :
    Tracks m₀ z₀ s log ∧ ∃ avail, Tiled execAddr log avail := by
  cases h with
  | unfinished _ htracks htiled => exact ⟨htracks, _, htiled⟩
  | null _ htracks htiled => exact ⟨htracks, _, htiled⟩
  | list _ _ hrun _ => exact ⟨hrun.tracks, _, hrun.tiled⟩

/-- However the call ends, it kept to the ranges stored to, and these were granted. -/
theorem Zipkicked.tracked {addr : Word} (h : Zipkicked execAddr m₀ z₀ ans n fuel addr v s log) :
    Tracks m₀ z₀ s log ∧ (stores log).Sublist (grants log) := by
  cases h with
  | noLayout _ htracks hgranted => exact ⟨htracks, hgranted⟩
  | long _ _ _ htracks htiled => exact ⟨htracks, htiled.granted⟩
  | parsed _ _ _ _ hbooted =>
    obtain ⟨htracks, avail, htiled⟩ := hbooted.tracked
    exact ⟨htracks, htiled.granted⟩

/-- A write inside the ranges stored to is inside what was claimed for them. -/
theorem writesGranted_of (hfit : AllFit memsize log) (hgranted : (stores log).Sublist (grants log))
    (hwrites : WritesInside log) : WritesGranted memsize log where
  granted q hq := hgranted.subset hq
  placed q hq := (Request.placed_iff_fits memsize q.1 q.2).mpr (hfit q hq)
  writes w hw hlen := by
    obtain ⟨-, r, hr, hin⟩ := hwrites w hw hlen
    obtain ⟨q, hq, rfl⟩ := List.mem_map.mp hr
    have hq' := hfit q hq
    have hexact := hq'.exact
    have hram := hq'.ram
    unfold Span.Inside Span.stop Request.region at hin
    dsimp only at hin
    refine ⟨q, hgranted.subset hq, ⟨hin.1, ?_⟩, ?_⟩
    · show w.span.start + w.span.len ≤ q.2.toNat + q.1.size.toNat
      omega
    · show w.span.start + w.span.len ≤ memsize.toNat
      omega

end

/-- **Where the ranges stored to are apart**, everything is stored inside claimed ranges and
    RAM exactly when every range fits: the exact number of bytes was claimed, without a sum
    that wraps, and the range ends within RAM. -/
theorem writesGranted_iff {puff : Puff} (hpuff : PuffBounded puff) (memsize : Word) (fuel : ℕ)
    (zipdata ziplen : Word) {config : ℤ} (hconfig : 1 ≤ config) (s : Machine)
    (hapart : RangesApart (bootAosZipkick (noClaim memsize) puff fuel zipdata ziplen config s).log) :
    WritesGranted memsize
        (bootAosZipkick (noClaim memsize) puff fuel zipdata ziplen config s).log ↔
      AllFit memsize (bootAosZipkick (noClaim memsize) puff fuel zipdata ziplen config s).log := by
  obtain ⟨n, rfl⟩ := exists_label hconfig
  refine ⟨fun h q hq => (Request.placed_iff_fits memsize q.1 q.2).mp (h.placed q hq), fun hfit => ?_⟩
  have hclosed : PrefixClosed fun log => AllFit memsize log ∧ RangesApart log :=
    fun past log h => ⟨h.1.append_left, h.2.append_left⟩
  have env (z₀ : ZipT) : Setting (fun log => AllFit memsize log ∧ RangesApart log)
      (noClaim memsize) puff s.mem z₀ .any :=
    noClaim_setting hpuff hclosed fun _ h => h.1.separate h.2
  have hends := bootAosZipkick_ends n (fun _ z₀ _ => env z₀) ⟨hfit, hapart⟩
  rcases hends with ⟨ls, -, -, -, hlog⟩ | ⟨len, z₀, -, hkicked⟩
  · rw [hlog]
    refine writesGranted_of ?_ ?_ fun w hw _ => ?_
    · rw [hlog] at hfit
      exact hfit
    · rw [stores_of_silent (silent_reads ls)]
      exact List.nil_sublist _
    · obtain ⟨l, -, hl⟩ := List.mem_map.mp hw
      exact absurd hl (by simp)
  · obtain ⟨htracks, hgranted⟩ := hkicked.tracked
    exact writesGranted_of hfit hgranted htracks.writes

/-- A section of two files. -/
def kickText : List Byte :=
  ascii ['L', 'A', 'B', 'E', 'L', ' ', 'a', '\n', 'E', 'X', 'E', 'C', ' ', 'd', '/', 'k', '\n',
    'M', 'O', 'D', 'U', 'L', 'E', ' ', 'm']

/-- An archive with that section. -/
def kickArchive : List Byte :=
  archive [storedLayout kickText (by decide),
    storedFile ⟨ascii ['d', '/', 'k'], by decide⟩ [1, 2] (by decide) (by decide) (by decide),
    storedFile ⟨ascii ['m'], by decide⟩ [3, 4, 5] (by decide) (by decide) (by decide)] []

/-- With 512 MiB of RAM both files are loaded where there is room. -/
theorem writesGranted_kickArchive :
    WritesGranted 0x20000000 (bootAosZipkick (noClaim 0x20000000) puffStored 8 0x600000
      (BitVec.ofNat 32 kickArchive.length) 1 (machineOf kickArchive)).log :=
  (writesGranted_iff puffStored_bounded 0x20000000 8 0x600000 _ (by decide) _
    (by rw [RangesApart]; decide +kernel)).mpr (by rw [AllFit]; decide +kernel)

/-- The bytes of an archive of the one entry `e`, which declares `2 ^ 32 - 1` bytes. -/
def oversized (e : ZipEntry) : List Byte :=
  (archive [e] []).take (e.localRecord.length + 24) ++ [0xff, 0xff, 0xff, 0xff] ++
    (archive [e] []).drop (e.localRecord.length + 28)

def labelText : List Byte := ascii ['L', 'A', 'B', 'E', 'L', ' ', 'a']

/-- A Kicklayout of seven bytes, deflated into a stored block. -/
def deflatedLayout : ZipEntry :=
  { storedLayout labelText (by decide) with
    method := .deflate ([1, 7, 0, 0xf8, 0xff] ++ labelText) }

/-- One byte is claimed for that text, and the first of the two terminators is stored in
    front of it. -/
theorem oversized_written :
    ¬ WritesGranted 0x20000000 (bootAosZipkick (noClaim 0x20000000) puffStored 1 0x600000
      (BitVec.ofNat 32 (oversized deflatedLayout).length) 1 (machineOf (oversized deflatedLayout))).log := by
  intro h
  have hgrants : grants (bootAosZipkick (noClaim 0x20000000) puffStored 1 0x600000
      (BitVec.ofNat 32 (oversized deflatedLayout).length) 1
      (machineOf (oversized deflatedLayout))).log = [(.text 0xffffffff, 0x600096)] := by
    decide +kernel
  obtain ⟨q, hq, hin, -⟩ := h.writes ⟨0x600095, 1⟩ (by decide +kernel) (by decide)
  rw [hgrants] at hq
  obtain rfl := List.mem_singleton.mp hq
  exact absurd hin.1 (by decide)

end BBoot.Boot
