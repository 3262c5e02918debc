import BBoot.Common.Span
import BBoot.Common.Word

/-!
# A software-managed TLB

The 64 entries of the TLB of a 440 or 460 core, as the three words that are
written to each: an entry maps one page of a size of its own, whose effective
and physical addresses agree below the page size.

* `covers_iff`: the addresses an entry matches are a range.
* `Tlb.exclusive_of_disjoint`: entries with disjoint pages never match together.
* `Tlb.writeAll_of_mem`, `Tlb.writeAll_of_notMem`: what a run of writes to distinct
  entries leaves.
-/

namespace BBoot

/-! ## Entries -/

/-- The words of a TLB entry. -/
structure TlbEntry where
  word0 : Word
  word1 : Word
  word2 : Word
deriving DecidableEq, Repr

namespace TlbEntry

/-- `V`, bit 22 of word 0. -/
def Valid (e : TlbEntry) : Prop := e.word0.getLsbD 9 = true

instance (e : TlbEntry) : Decidable e.Valid := by unfold Valid; infer_instance

/-- `DSIZ`, bits 24–27 of word 0: a page has `4 ^ dsiz` KiB. -/
def dsiz (e : TlbEntry) : ℕ := (e.word0.extractLsb' 4 4).toNat

/-- The bytes of the page. -/
def pageSize (e : TlbEntry) : ℕ := 1024 * 4 ^ e.dsiz

/-- An address is matched if it agrees with `EPN`, the upper 22 bits of word 0, above
    the page size. -/
def Covers (e : TlbEntry) (ea : Word) : Prop :=
  e.Valid ∧ ea.toNat / e.pageSize = e.word0.toNat / e.pageSize

/-- The 36-bit physical address of a matched one: `ERPN`, bits 28–31 of word 1, then
    `RPN`, its upper 22 bits, above the page size. -/
def physical (e : TlbEntry) (ea : Word) : ℕ :=
  2 ^ 32 * (e.word1.extractLsb' 0 4).toNat + e.word1.toNat / e.pageSize * e.pageSize +
    ea.toNat % e.pageSize

/-- The addresses of the page. -/
def page (e : TlbEntry) : Span := ⟨e.word0.toNat / e.pageSize * e.pageSize, e.pageSize⟩

theorem pageSize_pos (e : TlbEntry) : 0 < e.pageSize := by
  unfold pageSize
  positivity

theorem covers_iff (e : TlbEntry) (ea : Word) : e.Covers ea ↔ e.Valid ∧ e.page.Mem ea.toNat := by
  have hpos := e.pageSize_pos
  unfold Covers page Span.Mem
  rw [Span.stop_mk, ← Nat.succ_mul, ← Nat.le_div_iff_mul_le hpos, ← Nat.div_lt_iff_lt_mul hpos,
    Nat.lt_succ_iff, and_congr_right_iff]
  intro _
  exact ⟨fun h => ⟨h.ge, h.le⟩, fun h => le_antisymm h.2 h.1⟩

end TlbEntry

/-! ## The entries together -/

/-- The TLB. -/
abbrev Tlb := Fin 64 → TlbEntry

namespace Tlb

/-- No address is matched by two entries. -/
def Exclusive (t : Tlb) : Prop := ∀ ea i j, (t i).Covers ea → (t j).Covers ea → i = j

/-- An entry takes `ea` to the physical address `pa`. -/
def Maps (t : Tlb) (ea : Word) (pa : ℕ) : Prop :=
  ∃ i, (t i).Covers ea ∧ (t i).physical ea = pa

theorem exclusive_of_disjoint {t : Tlb}
    (h : ∀ i j, i ≠ j → (t i).Valid → (t j).Valid → (t i).page.Disjoint (t j).page) :
    t.Exclusive := by
  intro ea i j hi hj
  by_contra hne
  rw [TlbEntry.covers_iff] at hi hj
  exact (Span.disjoint_iff _ _).mp (h i j hne hi.1 hj.1) ea.toNat ⟨hi.2, hj.2⟩

/-- The three words written to the entry `index`. -/
structure Write where
  index : ℕ
  entry : TlbEntry
deriving DecidableEq, Repr

/-- The processor takes the low six bits of the index. -/
def write (t : Tlb) (w : Write) : Tlb := fun i => if i.val = w.index % 64 then w.entry else t i

/-- One write after the other. -/
def writeAll (t : Tlb) (ws : List Write) : Tlb := ws.foldl write t

theorem writeAll_cons (t : Tlb) (w : Write) (ws : List Write) :
    t.writeAll (w :: ws) = (t.write w).writeAll ws := rfl

/-- An entry that is not written keeps its words. -/
theorem writeAll_of_notMem {t : Tlb} {ws : List Write} {i : Fin 64}
    (h : i.val ∉ ws.map fun w => w.index % 64) : t.writeAll ws i = t i := by
  induction ws generalizing t with
  | nil => rfl
  | cons w ws ih =>
    rw [List.map_cons, List.mem_cons, not_or] at h
    rw [writeAll_cons, ih h.2, write, if_neg h.1]

/-- An entry that is written once holds what was written. -/
theorem writeAll_of_mem {t : Tlb} {ws : List Write} {w : Write}
    (hd : (ws.map fun w => w.index % 64).Nodup) (hw : w ∈ ws) {i : Fin 64}
    (hi : i.val = w.index % 64) : t.writeAll ws i = w.entry := by
  induction ws generalizing t with
  | nil => exact absurd hw List.not_mem_nil
  | cons v ws ih =>
    rw [List.map_cons, List.nodup_cons] at hd
    rw [writeAll_cons]
    rcases List.mem_cons.mp hw with rfl | hw
    · rw [writeAll_of_notMem (hi ▸ hd.1), write, if_pos hi]
    · exact ih hd.2 hw

end Tlb

end BBoot
