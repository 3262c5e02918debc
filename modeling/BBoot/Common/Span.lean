import Mathlib

/-!
# Address ranges

A `Span` is the half-open range `[start, start + len)` of addresses or offsets,
on `ℕ`. The lemmas are the ones an allocator or a bounds argument needs: when
two ranges are disjoint, and how a log of ranges handed out in increasing
order stays pairwise disjoint (`Ascending`).
-/

namespace BBoot

/-- The range `[start, start + len)`. -/
structure Span where
  start : ℕ
  len : ℕ
deriving DecidableEq, Repr

namespace Span

/-- One past the last address. -/
def stop (s : Span) : ℕ := s.start + s.len

/-- `x` lies in the range. -/
def Mem (s : Span) (x : ℕ) : Prop := s.start ≤ x ∧ x < s.stop

/-- No address lies in both ranges; an empty range meets nothing. -/
def Disjoint (s t : Span) : Prop :=
  s.len = 0 ∨ t.len = 0 ∨ s.stop ≤ t.start ∨ t.stop ≤ s.start

/-- `s` lies inside `t`. -/
def Inside (s t : Span) : Prop := t.start ≤ s.start ∧ s.stop ≤ t.stop

instance (s t : Span) : Decidable (s.Disjoint t) := by unfold Disjoint; infer_instance

instance (s t : Span) : Decidable (s.Inside t) := by unfold Inside; infer_instance

@[simp] theorem stop_mk (a n : ℕ) : (Span.mk a n).stop = a + n := rfl

theorem disjoint_iff (s t : Span) : s.Disjoint t ↔ ∀ x, ¬ (s.Mem x ∧ t.Mem x) := by
  unfold Disjoint Mem stop
  constructor
  · intro h x hx
    omega
  · intro h
    by_contra hne
    exact h (max s.start t.start) (by omega)

theorem Disjoint.symm {s t : Span} (h : s.Disjoint t) : t.Disjoint s := by
  unfold Disjoint at *; omega

theorem Disjoint.of_stop_le {s t : Span} (h : s.stop ≤ t.start) : s.Disjoint t :=
  Or.inr (Or.inr (Or.inl h))

theorem Disjoint.mono {s t s' t' : Span} (h : s.Disjoint t) (hs : s'.Inside s) (ht : t'.Inside t) :
    s'.Disjoint t' := by
  rw [disjoint_iff] at *
  rintro x ⟨hx, hy⟩
  exact h x ⟨⟨hs.1.trans hx.1, hx.2.trans_le hs.2⟩, ⟨ht.1.trans hy.1, hy.2.trans_le ht.2⟩⟩

/-- Ranges handed out in increasing order, all within `[lo, hi)`. -/
def Ascending (lo hi : ℕ) (spans : List Span) : Prop :=
  (∀ s ∈ spans, lo ≤ s.start ∧ s.stop ≤ hi) ∧ spans.Pairwise fun s t => s.stop ≤ t.start

theorem Ascending.nil (lo hi : ℕ) : Ascending lo hi [] := ⟨by simp, .nil⟩

/-- A range at `lo`, then ranges at or above its end. -/
theorem Ascending.cons {lo hi : ℕ} {s : Span} {spans : List Span} (hlo : lo ≤ s.start)
    (hhi : s.stop ≤ hi) (h : Ascending s.stop hi spans) : Ascending lo hi (s :: spans) := by
  have hle : s.start ≤ s.stop := Nat.le_add_right _ _
  refine ⟨fun t ht => ?_, List.pairwise_cons.mpr ⟨fun t ht => (h.1 t ht).1, h.2⟩⟩
  rcases List.mem_cons.mp ht with rfl | ht
  · exact ⟨hlo, hhi⟩
  · exact ⟨hlo.trans (hle.trans (h.1 t ht).1), (h.1 t ht).2⟩

/-- Moving the lower bound down. -/
theorem Ascending.lower {lo lo' hi : ℕ} {spans : List Span} (h : Ascending lo hi spans)
    (hle : lo' ≤ lo) : Ascending lo' hi spans :=
  ⟨fun s hs => ⟨hle.trans (h.1 s hs).1, (h.1 s hs).2⟩, h.2⟩

theorem Ascending.pairwise_disjoint {lo hi : ℕ} {spans : List Span} (h : Ascending lo hi spans) :
    spans.Pairwise Disjoint :=
  h.2.imp Disjoint.of_stop_le

end Span

end BBoot
