import BBoot.Common.Word

/-!
# Sizing the RAM of the amigaone

`find_memory_size` of `brd_amigaone.c` halves a size until its last word stores
what is written to it, then looks for more behind it and calls itself for the
rest. The call passes the size found where its parameter is the start of what is
still to be sized, so the second call asks about addresses it has been asked
about before.

`Ram` is the memory as the processor sees it. A call that does not return has no
result for any number `fuel` of nested calls.

Results:
* `probeLoop_eq`: the halving loop stops at the largest power of two that fits.
* `findMemorySize_repeats`: a second nested call goes on for ever.
* `findMemorySize_iff`: the sizes that are found are the sums of at most two
  powers of two.
-/

namespace BBoot.Boot

/-! ## Model -/

/-- Memory in a state `σ`: what a store does to it and what a load returns. -/
structure Ram (σ : Type) where
  store : σ → Word → Word → σ
  load : σ → Word → Word

variable {σ : Type}

/-- A test of the word at `p` (`brd_amigaone.c` lines 196–200 and 207–209): whether
    it reads back what was written; if so it is cleared. -/
def probe (r : Ram σ) (s : σ) (p : Word) : Bool × σ :=
  let s := r.store s p 0xaaaaaaaa
  if r.load s p = 0xaaaaaaaa then (true, r.store s p 0) else (false, s)

/-- The loop of lines 194–202. -/
def probeLoop (r : Ram σ) (start i : Word) (s : σ) : Word × σ :=
  if _h : i > 4 then
    let (found, s) := probe r s (start + i - 4)
    if found then (i, s) else probeLoop r start (i / 2) s
  else (i, s)
termination_by i.toNat
decreasing_by
  have h4 : 4 < i.toNat := _h
  rw [BitVec.toNat_udiv, show (2 : Word).toNat = 2 from rfl]
  omega

/-- `start ?: 0x80000000` (line 193). -/
def firstSize (start : Word) : Word := if start = 0 then 0x80000000 else start

/-- `find_memory_size` (lines 190–214), with at most `fuel` calls in each other. -/
def findMemorySize (r : Ram σ) : ℕ → Word → σ → Option (Word × σ)
  | 0, _, _ => none
  | fuel + 1, start, s =>
    let (i, s) := probeLoop r start (firstSize start) s
    if start + i + 32 * 1024 < 0x80000000 then
      -- there may be 32k init ram at 1GB so skip that
      let (more, s) := probe r s (start + i + 32 * 1024)
      if more then do
        let (rest, s) ← findMemorySize r fuel i s
        some (i + rest, s)
      else some (i, s)
    else some (i, s)

/-- RAM of `M` bytes: words below `M` store what is written, words from there on do
    not read back the pattern, except for the init RAM there may be at 1 GiB. -/
structure Ram.Sized (r : Ram σ) (M : ℕ) : Prop where
  present : ∀ s a v, 4 ∣ a.toNat → a.toNat + 4 ≤ M → r.load (r.store s a v) a = v
  absent : ∀ s a, 4 ∣ a.toNat → M ≤ a.toNat →
    ¬ (2 ^ 30 ≤ a.toNat ∧ a.toNat < 2 ^ 30 + 2 ^ 15) →
    r.load (r.store s a 0xaaaaaaaa) a ≠ 0xaaaaaaaa

/-! ## Probes -/

theorem probe_present {r : Ram σ} {M : ℕ} (hr : r.Sized M) (s : σ) {a : Word}
    (ha : 4 ∣ a.toNat) (hM : a.toNat + 4 ≤ M) : (probe r s a).1 = true := by
  unfold probe
  rw [if_pos (hr.present s a _ ha hM)]

theorem probe_absent {r : Ram σ} {M : ℕ} (hr : r.Sized M) (s : σ) {a : Word}
    (ha : 4 ∣ a.toNat) (hM : M ≤ a.toNat)
    (hinit : ¬ (2 ^ 30 ≤ a.toNat ∧ a.toNat < 2 ^ 30 + 2 ^ 15)) : (probe r s a).1 = false := by
  unfold probe
  rw [if_neg (hr.absent s a ha hM hinit)]

/-- The test of the last word below a multiple of 1 MiB never meets the init RAM:
    it succeeds exactly below the end of memory. -/
theorem probe_last {r : Ram σ} {M c : ℕ} (hr : r.Sized M) (hM : 2 ^ 20 ∣ M) (s : σ) {a : Word}
    (ha : a.toNat + 4 = c * 2 ^ 20) : (probe r s a).1 = decide (c * 2 ^ 20 ≤ M) := by
  obtain ⟨d, rfl⟩ := hM
  have h4 : 4 ∣ a.toNat := by omega
  by_cases hle : c * 2 ^ 20 ≤ 2 ^ 20 * d
  · rw [probe_present hr s h4 (by omega), decide_eq_true hle]
  · rw [probe_absent hr s h4 (by omega) (by omega), decide_eq_false hle]

/-- So is the test for more, 32 KiB behind a multiple of 1 MiB. -/
theorem probe_more {r : Ram σ} {M c : ℕ} (hr : r.Sized M) (hM : 2 ^ 20 ∣ M) (s : σ) {a : Word}
    (ha : a.toNat = c * 2 ^ 20 + 2 ^ 15) : (probe r s a).1 = decide (c * 2 ^ 20 < M) := by
  obtain ⟨d, rfl⟩ := hM
  have h4 : 4 ∣ a.toNat := by omega
  by_cases hlt : c * 2 ^ 20 < 2 ^ 20 * d
  · rw [probe_present hr s h4 (by omega), decide_eq_true hlt]
  · rw [probe_absent hr s h4 (by omega) (by omega), decide_eq_false hlt]

/-! ## The loop -/

/-- The address of the last word of a range that ends by `2 ^ 32`. -/
theorem lastWord_toNat {start i : Word} (hi : 4 ≤ i.toNat)
    (hwrap : start.toNat + i.toNat ≤ 2 ^ 32) :
    (start + i - 4).toNat + 4 = start.toNat + i.toNat := by
  rw [BitVec.toNat_sub, BitVec.toNat_add, show (4 : Word).toNat = 4 from rfl]
  omega

theorem probeLoop_step (r : Ram σ) (start : Word) {i : Word} (s : σ) (hi : 4 < i.toNat) :
    probeLoop r start i s =
      if (probe r s (start + i - 4)).1 then (i, (probe r s (start + i - 4)).2)
      else probeLoop r start (i / 2) (probe r s (start + i - 4)).2 := by
  have h4 : i > 4 := hi
  rw [probeLoop, dif_pos h4]

/-- **The loop** from `2 ^ k` stops at `2 ^ j` if memory reaches to the end of that
    and not to that of the next power of two; by induction on the halvings. -/
theorem probeLoop_eq {r : Ram σ} {M : ℕ} (hr : r.Sized M) (hM : 2 ^ 20 ∣ M) {start : Word}
    (hstart : 2 ^ 20 ∣ start.toNat) {j : ℕ} (hj : 20 ≤ j) (hfit : start.toNat + 2 ^ j ≤ M)
    {n : ℕ} (i : Word) (s : σ) (hi : i.toNat = 2 ^ (j + n))
    (hwrap : start.toNat + 2 ^ (j + n) ≤ 2 ^ 32)
    (hlast : ∀ l, j < l → l ≤ j + n → M < start.toNat + 2 ^ l) :
    ∃ w s', probeLoop r start i s = (w, s') ∧ w.toNat = 2 ^ j := by
  induction n generalizing i s with
  | zero =>
    rw [Nat.add_zero] at hi hwrap
    obtain ⟨c, hc⟩ : 2 ^ 20 ∣ start.toNat + 2 ^ j := hstart.add (pow_dvd_pow 2 hj)
    have hpow : 2 ^ 20 ≤ 2 ^ j := Nat.pow_le_pow_right (by decide) hj
    have hfound : (probe r s (start + i - 4)).1 = true := by
      rw [probe_last hr hM s (c := c) (by rw [lastWord_toNat (by omega) (by omega), hi, hc]; omega),
        decide_eq_true_eq]
      omega
    rw [probeLoop_step r start s (by omega), if_pos hfound]
    exact ⟨i, _, rfl, hi⟩
  | succ n ih =>
    have hpow : 2 ^ 20 ≤ 2 ^ (j + (n + 1)) := Nat.pow_le_pow_right (by decide) (by omega)
    obtain ⟨c, hc⟩ : 2 ^ 20 ∣ start.toNat + 2 ^ (j + (n + 1)) :=
      hstart.add (pow_dvd_pow 2 (by omega))
    have hgone : (probe r s (start + i - 4)).1 = false := by
      rw [probe_last hr hM s (c := c) (by rw [lastWord_toNat (by omega) (by omega), hi, hc]; omega),
        decide_eq_false_iff_not]
      have := hlast (j + (n + 1)) (by omega) le_rfl
      omega
    have hhalf : (i / 2).toNat = 2 ^ (j + n) := by
      rw [BitVec.toNat_udiv, hi, show (2 : Word).toNat = 2 from rfl, ← Nat.add_assoc, Nat.pow_succ,
        Nat.mul_div_cancel _ (by decide)]
    have hdouble : 2 ^ (j + (n + 1)) = 2 ^ (j + n) * 2 := by rw [← Nat.add_assoc, Nat.pow_succ]
    rw [probeLoop_step r start s (by omega), hgone]
    exact ih (i / 2) _ hhalf (by omega) fun l h1 h2 => hlast l h1 (by omega)

/-! ## One call -/

/-- What a call does once the loop has found `w`. -/
theorem findMemorySize_succ {r : Ram σ} {start w : Word} {s s' : σ} (fuel : ℕ)
    (h : probeLoop r start (firstSize start) s = (w, s')) :
    findMemorySize r (fuel + 1) start s =
      if start + w + 32 * 1024 < 0x80000000 then
        if (probe r s' (start + w + 32 * 1024)).1 then
          (findMemorySize r fuel w (probe r s' (start + w + 32 * 1024)).2).map
            fun q => (w + q.1, q.2)
        else some (w, (probe r s' (start + w + 32 * 1024)).2)
      else some (w, s') := by
  rw [findMemorySize, h]
  dsimp only
  cases findMemorySize r fuel w (probe r s' (start + w + 32 * 1024)).2 with
  | none => rfl
  | some q => rfl

section Call

variable {r : Ram σ} {M : ℕ} (hr : r.Sized M) (hM : 2 ^ 20 ∣ M) (hmax : M ≤ 2 ^ 31) (start : Word)
  (hstart : 2 ^ 20 ∣ start.toNat) {j n : ℕ} (hj : 20 ≤ j) (hfit : start.toNat + 2 ^ j ≤ M)
  (hfirst : (firstSize start).toNat = 2 ^ (j + n))
  (hwrap : start.toNat + 2 ^ (j + n) ≤ 2 ^ 32)
  (hlast : ∀ l, j < l → l ≤ j + n → M < start.toNat + 2 ^ l) (s : σ)

include hr hM hmax hstart hj hfit hfirst hwrap hlast

/-- A call that has found all there is returns it. -/
theorem findMemorySize_done (hend : start.toNat + 2 ^ j = M) :
    ∃ w s', w.toNat = 2 ^ j ∧ ∀ fuel, findMemorySize r (fuel + 1) start s = some (w, s') := by
  obtain ⟨w, s', hloop, hw⟩ := probeLoop_eq hr hM hstart hj hfit (firstSize start) s hfirst hwrap hlast
  obtain ⟨c, hc⟩ := hM
  have hsum : (start + w).toNat = start.toNat + 2 ^ j := by
    rw [BitVec.toNat_add, hw, Nat.mod_eq_of_lt (by omega)]
  have haddr : (start + w + 32 * 1024).toNat = c * 2 ^ 20 + 2 ^ 15 := by
    rw [BitVec.toNat_add, hsum, show (32 * 1024 : Word).toNat = 2 ^ 15 from rfl,
      Nat.mod_eq_of_lt (by omega)]
    omega
  have hno : (probe r s' (start + w + 32 * 1024)).1 = false := by
    rw [probe_more hr ⟨c, hc⟩ s' haddr, decide_eq_false_iff_not]
    omega
  by_cases hlt : start + w + 32 * 1024 < 0x80000000
  · refine ⟨w, (probe r s' (start + w + 32 * 1024)).2, hw, fun fuel => ?_⟩
    rw [findMemorySize_succ fuel hloop, if_pos hlt, hno]
    rfl
  · refine ⟨w, s', hw, fun fuel => ?_⟩
    rw [findMemorySize_succ fuel hloop, if_neg hlt]

/-- A call that has not found all there is calls itself with the size it found. -/
theorem findMemorySize_more (hend : start.toNat + 2 ^ j < M) :
    ∃ w s', w.toNat = 2 ^ j ∧ ∀ fuel, findMemorySize r (fuel + 1) start s =
      (findMemorySize r fuel w s').map fun q => (w + q.1, q.2) := by
  obtain ⟨w, s', hloop, hw⟩ := probeLoop_eq hr hM hstart hj hfit (firstSize start) s hfirst hwrap hlast
  obtain ⟨c, hc⟩ : 2 ^ 20 ∣ start.toNat + 2 ^ j := hstart.add (pow_dvd_pow 2 hj)
  obtain ⟨d, hd⟩ := hM
  have hsum : (start + w).toNat = start.toNat + 2 ^ j := by
    rw [BitVec.toNat_add, hw, Nat.mod_eq_of_lt (by omega)]
  have haddr : (start + w + 32 * 1024).toNat = c * 2 ^ 20 + 2 ^ 15 := by
    rw [BitVec.toNat_add, hsum, show (32 * 1024 : Word).toNat = 2 ^ 15 from rfl,
      Nat.mod_eq_of_lt (by omega)]
    omega
  have hmore : (probe r s' (start + w + 32 * 1024)).1 = true := by
    rw [probe_more hr ⟨d, hd⟩ s' haddr, decide_eq_true_eq]
    omega
  have hlt : start + w + 32 * 1024 < 0x80000000 := by
    rw [BitVec.lt_def, haddr, show (0x80000000 : Word).toNat = 2 ^ 31 from rfl]
    omega
  refine ⟨w, (probe r s' (start + w + 32 * 1024)).2, hw, fun fuel => ?_⟩
  rw [findMemorySize_succ fuel hloop, if_pos hlt, if_pos hmore]

end Call

/-! ## The size that is found -/

theorem firstSize_of_pos {start : Word} (h : 0 < start.toNat) : firstSize start = start := by
  apply if_neg
  rintro rfl
  exact absurd h (by decide)

/-- **A call for a power of two of which memory has more than twice as much** makes
    the same call again, so it does not return. -/
theorem findMemorySize_repeats {r : Ram σ} {M : ℕ} (hr : r.Sized M) (hM : 2 ^ 20 ∣ M)
    (hmax : M ≤ 2 ^ 31) {j : ℕ} (hj : 20 ≤ j) (hlt : 2 ^ (j + 1) < M) {w : Word}
    (hw : w.toNat = 2 ^ j) (fuel : ℕ) (s : σ) : findMemorySize r fuel w s = none := by
  induction fuel generalizing s with
  | zero => rfl
  | succ fuel ih =>
    have hpow : 2 ^ (j + 1) = 2 ^ j + 2 ^ j := by rw [Nat.pow_succ]; omega
    have hpos : 0 < 2 ^ j := by positivity
    obtain ⟨w', s', hw', hcall⟩ := findMemorySize_more hr hM hmax w (j := j) (n := 0)
      (by rw [hw]; exact pow_dvd_pow 2 hj) hj (by omega)
      (by rw [firstSize_of_pos (by omega), hw, Nat.add_zero]) (by rw [Nat.add_zero]; omega)
      (fun l h1 h2 => absurd h1 (by omega)) s (by omega)
    obtain rfl : w' = w := BitVec.eq_of_toNat_eq (hw'.trans hw.symm)
    rw [hcall, ih]
    rfl

/-- A power of two, or the sum of two different ones. -/
def AtMostTwoBits (M : ℕ) : Prop := ∃ k, M = 2 ^ k ∨ ∃ j < k, M = 2 ^ k + 2 ^ j

/-- The largest power of two up to a multiple of 1 MiB. -/
theorem exists_top {R : ℕ} (hR : 2 ^ 20 ∣ R) (hpos : 0 < R) :
    ∃ j, 20 ≤ j ∧ 2 ^ j ≤ R ∧ R < 2 ^ (j + 1) := by
  refine ⟨Nat.log 2 R, ?_, Nat.pow_log_le_self 2 (by omega), Nat.lt_pow_succ_log_self (by decide) R⟩
  exact Nat.le_log_of_pow_le (by decide) (Nat.le_of_dvd hpos hR)

theorem top_unique {R i j : ℕ} (hi : 2 ^ i ≤ R) (hi' : R < 2 ^ (i + 1)) (hj : 2 ^ j ≤ R)
    (hj' : R < 2 ^ (j + 1)) : i = j := by
  have h1 := (Nat.pow_lt_pow_iff_right (show 1 < 2 by decide)).mp (hi.trans_lt hj')
  have h2 := (Nat.pow_lt_pow_iff_right (show 1 < 2 by decide)).mp (hj.trans_lt hi')
  omega

/-- The two outcomes of the first call, by how many powers of two it takes to make
    up `M`. -/
theorem findMemorySize_cases {r : Ram σ} {M : ℕ} (hr : r.Sized M) (hM : 2 ^ 20 ∣ M)
    (hmin : 2 ^ 20 ≤ M) (hmax : M ≤ 2 ^ 31) (s : σ) :
    (AtMostTwoBits M ∧ ∃ fuel w s', findMemorySize r fuel 0 s = some (w, s') ∧ w.toNat = M) ∨
      (¬ AtMostTwoBits M ∧ ∀ fuel, findMemorySize r fuel 0 s = none) := by
  obtain ⟨k, hk, hkle, hklt⟩ := exists_top hM (by omega)
  have hk31 : k ≤ 31 := by
    by_contra h
    have := Nat.pow_le_pow_right (show 0 < 2 by decide) (show 32 ≤ k by omega)
    omega
  have h0 : (0 : Word).toNat = 0 := rfl
  have hlast : ∀ l, k < l → l ≤ k + (31 - k) → M < (0 : Word).toNat + 2 ^ l := fun l h1 _ => by
    have := Nat.pow_le_pow_right (show 0 < 2 by decide) (show k + 1 ≤ l from h1)
    omega
  have hfirst : (firstSize 0).toNat = 2 ^ (k + (31 - k)) := by
    rw [show k + (31 - k) = 31 by omega]
    rfl
  have hwrap : (0 : Word).toNat + 2 ^ (k + (31 - k)) ≤ 2 ^ 32 := by
    rw [show k + (31 - k) = 31 by omega]
    decide
  by_cases hone : 2 ^ k = M
  · -- all of it is found by the first loop
    obtain ⟨w, s', hw, hcall⟩ := findMemorySize_done hr hM hmax 0 (by decide) hk
      (by omega) hfirst hwrap hlast s (by omega)
    exact Or.inl ⟨⟨k, Or.inl hone.symm⟩, 1, w, s', hcall 0, by rw [hw, hone]⟩
  obtain ⟨w, s', hw, hcall⟩ := findMemorySize_more hr hM hmax 0 (by decide) hk
    (by omega) hfirst hwrap hlast s (by omega)
  obtain ⟨j, hj, hjle, hjlt⟩ := exists_top (R := M - 2 ^ k)
    (Nat.dvd_sub hM (pow_dvd_pow 2 hk)) (by omega)
  have hjk : j < k := by
    have hpow : 2 ^ (k + 1) = 2 ^ k + 2 ^ k := by rw [Nat.pow_succ]; omega
    exact (Nat.pow_lt_pow_iff_right (show 1 < 2 by decide)).mp (by omega)
  have hpos : 0 < 2 ^ k := by positivity
  have hfirst' : (firstSize w).toNat = 2 ^ (j + (k - j)) := by
    rw [firstSize_of_pos (by omega), hw, show j + (k - j) = k by omega]
  have hlast' : ∀ l, j < l → l ≤ j + (k - j) → M < w.toNat + 2 ^ l := fun l h1 _ => by
    have := Nat.pow_le_pow_right (show 0 < 2 by decide) (show j + 1 ≤ l from h1)
    omega
  have hwrap' : w.toNat + 2 ^ (j + (k - j)) ≤ 2 ^ 32 := by
    rw [show j + (k - j) = k by omega, hw]
    omega
  by_cases htwo : 2 ^ k + 2 ^ j = M
  · -- the second call finds the rest
    obtain ⟨w', s'', hw', hcall'⟩ := findMemorySize_done hr hM hmax w
      (by rw [hw]; exact pow_dvd_pow 2 hk) hj (by omega) hfirst' hwrap' hlast' s' (by omega)
    refine Or.inl ⟨⟨k, Or.inr ⟨j, hjk, htwo.symm⟩⟩, 2, w + w', s'', ?_, ?_⟩
    · rw [hcall 1, hcall' 0]
      rfl
    · rw [BitVec.toNat_add, hw, hw', htwo, Nat.mod_eq_of_lt (by omega)]
  · -- the second call makes one that repeats itself
    obtain ⟨w', s'', hw', hcall'⟩ := findMemorySize_more hr hM hmax w
      (by rw [hw]; exact pow_dvd_pow 2 hk) hj (by omega) hfirst' hwrap' hlast' s' (by omega)
    have hle : 2 ^ (j + 1) ≤ 2 ^ k := Nat.pow_le_pow_right (by decide) hjk
    refine Or.inr ⟨?_, fun fuel => ?_⟩
    · rintro ⟨a, ha | ⟨b, hb, ha⟩⟩
      · have hak : a = k := top_unique (R := M) ha.ge (by rw [ha, Nat.pow_succ]; omega) hkle hklt
        exact hone (by rw [ha, hak])
      · have hba : 2 ^ b < 2 ^ a := Nat.pow_lt_pow_right (by decide) hb
        have hbpos : 0 < 2 ^ b := by positivity
        have hak : a = k :=
          top_unique (R := M) (by omega) (by rw [Nat.pow_succ]; omega) hkle hklt
        have hbj : b = j := by
          rw [ha, hak, Nat.add_sub_cancel_left] at hjle hjlt
          exact top_unique le_rfl (Nat.pow_lt_pow_right (by decide) b.lt_succ_self) hjle hjlt
        exact htwo (by rw [ha, hak, hbj])
    · cases fuel with
      | zero => rfl
      | succ fuel =>
        rw [hcall]
        cases fuel with
        | zero => rfl
        | succ fuel =>
          rw [hcall', findMemorySize_repeats hr hM hmax hj (by omega) hw']
          rfl

/-- **The size that is found.** For every size `M` of 1 MiB to 2 GiB that is a
    multiple of 1 MiB, with or without init RAM, `find_memory_size(0)` returns `M`
    if and only if `M` is a power of two or the sum of two; otherwise it does not
    return. -/
theorem findMemorySize_iff {r : Ram σ} {M : ℕ} (hr : r.Sized M) (hM : 2 ^ 20 ∣ M)
    (hmin : 2 ^ 20 ≤ M) (hmax : M ≤ 2 ^ 31) (s : σ) :
    ((∃ fuel w s', findMemorySize r fuel 0 s = some (w, s') ∧ w.toNat = M) ↔ AtMostTwoBits M) ∧
      (¬ AtMostTwoBits M → ∀ fuel, findMemorySize r fuel 0 s = none) := by
  rcases findMemorySize_cases hr hM hmin hmax s with ⟨htwo, hret⟩ | ⟨hmany, hnever⟩
  · exact ⟨iff_of_true hret htwo, fun h => absurd htwo h⟩
  · refine ⟨iff_of_false ?_ hmany, fun _ => hnever⟩
    rintro ⟨fuel, w, s', h, -⟩
    rw [hnever] at h
    simp at h

/-- RAM of `M` bytes, with nothing behind it. -/
def ramOf (M : ℕ) : Ram (Word → Word) where
  store s a v := if a.toNat + 4 ≤ M then Function.update s a v else s
  load s a := if a.toNat + 4 ≤ M then s a else 0

theorem ramOf_sized (M : ℕ) : (ramOf M).Sized M where
  present s a v _ h := by
    show (if a.toNat + 4 ≤ M then (if a.toNat + 4 ≤ M then Function.update s a v else s) a else 0) = v
    rw [if_pos h, if_pos h, Function.update_self]
  absent s a _ h _ := by
    show (if a.toNat + 4 ≤ M then _ else (0 : Word)) ≠ _
    rw [if_neg (by omega)]
    decide

/-- 7 MiB take three powers of two: the size is never returned. -/
theorem sevenMiB_never :
    (ramOf (7 * 2 ^ 20)).Sized (7 * 2 ^ 20) ∧
      ¬ ∃ fuel w s', findMemorySize (ramOf (7 * 2 ^ 20)) fuel 0 (fun _ => 0) = some (w, s') ∧
        w.toNat = 7 * 2 ^ 20 := by
  refine ⟨ramOf_sized _, ?_⟩
  rintro ⟨fuel, w, s', h, -⟩
  rcases findMemorySize_cases (ramOf_sized (7 * 2 ^ 20)) (by decide) (by decide) (by decide)
    (fun _ => 0) with ⟨htwo, -⟩ | ⟨-, hnever⟩
  · revert htwo
    rintro ⟨a, ha⟩
    have hlt : a < 23 := by
      by_contra hge
      have := Nat.pow_le_pow_right (show 0 < 2 by decide) (show 23 ≤ a by omega)
      rcases ha with ha | ⟨b, -, ha⟩
      · omega
      · have hbpos : 0 < 2 ^ b := by positivity
        omega
    revert ha
    have hnone : ∀ a < 23, ¬ (7 * 2 ^ 20 = 2 ^ a ∨ ∃ b < a, 7 * 2 ^ 20 = 2 ^ a + 2 ^ b) := by decide
    exact hnone a hlt
  · rw [hnever] at h
    simp at h

/-- 1.5 GiB, the sum of two, are found. -/
theorem oneAndHalfGiB_found :
    ∃ fuel w s', findMemorySize (ramOf (2 ^ 30 + 2 ^ 29)) fuel 0 (fun _ => 0) = some (w, s') ∧
      w.toNat = 2 ^ 30 + 2 ^ 29 :=
  (findMemorySize_iff (ramOf_sized _) (by decide) (by decide) (by decide) _).1.mpr
    ⟨30, Or.inr ⟨29, by decide, rfl⟩⟩

end BBoot.Boot
