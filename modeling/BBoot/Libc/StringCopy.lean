import BBoot.Common.Copy
import BBoot.Libc.Strings

/-!
# The routines of `string_ppc.S` that copy strings

`strcpy` and the second half of `strcat` are the same lines, so the loop is proved
for any place where they stand (`copy_loop`). The places may overlap as long as no
byte is overwritten before it is read (`Upward`).

Results:
* `strcpy_copies`: the string and its terminator.
* `strcat_appends`: the two strings one after the other.
* `strncpy_copies`: at most `n` bytes, with no padding behind the terminator and
  without a terminator if the string is too long.
-/

namespace BBoot.Libc

open BBoot.Ppc

section CopyLoop

variable {f : Symbol} {i : ℕ} (hlabel : (stringPpc.code f)[i]? = some (.label 1))
  (hops : ((stringPpc.code f).drop (i + 1)).take 3 =
    [.op (.lbzu 0 1 4), .op (.cmpwi 0 0 0), .op (.stbu 0 1 5)])
  (hbne : (stringPpc.code f)[i + 4]? = some (.bne 0 (.back 1)))
  (hjump : ∀ s, stringPpc.jump ⟨f, i + 4⟩ s (.back 1) = .goto ⟨f, i⟩ s)
  (hblr : (stringPpc.code f)[i + 5]? = some .blr)

include hlabel hops hbne hjump hblr

/-- The loop that copies up to a NUL, wherever it stands. -/
theorem copy_loop {s : State} {d q : Word} {bs : List Byte} (hat : BytesAt s.mem q (bs ++ [0]))
    (hnul : 0 ∉ bs) (hup : Upward d q (bs.length + 1)) (hlt : bs.length + 1 ≤ 2 ^ 32)
    (h4 : s.gpr 4 = q - 1) (h5 : s.gpr 5 = d - 1) :
    Returns stringPpc ⟨f, i⟩ s fun s' =>
      s'.mem = writeBytes s.mem d (bs ++ [0]) ∧ s'.gpr 3 = s.gpr 3 := by
  induction bs generalizing s d q with
  | nil =>
    have h0 : s.mem q = 0 := by simpa using hat
    refine returns_label hlabel (returns_ops [.lbzu 0 1 4, .cmpwi 0 0 0, .stbu 0 1 5] hops ?_)
    refine returns_skip hbne ?_ (returns_leave hblr rfl ?_)
    · simp [h4, h0]
    · simp [h4, h5, h0, Op.storeByte]
  | cons b bs ih =>
    obtain ⟨hb, -⟩ := (bytesAt_cons ..).mp hat
    obtain ⟨hb0, hnul⟩ : ¬ 0 = b ∧ 0 ∉ bs := by simpa using hnul
    rw [List.length_cons] at hup hlt
    refine returns_label hlabel (returns_ops [.lbzu 0 1 4, .cmpwi 0 0 0, .stbu 0 1 5] hops ?_)
    have hmem : (Program.execAll s [.lbzu 0 1 4, .cmpwi 0 0 0, .stbu 0 1 5]).mem =
        writeBytes s.mem d [b] := by
      simp [h4, h5, hb, Op.storeByte_setWidth]
    refine returns_goto hbne ?_ (hjump _) (Returns.mono (ih (d := d + 1) (q := q + 1) ?_ hnul
      ((hup.mono (Nat.le_succ _)).add 1) (by omega) ?_ ?_) ?_)
    · simpa [h4, hb] using Ne.symm hb0
    · rw [Test.clear_step, hmem]
      exact BytesAt.behind hat (by simpa using hup) (by simpa using hlt)
    · simp [h4]
    · simp [h5]
    · rintro s' ⟨hm, h3⟩
      rw [Test.clear_step, hmem, writeBytes_cons _ _ (by simpa using hlt)] at hm
      exact ⟨hm, by simpa using h3⟩

end CopyLoop

/-- `strcpy` copies the string with its terminator. -/
theorem strcpy_copies (s : State) (str : CStr) (hat : CStrAt s.mem (s.gpr 4) str)
    (hup : Upward (s.gpr 3) (s.gpr 4) (str.bytes.length + 1)) :
    Returns stringPpc ⟨.strcpy, 0⟩ s fun s' =>
      s'.mem = writeBytes s.mem (s.gpr 3) (str.bytes ++ [0]) ∧ s'.gpr 3 = s.gpr 3 := by
  refine returns_ops [.addi 5 3 (-1), .addi 4 4 (-1)] rfl (Returns.mono
    (copy_loop rfl rfl rfl (fun _ => rfl) rfl hat str.noNul hup hat.length_lt ?_ ?_) ?_)
  · simp
    bv_omega
  · simp
    bv_omega
  · intro s' hs'
    simpa using hs'

theorem strcpy_copies_kx :
    Returns stringPpc ⟨.strcpy, 0⟩ (callOf twoStrings 0x2000 0x1005 0) fun s' =>
      s'.mem = writeBytes twoStrings 0x2000 (kx.bytes ++ [0]) ∧ s'.gpr 3 = 0x2000 :=
  strcpy_copies (callOf twoStrings 0x2000 0x1005 0) kx (by decide) (by decide)

/-- The first loop of `strcat`, which looks for the end of the first string. -/
theorem strcat_end {s : State} {p : Word} {as : List Byte} {Q : State → Prop}
    (hat : BytesAt s.mem p (as ++ [0])) (hnul : 0 ∉ as) (h5 : s.gpr 5 = p - 1)
    (hQ : ∀ t, t.gpr 5 = p + BitVec.ofNat 32 as.length - 1 → t.gpr 3 = s.gpr 3 →
      t.gpr 4 = s.gpr 4 → t.mem = s.mem → Returns stringPpc ⟨.strcat, 7⟩ t Q) :
    Returns stringPpc ⟨.strcat, 2⟩ s Q := by
  induction as generalizing s p with
  | nil =>
    have h0 : s.mem p = 0 := by simpa using hat
    refine returns_label rfl (returns_ops [.lbzu 0 1 5, .cmpwi 0 0 0] rfl ?_)
    refine returns_skip rfl ?_ (returns_ops [.addi 5 5 (-1)] rfl (hQ _ ?_ ?_ ?_ ?_))
    · simp [h5, h0]
    · simp [h5]
      bv_omega
    · simp
    · simp
    · simp
  | cons a as ih =>
    obtain ⟨ha, hrest⟩ := (bytesAt_cons ..).mp hat
    obtain ⟨ha0, hnul⟩ : ¬ 0 = a ∧ 0 ∉ as := by simpa using hnul
    refine returns_label rfl (returns_ops [.lbzu 0 1 5, .cmpwi 0 0 0] rfl ?_)
    refine returns_goto (q := ⟨.strcat, 2⟩) rfl ?_ rfl (ih (p := p + 1) hrest hnul ?_ ?_)
    · simpa [h5, ha] using Ne.symm ha0
    · simp [h5]
    · intro t h5' h3 h4 hm
      refine hQ t ?_ (by simpa using h3) (by simpa using h4) (by simpa using hm)
      rw [h5', List.length_cons, ofNat_succ]
      bv_omega

/-- `strcat` puts the second string behind the first one. -/
theorem strcat_appends (s : State) (a b : CStr) (ha : CStrAt s.mem (s.gpr 3) a)
    (hb : CStrAt s.mem (s.gpr 4) b) (hlt : a.bytes.length + b.bytes.length + 1 ≤ 2 ^ 32)
    (hup : Upward (s.gpr 3 + BitVec.ofNat 32 a.bytes.length) (s.gpr 4) (b.bytes.length + 1)) :
    Returns stringPpc ⟨.strcat, 0⟩ s fun s' =>
      s'.mem = writeBytes s.mem (s.gpr 3 + BitVec.ofNat 32 a.bytes.length) (b.bytes ++ [0]) ∧
      BytesAt s'.mem (s.gpr 3) (a.bytes ++ b.bytes ++ [0]) ∧ s'.gpr 3 = s.gpr 3 := by
  refine returns_ops [.addi 5 3 (-1), .addi 4 4 (-1)] rfl
    (strcat_end (p := s.gpr 3) ha a.noNul ?_ ?_)
  · simp
    bv_omega
  · intro t h5 h3 h4 hm
    have hmem : t.mem = s.mem := by simpa using hm
    rw [← hmem] at ha hb
    refine (copy_loop rfl rfl rfl (fun _ => rfl) rfl hb b.noNul hup hb.length_lt ?_ h5).mono ?_
    · rw [h4]
      simp
      bv_omega
    · rintro s' ⟨hs', h3'⟩
      rw [hmem] at hs'
      refine ⟨hs', ?_, h3'.trans (by simpa using h3)⟩
      rw [List.append_assoc, bytesAt_append, hs']
      refine ⟨?_, bytesAt_writeBytes _ (by simp; omega)⟩
      have hfirst : BytesAt s.mem (s.gpr 3) a.bytes :=
        ((bytesAt_append _ _ a.bytes [0]).mp (hmem ▸ ha)).1
      unfold BytesAt at hfirst ⊢
      rw [readBytes_write_off, hfirst]
      intro i hi
      rw [List.length_append, List.length_singleton]
      bv_omega

theorem strcat_appends_kx :
    Returns stringPpc ⟨.strcat, 0⟩ (callOf twoStrings 0x1005 0x1000 0) fun s' =>
      s'.mem = writeBytes twoStrings (0x1005 + BitVec.ofNat 32 kx.bytes.length)
        (kxSlash.bytes ++ [0]) ∧
      BytesAt s'.mem 0x1005 (kx.bytes ++ kxSlash.bytes ++ [0]) ∧ s'.gpr 3 = 0x1005 :=
  strcat_appends (callOf twoStrings 0x1005 0x1000 0) kx kxSlash (by decide) (by decide) (by decide)
    (by decide)

/-- The loop of `strncpy`, with `n + 1` bytes to copy at most. -/
theorem strncpy_loop {s : State} {d q : Word} {bs : List Byte} {n : ℕ}
    (hat : BytesAt s.mem q (bs ++ [0])) (hnul : 0 ∉ bs) (hup : Upward d q (bs.length + 1))
    (hlt : bs.length + 1 ≤ 2 ^ 32) (h4 : s.gpr 4 = q - 1) (h6 : s.gpr 6 = d - 1)
    (hctr : s.ctr = BitVec.ofNat 32 (n + 1)) (hn : n + 1 < 2 ^ 32) :
    Returns stringPpc ⟨.strncpy, 5⟩ s fun s' =>
      s'.mem = writeBytes s.mem d ((bs ++ [0]).take (n + 1)) ∧ s'.gpr 3 = s.gpr 3 := by
  induction bs generalizing s d q n with
  | nil =>
    have h0 : s.mem q = 0 := by simpa using hat
    refine returns_label rfl (returns_ops [.lbzu 0 1 4, .cmpwi 0 0 0, .stbu 0 1 6] rfl ?_)
    refine returns_skip rfl ?_ (returns_leave rfl rfl ?_)
    · simp [h4, h0]
    · simp [h4, h6, h0, Op.storeByte]
  | cons b bs ih =>
    obtain ⟨hb, -⟩ := (bytesAt_cons ..).mp hat
    obtain ⟨hb0, hnul⟩ : ¬ 0 = b ∧ 0 ∉ bs := by simpa using hnul
    rw [List.length_cons] at hup hlt
    have hmem : (Program.execAll s [.lbzu 0 1 4, .cmpwi 0 0 0, .stbu 0 1 6]).mem =
        writeBytes s.mem d [b] := by
      simp [h4, h6, hb, Op.storeByte_setWidth]
    refine returns_label rfl (returns_ops [.lbzu 0 1 4, .cmpwi 0 0 0, .stbu 0 1 6] rfl ?_)
    cases n with
    | zero =>
      refine returns_skip rfl ?_ (returns_leave rfl rfl ⟨?_, ?_⟩)
      · simp [hctr]
      · simpa using hmem
      · simp
    | succ n =>
      refine returns_goto (q := ⟨.strncpy, 5⟩) rfl ?_ rfl (Returns.mono (ih (d := d + 1)
        (q := q + 1) (n := n) ?_ hnul ((hup.mono (Nat.le_succ _)).add 1) (by omega) ?_ ?_ ?_
        (by omega)) ?_)
      · have hpos := ctr_more hctr (by omega)
        simpa [h4, hb, hb0] using ⟨hpos, Ne.symm hb0⟩
      · rw [Test.dnzf_step]
        dsimp only
        rw [hmem]
        exact BytesAt.behind hat (by simpa using hup) (by simpa using hlt)
      · simp [h4]
      · simp [h6]
      · simpa using ctr_last hctr
      · rintro s' ⟨hm, h3⟩
        rw [Test.dnzf_step] at hm
        dsimp only at hm
        rw [hmem, writeBytes_cons _ _ (by simp at hlt ⊢; omega)] at hm
        exact ⟨hm, by simpa using h3⟩

/-- `strncpy` copies `n` bytes of the string and its terminator at most, and writes
    nothing else. -/
theorem strncpy_copies (s : State) (str : CStr) (hat : CStrAt s.mem (s.gpr 4) str)
    (hup : Upward (s.gpr 3) (s.gpr 4) (str.bytes.length + 1)) :
    Returns stringPpc ⟨.strncpy, 0⟩ s fun s' =>
      s'.mem = writeBytes s.mem (s.gpr 3) ((str.bytes ++ [0]).take (s.gpr 5).toNat) ∧
      s'.gpr 3 = s.gpr 3 := by
  refine returns_ops [.cmpwi 0 5 0] rfl ?_
  by_cases h5 : s.gpr 5 = 0
  · refine returns_leave rfl ?_ ?_
    · simp [h5]
    · simp [h5]
  · obtain ⟨n, hn⟩ : ∃ n, (s.gpr 5).toNat = n + 1 :=
      Nat.exists_eq_succ_of_ne_zero fun h => h5 (BitVec.eq_of_toNat_eq h)
    have hlt := (s.gpr 5).isLt
    refine returns_skip rfl ?_ (returns_ops [.mtctr 5, .addi 6 3 (-1), .addi 4 4 (-1)] rfl
      (Returns.mono (strncpy_loop (d := s.gpr 3) (n := n) hat str.noNul hup hat.length_lt ?_ ?_ ?_
        (by omega)) ?_))
    · simpa using h5
    · simp
      bv_omega
    · simp
      bv_omega
    · rw [← hn]
      simp
    · intro s' hs'
      rw [hn]
      simpa using hs'

theorem strncpy_copies_kx :
    Returns stringPpc ⟨.strncpy, 0⟩ (callOf twoStrings 0x2000 0x1000 2) fun s' =>
      s'.mem = writeBytes twoStrings 0x2000 ((kxSlash.bytes ++ [0]).take (2 : Word).toNat) ∧
      s'.gpr 3 = 0x2000 :=
  strncpy_copies (callOf twoStrings 0x2000 0x1000 2) kxSlash (by decide) (by decide)

end BBoot.Libc
