import BBoot.Boot.Zipkick
import BBoot.Libc.StringPpc

/-!
# The routines of `string_ppc.S` that read

Each is proved against the function the model of the C code uses in its place.
`strcmp`, `strncmp` and `memcmp` return the difference of the first two bytes that
differ (`difference`). With a length of zero `strncmp` and `memcmp` leave `r3`, the
pointer, as it is; `memcmp` takes lengths from `2^31` on for that.

Results:
* `strlen_iff`: `strlen` returns iff there is a NUL.
* `strchr_scan`, `strrchr_fileName`: the first and the last occurrence.
* `strcmp_order`: the order of two strings.
* `strncmp_difference`, `memcmp_difference`: at most `n` bytes are compared.
-/

namespace BBoot.Libc

open BBoot.Ppc BBoot.Boot

/-- Bytes that are loaded are compared as words. -/
@[simp] theorem setWidth_inj (a b : Byte) : a.setWidth 32 = (b.setWidth 32 : Word) ↔ a = b := by
  constructor
  · intro h
    bv_omega
  · rintro rfl
    rfl

/-- The string `"kx/k"` at `0x1000` and `"kx"` at `0x1005`. -/
def twoStrings : Mem := memOf 0x1000 [0x6b, 0x78, 0x2f, 0x6b, 0, 0x6b, 0x78, 0]

/-- `"kx/k"`. -/
def kxSlash : CStr := ⟨[0x6b, 0x78, 0x2f, 0x6b], by decide⟩

/-- `"kx"`. -/
def kx : CStr := ⟨[0x6b, 0x78], by decide⟩

/-- A call with three arguments. -/
def callOf (m : Mem) (r3 r4 r5 : Word) : State where
  gpr r := if r = 3 then r3 else if r = 4 then r4 else if r = 5 then r5 else 0
  lr := 0
  ctr := 0
  cr _ := ⟨false, false, false⟩
  mem := m

/-! ## `strlen` -/

/-- The loop, at a byte `q` with the terminator `n` bytes ahead. -/
theorem strlen_loop {s : State} {q : Word} {fuel n : ℕ} (hn : nulIndex s.mem q fuel = some n)
    (h4 : s.gpr 4 = q - 1) :
    Returns stringPpc ⟨.strlen, 1⟩ s fun s' =>
      s'.gpr 3 = q + BitVec.ofNat 32 n - s.gpr 3 ∧ s'.mem = s.mem := by
  induction fuel generalizing s q n with
  | zero => simp [nulIndex] at hn
  | succ fuel ih =>
    rw [nulIndex] at hn
    refine returns_label rfl (returns_ops [.lbzu 0 1 4, .cmpwi 0 0 0] rfl ?_)
    split_ifs at hn with h0
    · obtain rfl : 0 = n := by simpa using hn
      refine returns_skip rfl ?_ (returns_ops [.subf 3 3 4] rfl (returns_leave rfl rfl ?_))
      · simp [h4, h0]
      · simp [h4]
    · obtain ⟨k, hk, rfl⟩ := Option.map_eq_some_iff.mp hn
      refine returns_goto (q := ⟨.strlen, 1⟩) rfl ?_ rfl (Returns.mono (ih hk ?_) ?_)
      · simpa [h4] using h0
      · simp [h4]
      · intro s' hs'
        refine ⟨?_, by simpa using hs'.2⟩
        rw [hs'.1, ofNat_succ]
        simp
        bv_omega

/-- Without a NUL the loop does not end. -/
theorem strlen_endless {s : State} {Q : State → Prop} (h : ∀ a, s.mem a ≠ 0) :
    ¬ Returns stringPpc ⟨.strlen, 1⟩ s Q := by
  apply not_returns (fun t => t.mem = s.mem) ?_ rfl
  intro t ht
  refine ⟨3, _, Program.steps_succ rfl <| Program.steps_succ rfl <| Program.steps_succ rfl <|
    Program.steps_succ (if_pos ?_) rfl, ?_⟩
  · have := h (t.gpr 4 + 1)
    simpa [ht] using this
  · simpa using ht

theorem nulIndex_lt {m : Mem} {p : Word} {fuel n : ℕ} (h : nulIndex m p fuel = some n) : n < fuel := by
  induction fuel generalizing p n with
  | zero => simp [nulIndex] at h
  | succ fuel ih =>
    rw [nulIndex] at h
    split_ifs at h
    · obtain rfl : 0 = n := by simpa using h
      exact Nat.succ_pos _
    · obtain ⟨k, hk, rfl⟩ := Option.map_eq_some_iff.mp h
      exact Nat.succ_lt_succ (ih hk)

theorem nulIndex_none {m : Mem} {p : Word} {fuel : ℕ} (h : nulIndex m p fuel = none) {i : ℕ}
    (hi : i < fuel) : m (p + BitVec.ofNat 32 i) ≠ 0 := by
  induction fuel generalizing p i with
  | zero => omega
  | succ fuel ih =>
    rw [nulIndex] at h
    split_ifs at h with h0
    cases i with
    | zero => simpa using h0
    | succ i =>
      have := ih (Option.map_eq_none_iff.mp h) (Nat.lt_of_succ_lt_succ hi)
      rwa [BitVec.add_assoc, BitVec.add_comm 1, ← ofNat_succ] at this

/-- `strlen` returns iff the string ends, and returns its length. -/
theorem strlen_iff (s : State) (n : ℕ) :
    (strlen s.mem (s.gpr 3)).val = some n ↔
      n < 2 ^ 32 ∧ Returns stringPpc ⟨.strlen, 0⟩ s fun s' =>
        s'.gpr 3 = BitVec.ofNat 32 n ∧ s'.mem = s.mem := by
  have hval : (strlen s.mem (s.gpr 3)).val = nulIndex s.mem (s.gpr 3) (2 ^ 32) := by
    unfold strlen
    split <;> simp_all
  have hback : ∀ k, nulIndex s.mem (s.gpr 3) (2 ^ 32) = some k →
      Returns stringPpc ⟨.strlen, 0⟩ s fun s' =>
        s'.gpr 3 = BitVec.ofNat 32 k ∧ s'.mem = s.mem := by
    intro k hk
    refine returns_ops [.addi 4 3 (-1)] rfl (Returns.mono (strlen_loop hk ?_) ?_)
    · simp
      bv_omega
    · intro s' hs'
      refine ⟨?_, by simpa using hs'.2⟩
      rw [hs'.1]
      simp
  rw [hval]
  constructor
  · intro hn
    exact ⟨nulIndex_lt hn, hback n hn⟩
  · rintro ⟨hn, h⟩
    cases hk : nulIndex s.mem (s.gpr 3) (2 ^ 32) with
    | none =>
      have hnul : ∀ a, s.mem a ≠ 0 := by
        intro a
        have := nulIndex_none hk (a - s.gpr 3).isLt
        rwa [BitVec.ofNat_toNat, BitVec.setWidth_eq, BitVec.add_comm, BitVec.sub_add_cancel] at this
      exact absurd (h.step rfl) (strlen_endless hnul)
    | some k =>
      obtain ⟨_, t, -, ⟨h1, -⟩, h2, -⟩ := h.unique (hback k hk)
      have hlt := nulIndex_lt hk
      rw [h1] at h2
      have := congrArg BitVec.toNat h2
      rw [BitVec.toNat_ofNat, BitVec.toNat_ofNat, Nat.mod_eq_of_lt hn, Nat.mod_eq_of_lt hlt] at this
      rw [this]

/-! ## `strchr` and `strrchr` -/

/-- The loop, at a byte `q` from which on `e` is the first to be `w` or a NUL. -/
theorem strchr_loop {s : State} {q e : Word} {n : ℕ}
    (hn : scan (fun b => b.setWidth 32 = s.gpr 4 ∨ b = 0) s.mem n q = some e)
    (h3 : s.gpr 3 = q - 1) :
    Returns stringPpc ⟨.strchr, 1⟩ s fun s' =>
      s'.gpr 3 = (if (s.mem e).setWidth 32 = s.gpr 4 then e else 0) ∧ s'.mem = s.mem := by
  induction n generalizing s q with
  | zero => simp [scan] at hn
  | succ n ih =>
    rw [scan] at hn
    refine returns_label rfl (returns_ops [.lbzu 0 1 3, .cmpw 0 0 4, .cmpwi 1 0 0] rfl ?_)
    by_cases hw : (s.mem q).setWidth 32 = s.gpr 4
    · obtain rfl : q = e := by simpa [hw] using hn
      refine returns_leave rfl ?_ ?_
      · simp [h3, hw]
      · simp [h3, hw]
    · refine returns_skip rfl ?_ ?_
      · simpa [h3] using hw
      · by_cases h0 : s.mem q = 0
        · obtain rfl : q = e := by simpa [h0] using hn
          refine returns_skip rfl ?_ (returns_ops [.li 3 0] rfl (returns_leave rfl rfl ?_))
          · simp [h3, h0]
          · simp [hw]
        · refine returns_goto (q := ⟨.strchr, 1⟩) rfl ?_ rfl (Returns.mono (ih (q := q + 1) ?_ ?_) ?_)
          · simpa [h3] using h0
          · have hstop : ¬ decide ((s.mem q).setWidth 32 = s.gpr 4 ∨ s.mem q = 0) = true := by
              simpa [hw] using h0
            rw [if_neg hstop] at hn
            exact hn
          · simp [h3]
          · intro s' hs'
            simpa using hs'

/-- `strchr` returns what the model of the callers takes it for, NULL if there is no
    such byte. -/
theorem strchr_scan (s : State) (c : Byte) (r : Option Word) (h4 : s.gpr 4 = c.setWidth 32)
    (h : (strchr (s.gpr 3) c s.mem).val = some r) :
    Returns stringPpc ⟨.strchr, 0⟩ s fun s' => s'.gpr 3 = r.getD 0 ∧ s'.mem = s.mem := by
  obtain ⟨e, he, hr⟩ := Option.map_eq_some_iff.mp h
  have hfun : (fun b : Byte => decide (b = c ∨ b = 0)) =
      fun b : Byte => decide (b.setWidth 32 = s.gpr 4 ∨ b = 0) := by
    funext b
    simp only [h4, setWidth_inj]
  rw [hfun] at he
  refine returns_ops [.addi 3 3 (-1)] rfl (Returns.mono (strchr_loop (q := s.gpr 3) (e := e)
    (n := 2 ^ 32) ?_ ?_) ?_)
  · simpa using he
  · simp
    bv_omega
  · intro s' hs'
    have hw : (s.mem e).setWidth 32 = s.gpr 4 ↔ s.mem e = c := by rw [h4, setWidth_inj]
    refine ⟨?_, by simpa using hs'.2⟩
    have h3 : s'.gpr 3 = if (s.mem e).setWidth 32 = s.gpr 4 then e else 0 := by simpa using hs'.1
    rw [h3, ← hr]
    by_cases hc : s.mem e = c
    · rw [if_pos (hw.mpr hc), if_pos hc]
      rfl
    · rw [if_neg (mt hw.mp hc), if_neg hc]
      rfl

theorem strchr_scan_slash :
    Returns stringPpc ⟨.strchr, 0⟩ (callOf twoStrings 0x1000 0x2f 0) fun s' =>
      s'.gpr 3 = 0x1002 ∧ s'.mem = twoStrings := by
  refine strchr_scan _ 0x2f (some 0x1002) rfl ?_
  have hfuel : (2 : ℕ) ^ 32 = 4294967293 + 1 + 1 + 1 := by norm_num
  show (scan (fun b => b = 0x2f ∨ b = 0) twoStrings (2 ^ 32) 0x1000).map _ = _
  rw [hfuel]
  rfl

/-- The loop, with `bs` ahead: `r3` keeps the last occurrence so far. -/
theorem strrchr_loop {s : State} {q : Word} {c : Byte} {bs : List Byte}
    (hat : BytesAt s.mem q (bs ++ [0])) (hnul : 0 ∉ bs) (h5 : s.gpr 5 = q - 1)
    (h4 : s.gpr 4 = c.setWidth 32) :
    Returns stringPpc ⟨.strrchr, 2⟩ s fun s' =>
      s'.mem = s.mem ∧ (c ∉ bs → s'.gpr 3 = s.gpr 3) ∧
      ∀ xs ys, bs = xs ++ c :: ys → c ∉ ys → s'.gpr 3 = q + BitVec.ofNat 32 xs.length := by
  induction bs generalizing s q with
  | nil =>
    have h0 : s.mem q = 0 := by simpa using hat
    refine returns_label rfl (returns_ops [.lbzu 0 1 5, .cmpwi 0 0 0, .cmpw 1 0 4] rfl ?_)
    refine returns_leave rfl ?_ ?_
    · simp [h5, h0]
    · simp
  | cons b bs ih =>
    obtain ⟨hb, hrest⟩ := (bytesAt_cons ..).mp hat
    obtain ⟨hb0, hnul⟩ : ¬ 0 = b ∧ 0 ∉ bs := by simpa using hnul
    refine returns_label rfl (returns_ops [.lbzu 0 1 5, .cmpwi 0 0 0, .cmpw 1 0 4] rfl ?_)
    refine returns_skip rfl ?_ ?_
    · simpa [h5, hb] using Ne.symm hb0
    by_cases hc : b = c
    · refine returns_skip rfl ?_ (returns_ops [.mr 3 5] rfl ?_)
      · simp [h5, h4, hb, hc]
      refine returns_goto (q := ⟨.strrchr, 2⟩) rfl rfl rfl (Returns.mono (ih hrest hnul ?_ ?_) ?_)
      · simp [h5]
      · simpa using h4
      · rintro s' ⟨hm, hno, hyes⟩
        refine ⟨by simpa using hm, fun hn => absurd hc.symm (by simp at hn; exact hn.1), ?_⟩
        intro xs ys he hys
        cases xs with
        | nil =>
          obtain ⟨-, rfl⟩ := List.cons.inj he
          rw [hno hys]
          simp [h5]
        | cons x xs =>
          obtain ⟨-, he⟩ := List.cons.inj he
          rw [hyes xs ys he hys, List.length_cons, ofNat_succ]
          bv_omega
    · refine returns_goto (q := ⟨.strrchr, 2⟩) rfl ?_ rfl (Returns.mono (ih hrest hnul ?_ ?_) ?_)
      · simpa [h5, h4, hb] using hc
      · simp [h5]
      · simpa using h4
      · rintro s' ⟨hm, hno, hyes⟩
        refine ⟨by simpa using hm, fun hn => ?_, ?_⟩
        · rw [hno (fun h => hn (List.mem_cons_of_mem b h))]
          simp
        · intro xs ys he hys
          cases xs with
          | nil => exact absurd (List.cons.inj he).1 hc
          | cons x xs =>
            obtain ⟨-, he⟩ := List.cons.inj he
            rw [hyes xs ys he hys, List.length_cons, ofNat_succ]
            bv_omega

/-- `strrchr` returns the last occurrence, or NULL. The terminator is never found:
    the loop looks for it first. -/
theorem strrchr_returns (s : State) (str : CStr) (c : Byte) (hat : CStrAt s.mem (s.gpr 3) str)
    (h4 : s.gpr 4 = c.setWidth 32) :
    Returns stringPpc ⟨.strrchr, 0⟩ s fun s' =>
      s'.mem = s.mem ∧ (c ∉ str.bytes → s'.gpr 3 = 0) ∧
      ∀ xs ys, str.bytes = xs ++ c :: ys → c ∉ ys →
        s'.gpr 3 = s.gpr 3 + BitVec.ofNat 32 xs.length := by
  refine returns_ops [.addi 5 3 (-1), .li 3 0] rfl
    (Returns.mono (strrchr_loop (q := s.gpr 3) (c := c) hat str.noNul ?_ ?_) ?_)
  · simp
    bv_omega
  · simpa using h4
  · rintro s' ⟨hm, hno, hyes⟩
    exact ⟨by simpa using hm, fun hn => by simpa using hno hn, hyes⟩

theorem fileName_none {path : List Byte} (h : 0x2f ∉ path) : fileName path = path := by
  have hall : path.reverse.takeWhile (· ≠ (0x2f : Byte)) = path.reverse := by
    rw [List.takeWhile_eq_self_iff]
    intro b hb
    have hne : b ≠ 0x2f := fun he => h (he ▸ List.mem_reverse.mp hb)
    simpa using hne
  rw [fileName, hall, List.reverse_reverse]

theorem fileName_last {xs ys : List Byte} (h : 0x2f ∉ ys) : fileName (xs ++ 0x2f :: ys) = ys := by
  have hrev : (xs ++ 0x2f :: ys).reverse = ys.reverse ++ 0x2f :: xs.reverse := by simp
  have hall : ∀ b ∈ ys.reverse, decide (b ≠ (0x2f : Byte)) = true := by
    intro b hb
    have hne : b ≠ 0x2f := fun he => h (he ▸ List.mem_reverse.mp hb)
    simpa using hne
  rw [fileName, hrev, List.takeWhile_append_of_pos hall, List.takeWhile_cons_of_neg (by simp),
    List.append_nil, List.reverse_reverse]

/-- `name = strrchr(path, '/'); if (name) name++; else name = path;` is the name of the
    file (`src/boot_aos.c` lines 51–52). -/
theorem strrchr_fileName (s : State) (path : CStr) (hat : CStrAt s.mem (s.gpr 3) path)
    (h4 : s.gpr 4 = 0x2f) (h0 : s.gpr 3 ≠ 0)
    (hfit : (s.gpr 3).toNat + path.bytes.length ≤ 2 ^ 32) :
    Returns stringPpc ⟨.strrchr, 0⟩ s fun s' =>
      s'.mem = s.mem ∧ (if s'.gpr 3 = 0 then s.gpr 3 else s'.gpr 3 + 1) =
        s.gpr 3 + BitVec.ofNat 32 (path.bytes.length - (fileName path.bytes).length) := by
  refine (strrchr_returns s path 0x2f hat (by rw [h4]; rfl)).mono ?_
  rintro s' ⟨hm, hno, hyes⟩
  refine ⟨hm, ?_⟩
  by_cases hc : (0x2f : Byte) ∈ path.bytes
  · obtain ⟨as, bs, he, has⟩ := List.eq_append_cons_of_mem (List.mem_reverse.mpr hc)
    have hpath : path.bytes = bs.reverse ++ 0x2f :: as.reverse := by
      rw [← List.reverse_reverse path.bytes, he]
      simp
    have hys : 0x2f ∉ as.reverse := fun h => has (List.mem_reverse.mp h)
    have h3 := hyes _ _ hpath hys
    have hlen : path.bytes.length = bs.reverse.length + 1 + as.reverse.length := by
      rw [hpath, List.length_append, List.length_cons]
      omega
    have hne : s'.gpr 3 ≠ 0 := by
      have hto : (s'.gpr 3).toNat = (s.gpr 3).toNat + bs.reverse.length := by
        rw [h3]
        exact toNat_add_ofNat (n := bs.reverse.length + 1) (by omega) (by omega)
      intro hz
      rw [hz, show (0 : Word).toNat = 0 from rfl] at hto
      apply h0
      apply BitVec.eq_of_toNat_eq
      show (s.gpr 3).toNat = 0
      omega
    have hoff : path.bytes.length - (fileName path.bytes).length = bs.reverse.length + 1 := by
      rw [hpath, fileName_last hys, ← hpath, hlen]
      omega
    rw [if_neg hne, h3, hoff, ofNat_succ, BitVec.add_assoc]
  · rw [hno hc, if_pos rfl, fileName_none hc, Nat.sub_self]
    simp

theorem strrchr_fileName_kxSlash :
    Returns stringPpc ⟨.strrchr, 0⟩ (callOf twoStrings 0x1000 0x2f 0) fun s' =>
      s'.mem = twoStrings ∧ (if s'.gpr 3 = 0 then 0x1000 else s'.gpr 3 + 1) =
        0x1000 + BitVec.ofNat 32 (kxSlash.bytes.length - (fileName kxSlash.bytes).length) :=
  strrchr_fileName (callOf twoStrings 0x1000 0x2f 0) kxSlash (by decide) rfl (by decide) (by decide)

/-! ## Comparisons -/

/-- The difference of the first byte that differs from the ones that are expected. -/
def difference (m : Mem) : Word → List Byte → Word
  | _, [] => 0
  | p, c :: cs =>
    if m p = c then difference m (p + 1) cs else (m p).setWidth 32 - c.setWidth 32

theorem sub_setWidth_eq_zero (a b : Byte) : a.setWidth 32 - b.setWidth 32 = (0 : Word) ↔ a = b := by
  rw [BitVec.sub_eq_iff_eq_add, ← setWidth_inj a b]
  simp

/-- There is no difference iff the bytes are the ones expected. -/
theorem difference_eq_zero (m : Mem) (p : Word) (cs : List Byte) :
    difference m p cs = 0 ↔ BytesAt m p cs := by
  induction cs generalizing p with
  | nil => simp [difference]
  | cons c cs ih =>
    rw [difference, bytesAt_cons]
    split_ifs with hc
    · rw [ih]
      exact ⟨fun h => ⟨hc, h⟩, fun h => h.2⟩
    · rw [sub_setWidth_eq_zero]
      exact ⟨fun h => absurd h hc, fun h => h.1⟩

/-- The sign of a difference of two bytes. -/
theorem sub_setWidth_neg (a b : Byte) :
    (a.setWidth 32 - b.setWidth 32 : Word).toInt < 0 ↔ a < b := by
  have ha := a.isLt
  have hb := b.isLt
  rw [BitVec.toInt_eq_toNat_cond, BitVec.lt_def]
  have hval : (a.setWidth 32 - b.setWidth 32 : Word).toNat =
      if a.toNat < b.toNat then 2 ^ 32 + a.toNat - b.toNat else a.toNat - b.toNat := by
    rw [BitVec.toNat_sub]
    simp only [BitVec.toNat_setWidth]
    split_ifs <;> omega
  rw [hval]
  split_ifs <;> omega

/-- The difference is negative iff the bytes in memory come before the ones expected. -/
theorem difference_neg (m : Mem) (p : Word) (cs : List Byte) :
    (difference m p cs).toInt < 0 ↔ readBytes m p cs.length < cs := by
  induction cs generalizing p with
  | nil => simp [difference, readBytes]
  | cons c cs ih =>
    rw [difference, List.length_cons, readBytes, List.cons_lt_cons_iff]
    split_ifs with hc
    · rw [ih]
      simp [hc]
    · rw [sub_setWidth_neg]
      simp [hc]

/-- One round of `strcmp` at two bytes that differ. -/
theorem strcmp_differ {s : State} {p q : Word} (hne : s.mem p ≠ s.mem q) (h5 : s.gpr 5 = p - 1)
    (h4 : s.gpr 4 = q - 1) :
    Returns stringPpc ⟨.strcmp, 2⟩ s fun s' =>
      s'.gpr 3 = (s.mem p).setWidth 32 - (s.mem q).setWidth 32 ∧ s'.mem = s.mem := by
  refine returns_label rfl (returns_ops [.lbzu 3 1 5, .cmpwi 1 3 0, .lbzu 0 1 4, .subfRc 3 0 3]
    rfl ?_)
  by_cases h0 : s.mem p = 0
  · refine returns_leave rfl ?_ ?_
    · simp [h5, h0]
    · simp [h5, h4]
  · refine returns_skip rfl ?_ (returns_skip rfl ?_ (returns_leave rfl rfl ?_))
    · simpa [h5] using h0
    · have := mt (sub_setWidth_eq_zero (s.mem p) (s.mem q)).mp hne
      simpa [h5, h4] using this
    · simp [h5, h4]

theorem strcmp_loop {s : State} {p q : Word} {cs : List Byte} (hq : BytesAt s.mem q (cs ++ [0]))
    (hnul : 0 ∉ cs) (h5 : s.gpr 5 = p - 1) (h4 : s.gpr 4 = q - 1) :
    Returns stringPpc ⟨.strcmp, 2⟩ s fun s' =>
      s'.gpr 3 = difference s.mem p (cs ++ [0]) ∧ s'.mem = s.mem := by
  induction cs generalizing s p q with
  | nil =>
    have hq0 : s.mem q = 0 := by simpa using hq
    by_cases hc : s.mem p = 0
    · refine returns_label rfl (returns_ops
        [.lbzu 3 1 5, .cmpwi 1 3 0, .lbzu 0 1 4, .subfRc 3 0 3] rfl ?_)
      refine returns_leave rfl ?_ ?_
      · simp [h5, hc]
      · simp [h5, h4, hc, hq0, difference]
    · refine (strcmp_differ (by rwa [hq0]) h5 h4).mono fun s' hs' => ?_
      rw [List.nil_append, difference, if_neg hc, hs'.1, hq0]
      exact ⟨rfl, hs'.2⟩
  | cons c cs ih =>
    obtain ⟨hc, hrest⟩ := (bytesAt_cons ..).mp hq
    obtain ⟨hc0, hnul⟩ : ¬ 0 = c ∧ 0 ∉ cs := by simpa using hnul
    rw [List.cons_append, difference]
    by_cases hp : s.mem p = c
    · rw [if_pos hp]
      refine returns_label rfl (returns_ops
        [.lbzu 3 1 5, .cmpwi 1 3 0, .lbzu 0 1 4, .subfRc 3 0 3] rfl ?_)
      refine returns_skip rfl ?_ (returns_goto (q := ⟨.strcmp, 2⟩) rfl ?_ rfl
        (Returns.mono (ih (p := p + 1) hrest hnul ?_ ?_) ?_))
      · simpa [h5, hp] using Ne.symm hc0
      · simp [h5, h4, hp, hc]
      · simp [h5]
      · simp [h4]
      · intro s' hs'
        simpa using hs'
    · rw [if_neg hp]
      refine (strcmp_differ (by rwa [hc]) h5 h4).mono fun s' hs' => ?_
      rwa [hc] at hs'

theorem commonPrefix_all (m : Mem) (p : Word) (cs : List Byte) :
    (commonPrefix m p cs).2 = decide (BytesAt m p (cs ++ [0])) := by
  induction cs generalizing p with
  | nil => simp [commonPrefix]
  | cons c cs ih =>
    have hiff : BytesAt m p (c :: (cs ++ [0])) ↔ m p = c ∧ BytesAt m (p + 1) (cs ++ [0]) :=
      bytesAt_cons ..
    rw [commonPrefix, List.cons_append]
    split_ifs with hc
    · rw [ih]
      exact decide_eq_decide.mpr ⟨fun h => hiff.mpr ⟨hc, h⟩, fun h => (hiff.mp h).2⟩
    · exact (decide_eq_false fun h => hc (hiff.mp h).1).symm

/-- Two strings are ordered as the difference of their bytes is signed. -/
theorem difference_order {m : Mem} {p : Word} {as cs : List Byte} (hat : BytesAt m p (as ++ [0]))
    (ha : 0 ∉ as) (hc : 0 ∉ cs) : (difference m p (cs ++ [0])).toInt < 0 ↔ as < cs := by
  induction cs generalizing p as with
  | nil =>
    rw [List.nil_append, difference]
    split_ifs with h0
    · simp [difference]
    · rw [sub_setWidth_neg]
      simp
  | cons c cs ih =>
    obtain ⟨hc0, hc⟩ : ¬ 0 = c ∧ 0 ∉ cs := by simpa using hc
    rw [List.cons_append, difference]
    cases as with
    | nil =>
      have h0 : m p = 0 := by simpa using hat
      rw [h0, if_neg hc0, sub_setWidth_neg]
      have hpos : (0 : Byte) < c := by
        rw [BitVec.lt_def]
        have : c.toNat ≠ 0 := fun h => hc0 (BitVec.eq_of_toNat_eq h.symm)
        show 0 < c.toNat
        omega
      simp only [hpos, List.nil_lt_cons]
    | cons a as =>
      obtain ⟨hb, hrest⟩ := (bytesAt_cons ..).mp hat
      obtain ⟨-, ha⟩ : ¬ 0 = a ∧ 0 ∉ as := by simpa using ha
      rw [hb, List.cons_lt_cons_iff]
      split_ifs with h
      · rw [ih hrest ha hc]
        simp [h]
      · rw [sub_setWidth_neg]
        simp [h]

/-- `strcmp` is zero where the callers take it for zero, and its sign is the order of
    the strings, with the bytes as unsigned numbers. -/
theorem strcmp_order (s : State) (q : CStr) (hq : CStrAt s.mem (s.gpr 4) q) :
    Returns stringPpc ⟨.strcmp, 0⟩ s fun s' =>
      (strcmpEq s.mem (s.gpr 3) q).val = some (decide (s'.gpr 3 = 0)) ∧
      (∀ a, CStrAt s.mem (s.gpr 3) a → ((s'.gpr 3).toInt < 0 ↔ a.bytes < q.bytes)) ∧
      s'.mem = s.mem := by
  refine returns_ops [.addi 5 3 (-1), .addi 4 4 (-1)] rfl
    (Returns.mono (strcmp_loop (p := s.gpr 3) (q := s.gpr 4) hq q.noNul ?_ ?_) ?_)
  · simp
    bv_omega
  · simp
    bv_omega
  · intro s' hs'
    have h3 : s'.gpr 3 = difference s.mem (s.gpr 3) (q.bytes ++ [0]) := hs'.1
    refine ⟨?_, fun a ha => ?_, by simpa using hs'.2⟩
    · rw [h3, strcmpEq, Reads.val_access, commonPrefix_all,
        decide_eq_decide.mpr (difference_eq_zero ..)]
    · rw [h3]
      exact difference_order ha a.noNul q.noNul

theorem strcmp_order_kx :
    Returns stringPpc ⟨.strcmp, 0⟩ (callOf twoStrings 0x1000 0x1005 0) fun s' =>
      (strcmpEq twoStrings 0x1000 kx).val = some (decide (s'.gpr 3 = 0)) ∧
      (∀ a, CStrAt twoStrings 0x1000 a → ((s'.gpr 3).toInt < 0 ↔ a.bytes < kx.bytes)) ∧
      s'.mem = twoStrings :=
  strcmp_order (callOf twoStrings 0x1000 0x1005 0) kx (by decide)

/-- One round of `strncmp` at two bytes that differ. -/
theorem strncmp_differ {s : State} {p q : Word} (hne : s.mem p ≠ s.mem q) (h6 : s.gpr 6 = p - 1)
    (h4 : s.gpr 4 = q - 1) :
    Returns stringPpc ⟨.strncmp, 5⟩ s fun s' =>
      s'.gpr 3 = (s.mem p).setWidth 32 - (s.mem q).setWidth 32 ∧ s'.mem = s.mem := by
  refine returns_label rfl (returns_ops [.lbzu 3 1 6, .cmpwi 1 3 0, .lbzu 0 1 4, .subfRc 3 0 3]
    rfl ?_)
  by_cases h0 : s.mem p = 0
  · refine returns_leave rfl ?_ ?_
    · simp [h6, h0]
    · simp [h6, h4]
  · refine returns_skip rfl ?_ (returns_skip rfl ?_ (returns_leave rfl rfl ?_))
    · simpa [h6] using h0
    · have := mt (sub_setWidth_eq_zero (s.mem p) (s.mem q)).mp hne
      simp only [Test.dnzt_taken, Bool.and_eq_false_iff]
      right
      simpa [h6, h4] using this
    · simp [h6, h4]

/-- A round takes one off the count. -/
theorem ctr_last {c : Word} {n : ℕ} (h : c = BitVec.ofNat 32 (n + 1)) :
    c - 1 = BitVec.ofNat 32 n := by
  rw [h, ofNat_succ, BitVec.add_sub_cancel]

theorem ofNat_ne_zero {n : ℕ} (h : n + 1 < 2 ^ 32) : BitVec.ofNat 32 (n + 1) ≠ 0 := by
  intro h0
  have := congrArg BitVec.toNat h0
  rw [BitVec.toNat_ofNat, Nat.mod_eq_of_lt h] at this
  simp at this

/-- A count of two or more is not at its end after a round. -/
theorem ctr_more {c : Word} {n : ℕ} (h : c = BitVec.ofNat 32 (n + 1 + 1)) (hn : n + 1 < 2 ^ 32) :
    c - 1 ≠ 0 := by
  rw [ctr_last h]
  exact ofNat_ne_zero hn

/-- The loop, with `n + 1` bytes to compare at most. -/
theorem strncmp_loop {s : State} {p q : Word} {cs : List Byte} {n : ℕ}
    (hq : BytesAt s.mem q (cs ++ [0])) (hnul : 0 ∉ cs) (h6 : s.gpr 6 = p - 1)
    (h4 : s.gpr 4 = q - 1) (hctr : s.ctr = BitVec.ofNat 32 (n + 1)) (hn : n + 1 < 2 ^ 32) :
    Returns stringPpc ⟨.strncmp, 5⟩ s fun s' =>
      s'.gpr 3 = difference s.mem p ((cs ++ [0]).take (n + 1)) ∧ s'.mem = s.mem := by
  induction cs generalizing s p q n with
  | nil =>
    have hq0 : s.mem q = 0 := by simpa using hq
    by_cases hc : s.mem p = 0
    · refine returns_label rfl (returns_ops
        [.lbzu 3 1 6, .cmpwi 1 3 0, .lbzu 0 1 4, .subfRc 3 0 3] rfl ?_)
      refine returns_leave rfl ?_ ?_
      · simp [h6, hc]
      · simp [h6, h4, hc, hq0, difference]
    · refine (strncmp_differ (by rwa [hq0]) h6 h4).mono fun s' hs' => ?_
      rw [List.nil_append, List.take_succ_cons, difference, if_neg hc, hs'.1, hq0]
      exact ⟨rfl, hs'.2⟩
  | cons c cs ih =>
    obtain ⟨hc, hrest⟩ := (bytesAt_cons ..).mp hq
    obtain ⟨hc0, hnul⟩ : ¬ 0 = c ∧ 0 ∉ cs := by simpa using hnul
    rw [List.cons_append, List.take_succ_cons, difference]
    by_cases hp : s.mem p = c
    · rw [if_pos hp]
      refine returns_label rfl (returns_ops
        [.lbzu 3 1 6, .cmpwi 1 3 0, .lbzu 0 1 4, .subfRc 3 0 3] rfl ?_)
      refine returns_skip rfl ?_ ?_
      · simpa [h6, hp] using Ne.symm hc0
      cases n with
      | zero =>
        refine returns_skip rfl ?_ (returns_leave rfl rfl ?_)
        · simp [hctr]
        · simp [h6, h4, hp, hc, difference]
      | succ n =>
        refine returns_goto (q := ⟨.strncmp, 5⟩) rfl ?_ rfl
          (Returns.mono (ih (p := p + 1) (n := n) hrest hnul ?_ ?_ ?_ (by omega)) ?_)
        · have hpos := ctr_more hctr (by omega)
          simpa [h6, h4, hp, hc] using hpos
        · simp [h6]
        · simp [h4]
        · simpa using ctr_last hctr
        · intro s' hs'
          simpa using hs'
    · rw [if_neg hp]
      refine (strncmp_differ (by rwa [hc]) h6 h4).mono fun s' hs' => ?_
      rwa [hc] at hs'

/-- `strncmp` compares `n` bytes of the second string at most; for `n = 0` it returns
    its first argument. -/
theorem strncmp_difference (s : State) (q : CStr) (hq : CStrAt s.mem (s.gpr 4) q) :
    Returns stringPpc ⟨.strncmp, 0⟩ s fun s' =>
      s'.mem = s.mem ∧ (s.gpr 5 = 0 → s'.gpr 3 = s.gpr 3) ∧
      (s.gpr 5 ≠ 0 → ∀ xs, xs = (q.bytes ++ [0]).take (s.gpr 5).toNat →
        (s'.gpr 3 = 0 ↔ BytesAt s.mem (s.gpr 3) xs) ∧
        ((s'.gpr 3).toInt < 0 ↔ readBytes s.mem (s.gpr 3) xs.length < xs)) := by
  refine returns_ops [.cmpwi 0 5 0, .addi 6 3 (-1), .addi 4 4 (-1)] rfl ?_
  by_cases h5 : s.gpr 5 = 0
  · refine returns_leave rfl ?_ ?_
    · simp [h5]
    · simp [h5]
  · obtain ⟨n, hn⟩ : ∃ n, (s.gpr 5).toNat = n + 1 :=
      Nat.exists_eq_succ_of_ne_zero fun h => h5 (BitVec.eq_of_toNat_eq h)
    have hlt := (s.gpr 5).isLt
    refine returns_skip rfl ?_ (returns_ops [.mtctr 5] rfl (Returns.mono
      (strncmp_loop (p := s.gpr 3) (q := s.gpr 4) (n := n) hq q.noNul ?_ ?_ ?_ (by omega)) ?_))
    · simpa using h5
    · simp
      bv_omega
    · simp
      bv_omega
    · rw [← hn]
      simp
    · intro s' hs'
      refine ⟨by simpa using hs'.2, fun h => absurd h h5, fun _ xs hxs => ?_⟩
      have h3 : s'.gpr 3 = difference s.mem (s.gpr 3) xs := by
        rw [hxs, hn]
        exact hs'.1
      rw [h3]
      exact ⟨difference_eq_zero .., difference_neg ..⟩

theorem strncmp_difference_kx :
    Returns stringPpc ⟨.strncmp, 0⟩ (callOf twoStrings 0x1000 0x1005 2) fun s' =>
      s'.mem = twoStrings ∧ ((2 : Word) = 0 → s'.gpr 3 = 0x1000) ∧
      ((2 : Word) ≠ 0 → ∀ xs, xs = (kx.bytes ++ [0]).take (2 : Word).toNat →
        (s'.gpr 3 = 0 ↔ BytesAt twoStrings 0x1000 xs) ∧
        ((s'.gpr 3).toInt < 0 ↔ readBytes twoStrings 0x1000 xs.length < xs)) :=
  strncmp_difference (callOf twoStrings 0x1000 0x1005 2) kx (by decide)

/-- The loop of `memcmp`, with `n + 1` bytes to compare. -/
theorem memcmp_loop {s : State} {p q : Word} {n : ℕ} (h6 : s.gpr 6 = p - 1)
    (h4 : s.gpr 4 = q - 1) (hctr : s.ctr = BitVec.ofNat 32 (n + 1)) (hn : n + 1 < 2 ^ 32) :
    Returns stringPpc ⟨.memcmp, 5⟩ s fun s' =>
      s'.gpr 3 = difference s.mem p (readBytes s.mem q (n + 1)) ∧ s'.mem = s.mem := by
  induction n generalizing s p q with
  | zero =>
    refine returns_label rfl (returns_ops [.lbzu 3 1 6, .lbzu 0 1 4, .subfRc 3 0 3] rfl ?_)
    refine returns_skip rfl ?_ (returns_leave rfl rfl ?_)
    · simp [hctr]
    · have hone : difference s.mem p (readBytes s.mem q 1) =
          (s.mem p).setWidth 32 - (s.mem q).setWidth 32 := by
        rw [readBytes, difference, readBytes, difference]
        split_ifs with hc
        · rw [hc, BitVec.sub_self]
          rfl
        · rfl
      rw [hone]
      simp [h6, h4]
  | succ n ih =>
    rw [readBytes, difference]
    refine returns_label rfl (returns_ops [.lbzu 3 1 6, .lbzu 0 1 4, .subfRc 3 0 3] rfl ?_)
    by_cases hp : s.mem p = s.mem q
    · rw [if_pos hp]
      refine returns_goto (q := ⟨.memcmp, 5⟩) rfl ?_ rfl
        (Returns.mono (ih (p := p + 1) (q := q + 1) ?_ ?_ ?_ (by omega)) ?_)
      · have hpos := ctr_more hctr (by omega)
        simpa [h6, h4, hp] using hpos
      · simp [h6]
      · simp [h4]
      · simpa using ctr_last hctr
      · intro s' hs'
        simpa using hs'
    · rw [if_neg hp]
      refine returns_skip rfl ?_ (returns_leave rfl rfl ?_)
      · have := mt (sub_setWidth_eq_zero (s.mem p) (s.mem q)).mp hp
        simp only [Test.dnzt_taken, Bool.and_eq_false_iff]
        right
        simpa [h6, h4] using this
      · simp [h6, h4]

/-- `memcmp` compares `n` bytes. The test for `n ≤ 0` is a signed one, and then it
    returns its first argument. -/
theorem memcmp_difference (s : State) :
    Returns stringPpc ⟨.memcmp, 0⟩ s fun s' =>
      s'.mem = s.mem ∧ ((s.gpr 5).toInt ≤ 0 → s'.gpr 3 = s.gpr 3) ∧
      (0 < (s.gpr 5).toInt → ∀ xs, xs = readBytes s.mem (s.gpr 4) (s.gpr 5).toNat →
        (s'.gpr 3 = 0 ↔ BytesAt s.mem (s.gpr 3) xs) ∧
        ((s'.gpr 3).toInt < 0 ↔ readBytes s.mem (s.gpr 3) xs.length < xs)) := by
  have hslt : BitVec.slt 0#32 (s.gpr 5) = decide (0 < (s.gpr 5).toInt) := by
    simp [BitVec.slt]
  refine returns_ops [.cmpwi 0 5 0] rfl ?_
  by_cases h5 : 0 < (s.gpr 5).toInt
  · obtain ⟨n, hn⟩ : ∃ n, (s.gpr 5).toNat = n + 1 := by
      apply Nat.exists_eq_succ_of_ne_zero
      intro h
      rw [BitVec.eq_of_toNat_eq (y := 0#32) h] at h5
      simp at h5
    have hlt := (s.gpr 5).isLt
    refine returns_skip rfl ?_ (returns_ops [.mtctr 5, .addi 6 3 (-1), .addi 4 4 (-1)] rfl
      (Returns.mono (memcmp_loop (p := s.gpr 3) (q := s.gpr 4) (n := n) ?_ ?_ ?_ (by omega)) ?_))
    · simpa [hslt] using h5
    · simp
      bv_omega
    · simp
      bv_omega
    · rw [← hn]
      simp
    · intro s' hs'
      refine ⟨by simpa using hs'.2, fun h => absurd h (not_le.mpr h5), fun _ xs hxs => ?_⟩
      have h3 : s'.gpr 3 = difference s.mem (s.gpr 3) xs := by
        rw [hxs, hn]
        exact hs'.1
      rw [h3]
      exact ⟨difference_eq_zero .., difference_neg ..⟩
  · refine returns_leave rfl ?_ ?_
    · simpa [hslt] using h5
    · simp [h5]

end BBoot.Libc
