import BBoot.Common.Reads

/-!
# C strings in memory

A `CStr` is a string without a NUL; `CStrAt m p s` says that it stands at `p`
with its terminator. `strlen` and `strcmp` are given with the bytes of the
first argument they look at; `strcmp` is used only as `!strcmp(s, name)`, with
a second argument that is not part of the data being read.
-/

namespace BBoot

/-- The bytes of a C string. -/
structure CStr where
  bytes : List Byte
  noNul : 0 ∉ bytes
deriving DecidableEq

theorem CStr.ext_iff' {s t : CStr} : s = t ↔ s.bytes = t.bytes := by
  cases s; cases t; simp

/-- The string `s` and its terminator stand at `p`. -/
def CStrAt (m : Mem) (p : Word) (s : CStr) : Prop := BytesAt m p (s.bytes ++ [0])

instance (m : Mem) (p : Word) (s : CStr) : Decidable (CStrAt m p s) := by
  unfold CStrAt; infer_instance

/-- The distance to the first NUL within `fuel` bytes. -/
def nulIndex (m : Mem) : Word → ℕ → Option ℕ
  | _, 0 => none
  | p, fuel + 1 => if m p = 0 then some 0 else (nulIndex m (p + 1) fuel).map (· + 1)

/-- `strlen(p)`. A memory without any NUL is searched for ever. -/
def strlen (m : Mem) (p : Word) : Reads ℕ :=
  match nulIndex m p (2 ^ 32) with
  | none => ⟨none, [⟨p, 2 ^ 32⟩]⟩
  | some n => ⟨some n, [⟨p, n + 1⟩]⟩

/-- How many bytes of the string at `p` agree with `q` before one differs, and
    whether the whole of `q` and the terminator agree. -/
def commonPrefix (m : Mem) : Word → List Byte → ℕ × Bool
  | p, [] => (0, m p = 0)
  | p, c :: q =>
    if m p = c then ((commonPrefix m (p + 1) q).1 + 1, (commonPrefix m (p + 1) q).2)
    else (0, false)

/-- `!strcmp(p, q)`, reading `p` up to the first byte that differs. -/
def strcmpEq (m : Mem) (p : Word) (q : CStr) : Reads Bool :=
  .access p ((commonPrefix m p q.bytes).1 + 1) (commonPrefix m p q.bytes).2

/-- `c && !strcmp(p, q)`: nothing is read if `c` is false. -/
def andStrcmpEq (c : Bool) (m : Mem) (p : Word) (q : CStr) : Reads Bool :=
  if c = true then strcmpEq m p q else pure false

theorem nulIndex_eq {m : Mem} {p : Word} {bs : List Byte} (hn : 0 ∉ bs)
    (h : BytesAt m p (bs ++ [0])) {fuel : ℕ} (hf : bs.length < fuel) :
    nulIndex m p fuel = some bs.length := by
  induction bs generalizing p fuel with
  | nil =>
    obtain ⟨fuel, rfl⟩ := Nat.exists_eq_succ_of_ne_zero (by omega : fuel ≠ 0)
    have h0 : m p = 0 := by simpa using h
    rw [nulIndex, if_pos h0, List.length_nil]
  | cons b bs ih =>
    obtain ⟨fuel, rfl⟩ := Nat.exists_eq_succ_of_ne_zero (by omega : fuel ≠ 0)
    obtain ⟨hb, hrest⟩ := (bytesAt_cons ..).mp h
    have hne : ¬ m p = 0 := fun h0 => hn (by rw [← hb, h0]; simp)
    simp only [List.length_cons] at hf ⊢
    rw [nulIndex, if_neg hne, ih (fun hm => hn (List.mem_cons_of_mem b hm)) hrest (by omega)]
    rfl

/-- A NUL at index `n` ends a string of `n` bytes. -/
theorem nulIndex_spec {m : Mem} {p : Word} {fuel n : ℕ} (h : nulIndex m p fuel = some n) :
    0 ∉ readBytes m p n ∧ BytesAt m p (readBytes m p n ++ [0]) := by
  induction fuel generalizing p n with
  | zero => simp [nulIndex] at h
  | succ fuel ih =>
    rw [nulIndex] at h
    split_ifs at h with h0
    · obtain rfl : 0 = n := by simpa using h
      simpa [readBytes] using h0
    · obtain ⟨k, hk, rfl⟩ := Option.map_eq_some_iff.mp h
      obtain ⟨h1, h2⟩ := ih hk
      refine ⟨?_, ?_⟩
      · simp only [readBytes, List.mem_cons, not_or]
        exact ⟨fun h => h0 h.symm, h1⟩
      · simpa [readBytes] using h2

/-- A string in memory is shorter than memory: its terminator would come round
    to one of its bytes. -/
theorem CStrAt.length_lt {m : Mem} {p : Word} {s : CStr} (h : CStrAt m p s) :
    s.bytes.length < 2 ^ 32 := by
  by_contra hge
  have hnul := h.getElem s.bytes.length (by simp)
  have hbyte := h.getElem (s.bytes.length - 2 ^ 32) (by simp)
  have haddr : BitVec.ofNat 32 (s.bytes.length - 2 ^ 32) = BitVec.ofNat 32 s.bytes.length := by
    apply BitVec.eq_of_toNat_eq
    rw [BitVec.toNat_ofNat, BitVec.toNat_ofNat]
    omega
  rw [haddr, hnul, List.getElem_append_right le_rfl, List.getElem_append_left (by omega)] at hbyte
  simp only [le_refl, tsub_eq_zero_of_le, List.getElem_cons_zero] at hbyte
  exact s.noNul (hbyte ▸ List.getElem_mem _)

theorem strlen_eq {m : Mem} {p : Word} {s : CStr} (h : CStrAt m p s) :
    strlen m p = .access p (s.bytes.length + 1) s.bytes.length := by
  unfold strlen
  rw [nulIndex_eq s.noNul h h.length_lt]
  rfl

/-- If `strlen` returns, a string of that length stands there. -/
theorem exists_of_strlen {m : Mem} {p : Word} {n : ℕ} (h : (strlen m p).val = some n) :
    ∃ s : CStr, s.bytes.length = n ∧ CStrAt m p s ∧ strlen m p = .access p (n + 1) n := by
  unfold strlen at h ⊢
  cases hk : nulIndex m p (2 ^ 32) with
  | none =>
    rw [hk] at h
    exact absurd h (by simp)
  | some k =>
    rw [hk] at h
    obtain rfl : k = n := by simpa only [Option.some.injEq] using h
    obtain ⟨h1, h2⟩ := nulIndex_spec hk
    exact ⟨⟨readBytes m p k, h1⟩, by simp, h2, rfl⟩

/-- The string that stands at `p`, if there is one. -/
def cstrAt? (m : Mem) (p : Word) : Option CStr :=
  match h : nulIndex m p (2 ^ 32) with
  | none => none
  | some n => some ⟨readBytes m p n, (nulIndex_spec h).1⟩

theorem cstrAt?_eq {m : Mem} {p : Word} {s : CStr} (h : CStrAt m p s) : cstrAt? m p = some s := by
  have hn := nulIndex_eq s.noNul h h.length_lt
  have hbytes : readBytes m p s.bytes.length = s.bytes := ((bytesAt_append ..).mp h).1
  unfold cstrAt?
  split
  · next hnone =>
    rw [hn] at hnone
    exact absurd hnone (by simp)
  · next n hsome =>
    obtain rfl : s.bytes.length = n := Option.some.inj (hn.symm.trans hsome)
    rw [Option.some.injEq, CStr.ext_iff']
    exact hbytes

theorem commonPrefix_eq {m : Mem} {p : Word} {bs q : List Byte} (hb : 0 ∉ bs) (hq : 0 ∉ q)
    (h : BytesAt m p (bs ++ [0])) : (commonPrefix m p q).2 = decide (bs = q) := by
  induction q generalizing p bs with
  | nil =>
    cases bs with
    | nil => simpa [commonPrefix] using h
    | cons b bs =>
      have hb0 : m p = b := ((bytesAt_cons ..).mp h).1
      have hne : b ≠ 0 := fun h0 => hb (by simp [h0])
      simpa [commonPrefix, hb0] using hne
  | cons c q ih =>
    have hc : c ≠ 0 := fun h0 => hq (by simp [h0])
    cases bs with
    | nil =>
      have h0 : m p = 0 := by simpa using h
      rw [commonPrefix, h0, if_neg hc.symm]
      rfl
    | cons b bs =>
      obtain ⟨hb0, hrest⟩ := (bytesAt_cons ..).mp h
      have := ih (fun hm => hb (List.mem_cons_of_mem b hm)) (fun hm => hq (List.mem_cons_of_mem c hm))
        hrest
      rw [commonPrefix, hb0]
      by_cases hbc : b = c
      · rw [if_pos hbc, this]
        simp [hbc]
      · rw [if_neg hbc]
        simp [hbc]

/-- `strcmp` does not look behind the terminator of the string in memory. -/
theorem commonPrefix_le {m : Mem} {p : Word} {bs q : List Byte} (hq : 0 ∉ q)
    (h : BytesAt m p (bs ++ [0])) : (commonPrefix m p q).1 ≤ bs.length := by
  induction q generalizing p bs with
  | nil => simp [commonPrefix]
  | cons c q ih =>
    have hc : c ≠ 0 := fun h0 => hq (by simp [h0])
    rw [commonPrefix]
    split_ifs with hpc
    · cases bs with
      | nil =>
        have h0 : m p = 0 := by simpa using h
        exact absurd (hpc.symm.trans h0) hc
      | cons b bs =>
        have := ih (fun hm => hq (List.mem_cons_of_mem c hm)) ((bytesAt_cons ..).mp h).2
        simpa using this
    · exact Nat.zero_le _

/-- `!strcmp` of a string in memory decides equality. -/
theorem strcmpEq_val {m : Mem} {p : Word} {s q : CStr} (h : CStrAt m p s) :
    (strcmpEq m p q).val = some (decide (s = q)) := by
  simp [strcmpEq, commonPrefix_eq s.noNul q.noNul h, CStr.ext_iff']

theorem andStrcmpEq_val {m : Mem} {p : Word} {s q : CStr} (c : Bool) (h : CStrAt m p s) :
    (andStrcmpEq c m p q).val = some (c && decide (s = q)) := by
  cases c
  · rfl
  · simpa [andStrcmpEq] using strcmpEq_val h

end BBoot
