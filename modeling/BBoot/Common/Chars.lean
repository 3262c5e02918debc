import BBoot.Common.Traced
import BBoot.Common.Word

/-!
# An array of characters and what is touched of it

`Chars` is memory around an array, by the index of the byte: the array starts at
0, and a program that runs off either end reads what happens to be there. A
`CharsM` program logs every index it reads or writes. The string functions are
those of the C library; a loop that is given `fuel` makes at most so many passes.

`Holds m i cs` says that the bytes `cs` stand from `i` on.

Results:
* `holds_write`, `write_of_notMem`: what a run of stores leaves.
* `memmove_returns`: the bytes moved are those that stood there before.
* `span_returns`, `strchr_returns`: where a search stops, and that it touches nothing
  behind the terminator.
-/

namespace BBoot

/-- The bytes around an array, by their index. -/
abbrev Chars := ℤ → Byte

/-- A program that logs the indices it touches. -/
abbrev CharsM := Traced Chars ℤ

namespace Chars

/-- The bytes `cs` stand from `i` on. -/
def Holds (m : Chars) : ℤ → List Byte → Prop
  | _, [] => True
  | i, c :: cs => m i = c ∧ Holds m (i + 1) cs

/-- The bytes `cs` stored from `i` on, one after the other. -/
def write (m : Chars) : ℤ → List Byte → Chars
  | _, [] => m
  | i, c :: cs => write (Function.update m i c) (i + 1) cs

theorem holds_append {m : Chars} {i : ℤ} {cs cs' : List Byte} :
    m.Holds i (cs ++ cs') ↔ m.Holds i cs ∧ m.Holds (i + cs.length) cs' := by
  induction cs generalizing i with
  | nil => simp [Holds]
  | cons c cs ih =>
    have hi : i + 1 + (cs.length : ℤ) = i + ((c :: cs).length : ℕ) := by
      rw [List.length_cons]
      push_cast
      ring
    rw [List.cons_append, Holds, Holds, ih, hi, and_assoc]

/-- The bytes up to the first NUL stand in front of one. -/
theorem Holds.takeWhile {m : Chars} {i : ℤ} {cs : List Byte} (h : m.Holds i (cs ++ [0])) :
    m.Holds i (cs.takeWhile (· ≠ 0) ++ [0]) := by
  induction cs generalizing i with
  | nil => exact h
  | cons c cs ih =>
    obtain ⟨hc, hrest⟩ := h
    by_cases h0 : c = 0
    · rw [List.takeWhile_cons_of_neg (by simpa using h0)]
      exact ⟨hc.trans h0, trivial⟩
    · rw [List.takeWhile_cons_of_pos (by simpa using h0)]
      exact ⟨hc, ih hrest⟩

/-- A byte in front of what is stored, or behind it, stays. -/
theorem write_of_notMem {m : Chars} {i j : ℤ} {cs : List Byte} (h : j < i ∨ i + cs.length ≤ j) :
    m.write i cs j = m j := by
  induction cs generalizing m i with
  | nil => rfl
  | cons c cs ih =>
    rw [List.length_cons] at h
    push_cast at h
    rw [write, ih (by omega), Function.update_of_ne (by omega)]

theorem holds_write (m : Chars) (i : ℤ) (cs : List Byte) : (m.write i cs).Holds i cs := by
  induction cs generalizing m i with
  | nil => trivial
  | cons c cs ih =>
    refine ⟨?_, ih _ _⟩
    rw [write, write_of_notMem (by omega), Function.update_self]

/-- Bytes in front of a store stay. -/
theorem Holds.update {m : Chars} {i j : ℤ} {cs : List Byte} (h : m.Holds i cs)
    (hj : i + cs.length ≤ j) (c : Byte) : Holds (Function.update m j c) i cs := by
  induction cs generalizing i with
  | nil => trivial
  | cons c' cs ih =>
    rw [List.length_cons] at hj
    push_cast at hj
    exact ⟨(Function.update_of_ne (by omega) _ _).trans h.1, ih h.2 (by omega)⟩

end Chars

namespace CharsM

open Traced Chars

/-! ## Loads and stores -/

/-- A load. -/
def get (i : ℤ) : CharsM Byte := do
  emit i
  look fun m => some (m i)

/-- A store. -/
def put (i : ℤ) (c : Byte) : CharsM Unit := do
  emit i
  update fun m => Function.update m i c

/-- The `n` bytes from `i` on. -/
def getRange (i : ℤ) : ℕ → CharsM (List Byte)
  | 0 => pure []
  | n + 1 => do
    let c ← get i
    let cs ← getRange (i + 1) n
    pure (c :: cs)

/-- The bytes `cs`, stored from `i` on. -/
def putRange (i : ℤ) : List Byte → CharsM Unit
  | [] => pure ()
  | c :: cs => do
    put i c
    putRange (i + 1) cs

/-- `memmove(dst, src, n)`. -/
def memmove (dst src : ℤ) (n : ℕ) : CharsM Unit := do
  let cs ← getRange src n
  putRange dst cs

/-! ## Searches -/

/-- `for (i = 0; s[i]; i++) if (stop(s[i])) break;`, from `i` on. -/
def span (stop : Byte → Bool) (s : ℤ) : ℕ → ℕ → CharsM ℕ
  | 0, _ => diverge
  | fuel + 1, i => do
    let c ← get (s + i)
    if c = 0 ∨ stop c = true then pure i else span stop s fuel (i + 1)

/-- `strlen(s)`. -/
def strlen (fuel : ℕ) (s : ℤ) : CharsM ℕ := span (fun _ => false) s fuel 0

/-- `strchr(s, c)`. -/
def strchr (c : Byte) : ℕ → ℤ → CharsM (Option ℤ)
  | 0, _ => diverge
  | fuel + 1, s => do
    let b ← get s
    if b = c then pure (some s) else if b = 0 then pure none else strchr c fuel (s + 1)

/-! ## What they touch and return -/

/-- The `n` indices from `i` on meet `P`. -/
def AllFrom (P : ℤ → Prop) (i : ℤ) (n : ℕ) : Prop := ∀ k : ℕ, k < n → P (i + k)

section Returns

variable {P : ℤ → Prop} {m : Chars}

theorem AllFrom.head {i : ℤ} {n : ℕ} (h : AllFrom P i (n + 1)) : P i := by
  simpa using h 0 (Nat.succ_pos n)

theorem AllFrom.tail {i : ℤ} {n : ℕ} (h : AllFrom P i (n + 1)) : AllFrom P (i + 1) n := by
  intro k hk
  have := h (k + 1) (by omega)
  rwa [Nat.cast_add, Nat.cast_one, add_comm (k : ℤ), ← add_assoc] at this

theorem AllFrom.mono {i : ℤ} {n n' : ℕ} (h : AllFrom P i n) (hn : n' ≤ n) : AllFrom P i n' :=
  fun k hk => h k (by omega)

theorem get_returns {i : ℤ} {c : Byte} (hi : P i) (hc : m i = c) : Returns P (get i) m c m :=
  returns_bind (returns_emit hi) (returns_look (congrArg some hc))

theorem put_returns {i : ℤ} (h : P i) (c : Byte) :
    Returns P (put i c) m () (Function.update m i c) :=
  returns_bind (returns_emit h) (returns_update _)

theorem getRange_returns {i : ℤ} {cs : List Byte} (h : m.Holds i cs)
    (hP : AllFrom P i cs.length) : Returns P (getRange i cs.length) m cs m := by
  induction cs generalizing i with
  | nil => exact returns_pure _
  | cons c cs ih =>
    exact returns_bind (get_returns hP.head h.1)
      (returns_bind (ih h.2 hP.tail) (returns_pure _))

theorem putRange_returns {i : ℤ} {cs : List Byte} (hP : AllFrom P i cs.length) :
    Returns P (putRange i cs) m () (m.write i cs) := by
  induction cs generalizing m i with
  | nil => exact returns_pure _
  | cons c cs ih => exact returns_bind (put_returns hP.head c) (ih hP.tail)

theorem memmove_returns {dst src : ℤ} {cs : List Byte} (h : m.Holds src cs)
    (hsrc : AllFrom P src cs.length) (hdst : AllFrom P dst cs.length) :
    Returns P (memmove dst src cs.length) m () (m.write dst cs) :=
  returns_bind (getRange_returns h hsrc) (putRange_returns hdst)

theorem length_takeWhile_cons {stop : Byte → Bool} {c : Byte} (hc : ¬ stop c = true) {i : ℕ}
    {cs : List Byte} :
    i + ((c :: cs).takeWhile (fun c => !stop c)).length =
      i + 1 + (cs.takeWhile (fun c => !stop c)).length := by
  rw [List.takeWhile_cons_of_pos (by simpa using hc), List.length_cons]
  omega

/-- A search in a string stops at the first byte that meets `stop`, or the terminator. -/
theorem span_returns (stop : Byte → Bool) {s : ℤ} {i fuel : ℕ} {cs : List Byte} (hnul : 0 ∉ cs)
    (h : m.Holds (s + i) (cs ++ [0])) (hfuel : cs.length < fuel)
    (hP : AllFrom P (s + i) (cs.length + 1)) :
    Returns P (span stop s fuel i) m (i + (cs.takeWhile (fun c => !stop c)).length) m := by
  induction cs generalizing i fuel with
  | nil =>
    obtain ⟨fuel, rfl⟩ := Nat.exists_eq_succ_of_ne_zero (by omega : fuel ≠ 0)
    refine returns_bind (get_returns hP.head h.1) ?_
    rw [if_pos (.inl rfl)]
    exact returns_pure _
  | cons c cs ih =>
    obtain ⟨fuel, rfl⟩ := Nat.exists_eq_succ_of_ne_zero (by omega : fuel ≠ 0)
    rw [List.mem_cons, not_or] at hnul
    rw [List.length_cons] at hfuel hP
    refine returns_bind (get_returns hP.head h.1) ?_
    by_cases hs : stop c = true
    · rw [if_pos (.inr hs), List.takeWhile_cons_of_neg (by simpa using hs)]
      exact returns_pure _
    · have hi : s + ((i + 1 : ℕ) : ℤ) = s + i + 1 := by push_cast; ring
      have hrun := ih (i := i + 1) hnul.2 (by rw [hi]; exact h.2) (Nat.lt_of_succ_lt_succ hfuel)
        (by rw [hi]; exact hP.tail)
      rwa [if_neg (by simpa [hs] using Ne.symm hnul.1), length_takeWhile_cons hs]

theorem strlen_returns {s : ℤ} {fuel : ℕ} {cs : List Byte} (hnul : 0 ∉ cs)
    (h : m.Holds s (cs ++ [0])) (hfuel : cs.length < fuel) (hP : AllFrom P s (cs.length + 1)) :
    Returns P (strlen fuel s) m cs.length m := by
  have hs : s + ((0 : ℕ) : ℤ) = s := add_zero s
  have hall : cs.takeWhile (fun _ => !false) = cs := List.takeWhile_eq_self_iff.mpr (by simp)
  have hrun := span_returns (fun _ => false) (i := 0) hnul (by rwa [hs]) hfuel (by rwa [hs])
  rwa [hall, Nat.zero_add] at hrun

/-- The first occurrence of a character in a string. -/
theorem strchr_returns {s : ℤ} {c : Byte} {fuel : ℕ} {cs rest : List Byte} (hnul : 0 ∉ cs)
    (hc : c ∉ cs) (h : m.Holds s (cs ++ c :: rest)) (hfuel : cs.length < fuel)
    (hP : AllFrom P s (cs.length + 1)) :
    Returns P (strchr c fuel s) m (some (s + cs.length)) m := by
  induction cs generalizing s fuel with
  | nil =>
    obtain ⟨fuel, rfl⟩ := Nat.exists_eq_succ_of_ne_zero (by omega : fuel ≠ 0)
    refine returns_bind (get_returns hP.head h.1) ?_
    rw [if_pos rfl, List.length_nil, Nat.cast_zero, add_zero]
    exact returns_pure _
  | cons b cs ih =>
    obtain ⟨fuel, rfl⟩ := Nat.exists_eq_succ_of_ne_zero (by omega : fuel ≠ 0)
    rw [List.mem_cons, not_or] at hnul hc
    rw [List.length_cons] at hfuel hP
    refine returns_bind (get_returns hP.head h.1) ?_
    have hend : s + ((b :: cs).length : ℕ) = s + 1 + cs.length := by
      rw [List.length_cons]
      push_cast
      ring
    rw [if_neg (Ne.symm hc.1), if_neg (Ne.symm hnul.1), hend]
    exact ih hnul.2 hc.2 h.2 (Nat.lt_of_succ_lt_succ hfuel) hP.tail

/-- A character that is not in a string. -/
theorem strchr_none {s : ℤ} {c : Byte} {fuel : ℕ} {cs : List Byte} (hc0 : c ≠ 0) (hnul : 0 ∉ cs)
    (hc : c ∉ cs) (h : m.Holds s (cs ++ [0])) (hfuel : cs.length < fuel)
    (hP : AllFrom P s (cs.length + 1)) : Returns P (strchr c fuel s) m none m := by
  induction cs generalizing s fuel with
  | nil =>
    obtain ⟨fuel, rfl⟩ := Nat.exists_eq_succ_of_ne_zero (by omega : fuel ≠ 0)
    refine returns_bind (get_returns hP.head h.1) ?_
    rw [if_neg (Ne.symm hc0), if_pos rfl]
    exact returns_pure _
  | cons b cs ih =>
    obtain ⟨fuel, rfl⟩ := Nat.exists_eq_succ_of_ne_zero (by omega : fuel ≠ 0)
    rw [List.mem_cons, not_or] at hnul hc
    rw [List.length_cons] at hfuel hP
    refine returns_bind (get_returns hP.head h.1) ?_
    rw [if_neg (Ne.symm hc.1), if_neg (Ne.symm hnul.1)]
    exact ih hnul.2 hc.2 h.2 (Nat.lt_of_succ_lt_succ hfuel) hP.tail

end Returns

/-! ## Searches with any number of passes -/

theorem get_run (i : ℤ) (m : Chars) : get i m = ⟨some (m i), m, [i]⟩ := rfl

/-- A search that stops has stopped where `span_returns` says, and changes nothing. -/
theorem span_ensures {A : List ℤ → Prop} (hA : PrefixClosed A) (stop : Byte → Bool) {m : Chars}
    {s : ℤ} {i fuel : ℕ} {cs : List Byte} (hnul : 0 ∉ cs) (h : m.Holds (s + i) (cs ++ [0]))
    (past : List ℤ) :
    Ensures A (span stop s fuel i) m past fun v m' _ =>
      m' = m ∧ ∀ n, v = some n → n = i + (cs.takeWhile (fun c => !stop c)).length := by
  induction fuel generalizing i cs past with
  | zero => exact ensures_diverge fun _ => ⟨rfl, by simp⟩
  | succ fuel ih =>
    refine ensures_step hA (get_run _ _) fun _ => ?_
    cases cs with
    | nil =>
      rw [if_pos (.inl h.1)]
      exact ensures_pure fun _ => ⟨rfl, fun n hn => (Option.some.inj hn).symm⟩
    | cons c cs =>
      rw [List.mem_cons, not_or] at hnul
      rw [h.1]
      by_cases hs : stop c = true
      · rw [if_pos (.inr hs), List.takeWhile_cons_of_neg (by simpa using hs)]
        exact ensures_pure fun _ => ⟨rfl, fun n hn => (Option.some.inj hn).symm⟩
      · have hi : s + ((i + 1 : ℕ) : ℤ) = s + i + 1 := by push_cast; ring
        rw [if_neg (by simpa [hs] using Ne.symm hnul.1), length_takeWhile_cons hs]
        exact ih hnul.2 (by rw [hi]; exact h.2) _

end CharsM

end BBoot
