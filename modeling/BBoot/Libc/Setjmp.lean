import BBoot.Common.Copy
import BBoot.Ppc.Machine

/-!
# `libc/setjmp.S`

`__sigsetjmp` stores the registers that a function must keep, and the address it
returns to, into 21 words of the `jmp_buf`; `longjmp` loads them and so returns from
the call of `__sigsetjmp` a second time.

Results:
* `longjmp_returns_twice`: after `longjmp` the caller of `__sigsetjmp` goes on with
  its registers, as long as nothing else was stored to the buffer.
-/

namespace BBoot.Libc

open BBoot.Ppc

/-- The functions of the file. -/
inductive JmpSymbol
  | sigsetjmp
  | longjmp
deriving DecidableEq

/-- The stores of `__sigsetjmp` (lines 4–24). -/
def saveOps : List Op :=
  [ .stw 1 0 3, .stw 2 4 3, .stw 0 8 3, .stw 14 12 3, .stw 15 16 3, .stw 16 20 3, .stw 17 24 3,
    .stw 18 28 3, .stw 19 32 3, .stw 20 36 3, .stw 21 40 3, .stw 22 44 3, .stw 23 48 3,
    .stw 24 52 3, .stw 25 56 3, .stw 26 60 3, .stw 27 64 3, .stw 28 68 3, .stw 29 72 3,
    .stw 30 76 3, .stw 31 80 3 ]

/-- The loads of `longjmp` (lines 33–53). -/
def restoreOps : List Op :=
  [ .lwz 1 0 3, .lwz 2 4 3, .lwz 0 8 3, .lwz 14 12 3, .lwz 15 16 3, .lwz 16 20 3, .lwz 17 24 3,
    .lwz 18 28 3, .lwz 19 32 3, .lwz 20 36 3, .lwz 21 40 3, .lwz 22 44 3, .lwz 23 48 3,
    .lwz 24 52 3, .lwz 25 56 3, .lwz 26 60 3, .lwz 27 64 3, .lwz 28 68 3, .lwz 29 72 3,
    .lwz 30 76 3, .lwz 31 80 3 ]

/-- `__sigsetjmp` (lines 1–26). -/
def sigsetjmpCode : List (Line JmpSymbol) :=
  .op (.mflr 0) :: (saveOps.map .op ++ [.op (.li 3 0), .blr])

/-- `longjmp` (lines 28–56). -/
def longjmpCode : List (Line JmpSymbol) :=
  [.op (.cmpwi 0 4 0), .bne 0 (.ahead 1), .op (.li 4 1), .label 1] ++
    (restoreOps.map .op ++ [.op (.mtlr 0), .op (.mr 3 4), .blr])

/-- `libc/setjmp.S`. -/
def setjmp : Program JmpSymbol where
  code
    | .sigsetjmp => sigsetjmpCode
    | .longjmp => longjmpCode
  behind
    | .sigsetjmp => some .longjmp
    | .longjmp => none

/-- What is saved: `r1`, `r2`, the return address, and `r14` to `r31`. -/
def saved (s : State) : List Word :=
  [ s.gpr 1, s.gpr 2, s.lr, s.gpr 14, s.gpr 15, s.gpr 16, s.gpr 17, s.gpr 18, s.gpr 19, s.gpr 20,
    s.gpr 21, s.gpr 22, s.gpr 23, s.gpr 24, s.gpr 25, s.gpr 26, s.gpr 27, s.gpr 28, s.gpr 29,
    s.gpr 30, s.gpr 31 ]

/-- A `jmp_buf` with the words `ws` at `p`. -/
def JmpBuf (m : Mem) (p : Word) (ws : List Word) : Prop := BytesAt m p (ws.flatMap be32Bytes)

/-! ## Words one behind the other -/

/-- The words `ws` stored from `p` on. -/
def storeWords (m : Mem) : Word → List Word → Mem
  | _, [] => m
  | p, w :: ws => storeWords (store32 m p w) (p + 4#32) ws

/-- The `n` words from `p` on. -/
def loadWords (m : Mem) : Word → ℕ → List Word
  | _, 0 => []
  | p, n + 1 => load32 m p :: loadWords m (p + 4#32) n

theorem flatMap_be32Bytes_length (ws : List Word) : (ws.flatMap be32Bytes).length = 4 * ws.length := by
  induction ws with
  | nil => rfl
  | cons w ws ih =>
    rw [List.flatMap_cons, List.length_append, be32Bytes_length, ih, List.length_cons]
    omega

theorem storeWords_eq (m : Mem) (p : Word) {ws : List Word} (h : 4 * ws.length ≤ 2 ^ 32) :
    storeWords m p ws = writeBytes m p (ws.flatMap be32Bytes) := by
  induction ws generalizing m p with
  | nil => rfl
  | cons w ws ih =>
    rw [List.length_cons] at h
    have happ := @writeBytes_append m p (be32Bytes w) (ws.flatMap be32Bytes)
      (by rw [flatMap_be32Bytes_length, be32Bytes_length]; omega)
    rw [storeWords, ih _ _ (by omega), List.flatMap_cons, ← happ]
    rfl

theorem loadWords_eq {m : Mem} {p : Word} {ws : List Word} (h : JmpBuf m p ws) :
    loadWords m p ws.length = ws := by
  induction ws generalizing p with
  | nil => rfl
  | cons w ws ih =>
    unfold JmpBuf at h
    rw [List.flatMap_cons, bytesAt_append] at h
    rw [List.length_cons, loadWords, load32_of_bytesAt h.1]
    exact congrArg (w :: ·) (ih h.2)

/-! ## The two functions -/

/-- `__sigsetjmp` returns zero and has stored the registers. -/
theorem sigsetjmp_saves (s : State) :
    Returns setjmp ⟨.sigsetjmp, 0⟩ s fun s' =>
      s'.gpr 3 = 0 ∧ saved s' = saved s ∧
      s'.mem = writeBytes s.mem (s.gpr 3) ((saved s).flatMap be32Bytes) := by
  refine returns_ops (.mflr 0 :: saveOps) rfl (returns_ops [.li 3 0] rfl
    (returns_leave rfl rfl ⟨?_, ?_, ?_⟩))
  · simp
  · simp [saved, saveOps]
  · rw [← storeWords_eq s.mem (s.gpr 3) (by simp [saved])]
    simp [saved, saveOps, storeWords, BitVec.add_assoc]

/-- The loads of `longjmp` and what follows them. -/
theorem longjmp_restores {u : State} (ws : List Word) (hlen : ws.length = 21)
    (h : JmpBuf u.mem (u.gpr 3) ws) :
    Returns setjmp ⟨.longjmp, 3⟩ u fun u' =>
      saved u' = ws ∧ u'.gpr 3 = u.gpr 4 ∧ u'.mem = u.mem := by
  have hload := loadWords_eq h
  rw [hlen] at hload
  refine returns_label rfl (returns_ops (restoreOps ++ [.mtlr 0, .mr 3 4]) rfl
    (returns_leave rfl rfl ⟨?_, ?_, ?_⟩))
  · rw [← hload]
    simp [saved, restoreOps, loadWords, BitVec.add_assoc]
  · simp [restoreOps]
  · simp [restoreOps]

/-- `__sigsetjmp` returns zero; a `longjmp` that finds its buffer as it was left returns
    from it again, with the registers of the first time and the value given, or one for
    zero. -/
theorem longjmp_returns_twice (s : State) :
    Returns setjmp ⟨.sigsetjmp, 0⟩ s fun s' =>
      s'.gpr 3 = 0 ∧ saved s' = saved s ∧
      s'.mem = writeBytes s.mem (s.gpr 3) ((saved s).flatMap be32Bytes) ∧
      ∀ t : State, t.gpr 3 = s.gpr 3 → readBytes t.mem (s.gpr 3) 84 = readBytes s'.mem (s.gpr 3) 84 →
        Returns setjmp ⟨.longjmp, 0⟩ t fun t' =>
          saved t' = saved s ∧ t'.gpr 3 = (if t.gpr 4 = 0 then 1 else t.gpr 4) ∧
          t'.mem = t.mem := by
  refine (sigsetjmp_saves s).mono ?_
  rintro s' ⟨h3, hs, hm⟩
  refine ⟨h3, hs, hm, fun t ht3 hread => ?_⟩
  have hbuf : JmpBuf t.mem (t.gpr 3) (saved s) := by
    have hlen : ((saved s).flatMap be32Bytes).length = 84 := flatMap_be32Bytes_length _
    have hback := @bytesAt_writeBytes s.mem (s.gpr 3) ((saved s).flatMap be32Bytes)
      (by rw [hlen]; norm_num)
    unfold JmpBuf BytesAt
    unfold BytesAt at hback
    rw [ht3, hlen, hread, hm]
    rwa [hlen] at hback
  refine returns_ops [.cmpwi 0 4 0] rfl ?_
  by_cases h0 : t.gpr 4 = 0
  · refine returns_skip rfl ?_ (returns_ops [.li 4 1] rfl
      (Returns.mono (longjmp_restores (saved s) rfl ?_) fun t' ht' => ?_))
    · simp [h0]
    · simpa using hbuf
    · rw [if_pos h0]
      simpa using ht'
  · refine returns_goto (q := ⟨.longjmp, 3⟩) rfl ?_ rfl
      (Returns.mono (longjmp_restores (saved s) rfl ?_) fun t' ht' => ?_)
    · simpa using h0
    · simpa using hbuf
    · rw [if_neg h0]
      simpa using ht'

end BBoot.Libc
