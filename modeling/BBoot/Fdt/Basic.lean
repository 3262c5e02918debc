import BBoot.Common.CString

/-!
# The flattened device tree reader

`fdt.c` walks the tokens of the structure block with a depth counter and an
`in_target` flag. `fdtBody` is one pass of its `while (1)`, `fdtFindProp` the
walk with a bound on the number of passes; `FdtReturns` says that the C
function returns. The log holds the reads of the walk (tags, node names,
property headers and property names), not those of the header and of the two
names asked for. `fdtGetPropU32Idx` and its siblings read a value of the property
that is found.

Results:
* `fdtLoop_mono`: more passes do not change a result.
* `fdtBody_*`: what one pass does at each kind of token.
-/

namespace BBoot.Fdt

/-! ## Model -/

/-- `FDT_MAGIC` (`include/fdt.h`). -/
def fdtMagic : Word := 0xd00dfeed

/-- `FDT_BEGIN_NODE` (`fdt.c` line 11). -/
def fdtBeginNode : Word := 1

/-- `FDT_END_NODE` (line 12). -/
def fdtEndNode : Word := 2

/-- `FDT_PROP` (line 13). -/
def fdtPropTag : Word := 3

/-- `FDT_NOP` (line 14). -/
def fdtNop : Word := 4

/-- `FDT_END` (line 15). -/
def fdtEnd : Word := 9

/-- `ALIGN4(x)` (line 17). -/
def align4 (x : Word) : Word := (x + 3) &&& ~~~3

/-- `fdt32` (lines 32–35): `BE32` is the identity on a big-endian machine. -/
def fdt32 (m : Mem) (p : Word) : Reads Word := .access p 4 (load32 m p)

/-- The header fields `fdt_check` and `fdt_find_prop` use, and `totalsize`
    (lines 19–30). -/
structure FdtHeader where
  magic : Word
  totalsize : Word
  offDtStruct : Word
  offDtStrings : Word
deriving DecidableEq, Repr

/-- The header of the blob at `fdt`. -/
def fdtHeader (m : Mem) (fdt : Word) : FdtHeader where
  magic := load32 m fdt
  totalsize := load32 m (fdt + 4)
  offDtStruct := load32 m (fdt + 8)
  offDtStrings := load32 m (fdt + 12)

/-- `fdt_check` (lines 37–40). -/
def fdtCheck (m : Mem) (fdt : Word) : ℤ := if (fdtHeader m fdt).magic = fdtMagic then 0 else -1

/-- The local variables of the walk. `depth` is an `int` and counts without
    bound here: it overflows nowhere short of undefined behaviour. -/
structure FdtWalk where
  p : Word
  depth : ℤ
  inTarget : Bool
deriving DecidableEq, Repr

/-- Another pass, or `return data` with `*lenp = len`; `NULL` is `none`. -/
inductive FdtFlow
  | next (s : FdtWalk)
  | ret (r : Option (Word × Word))
deriving DecidableEq, Repr

/-- One pass of the loop (lines 57–94). -/
def fdtBody (m : Mem) (strings : Word) (nodeName propName : CStr) (s : FdtWalk) :
    Reads FdtFlow := do
  let tag ← fdt32 m s.p
  let p := s.p + 4
  if tag = fdtBeginNode then do
    let nlen ← strlen m p
    let isTarget ← andStrcmpEq (s.depth + 1 = 2) m p nodeName
    pure (.next ⟨p + align4 (BitVec.ofNat 32 nlen + 1), s.depth + 1, s.inTarget || isTarget⟩)
  else if tag = fdtEndNode then
    if s.depth = 2 ∧ s.inTarget = true then pure (.ret none)
    else if s.depth - 1 < 0 then pure (.ret none)
    else pure (.next ⟨p, s.depth - 1, false⟩)
  else if tag = fdtPropTag then do
    let len ← fdt32 m p
    let nameoff ← fdt32 m (p + 4)
    let data := p + 8
    let found ← andStrcmpEq s.inTarget m (strings + nameoff) propName
    if found = true then pure (.ret (some (data, len)))
    else pure (.next ⟨data + align4 len, s.depth, s.inTarget⟩)
  else if tag = fdtNop then pure (.next ⟨p, s.depth, s.inTarget⟩)
  else pure (.ret none)

/-- At most `fuel` passes of the loop. -/
def fdtLoop (m : Mem) (strings : Word) (nodeName propName : CStr) :
    ℕ → FdtWalk → Reads (Option (Word × Word))
  | 0, _ => ⟨none, []⟩
  | fuel + 1, s => do
    match ← fdtBody m strings nodeName propName s with
    | .next s' => fdtLoop m strings nodeName propName fuel s'
    | .ret r => pure r

/-- The state the loop is entered in (lines 48–55). -/
def fdtStart (m : Mem) (fdt : Word) : FdtWalk := ⟨fdt + (fdtHeader m fdt).offDtStruct, 0, false⟩

/-- `fdt_find_prop` (lines 45–95) with at most `fuel` passes of its loop. -/
def fdtFindProp (m : Mem) (fdt : Word) (nodeName propName : CStr) (fuel : ℕ) :
    Reads (Option (Word × Word)) :=
  fdtLoop m (fdt + (fdtHeader m fdt).offDtStrings) nodeName propName fuel (fdtStart m fdt)

/-- The C call returns `r`. -/
def FdtReturns (m : Mem) (fdt : Word) (nodeName propName : CStr) (r : Option (Word × Word)) :
    Prop :=
  ∃ fuel, (fdtFindProp m fdt nodeName propName fuel).val = some r

/-! ## Values of properties -/

/-- `fdt_get_prop_u32_idx` (lines 107–115): the cell it stores, `none` if it returns
    -1; `len` is an `int`. -/
def fdtGetPropU32Idx (m : Mem) (fdt : Word) (nodeName propName : CStr) (idx fuel : ℕ) :
    Reads (Option Word) := do
  match ← fdtFindProp m fdt nodeName propName fuel with
  | none => pure none
  | some (data, len) =>
    if len.toInt < ((idx + 1) * 4 : ℕ) then pure none
    else do
      let v ← fdt32 m (data + BitVec.ofNat 32 (idx * 4))
      pure (some v)

/-- `fdt_get_prop_u32` (lines 97–105): the same for the first cell. -/
def fdtGetPropU32 (m : Mem) (fdt : Word) (nodeName propName : CStr) (fuel : ℕ) :
    Reads (Option Word) :=
  fdtGetPropU32Idx m fdt nodeName propName 0 fuel

/-- `fdt_get_prop_str` (lines 117–127): the bytes it copies in front of a NUL. -/
def fdtGetPropStr (m : Mem) (fdt : Word) (nodeName propName : CStr) (buflen fuel : ℕ) :
    Reads (Option (List Byte)) := do
  match ← fdtFindProp m fdt nodeName propName fuel with
  | none => pure none
  | some (data, len) =>
    if len.toInt < 1 then pure none
    else
      let copy := if len.toInt < buflen then len.toNat else buflen - 1
      .access data copy (some (readBytes m data copy))

/-! ## Passes of the loop -/

section Loop

variable {m : Mem} {strings : Word} {nodeName propName : CStr}

/-- A pass that goes on leaves the rest of the walk to the next one. -/
theorem fdtLoop_next {s s' : FdtWalk} (fuel : ℕ)
    (h : (fdtBody m strings nodeName propName s).val = some (.next s')) :
    (fdtLoop m strings nodeName propName (fuel + 1) s).val =
      (fdtLoop m strings nodeName propName fuel s').val := by
  rw [fdtLoop, Reads.val_bind, h]
  rfl

/-- A pass that returns ends the walk. -/
theorem fdtLoop_ret {s : FdtWalk} {r : Option (Word × Word)} (fuel : ℕ)
    (h : (fdtBody m strings nodeName propName s).val = some (.ret r)) :
    (fdtLoop m strings nodeName propName (fuel + 1) s).val = some r := by
  rw [fdtLoop, Reads.val_bind, h]
  rfl

/-- More passes do not change a result. -/
theorem fdtLoop_mono {s : FdtWalk} {r : Option (Word × Word)} {fuel fuel' : ℕ}
    (hle : fuel ≤ fuel') (h : (fdtLoop m strings nodeName propName fuel s).val = some r) :
    (fdtLoop m strings nodeName propName fuel' s).val = some r := by
  induction fuel generalizing s fuel' with
  | zero => simp [fdtLoop] at h
  | succ fuel ih =>
    obtain ⟨fuel', rfl⟩ := Nat.exists_eq_succ_of_ne_zero (by omega : fuel' ≠ 0)
    cases hb : (fdtBody m strings nodeName propName s).val with
    | none =>
      rw [fdtLoop, Reads.val_bind, hb] at h
      exact absurd h (by simp)
    | some f =>
      cases f with
      | next s' =>
        rw [fdtLoop_next fuel hb] at h
        rw [fdtLoop_next fuel' hb]
        exact ih (by omega) h
      | ret r' =>
        rw [fdtLoop_ret fuel hb] at h
        rw [fdtLoop_ret fuel' hb, h]

end Loop

/-- The C call returns at most one result. -/
theorem FdtReturns.unique {m : Mem} {fdt : Word} {nodeName propName : CStr}
    {r r' : Option (Word × Word)} (h : FdtReturns m fdt nodeName propName r)
    (h' : FdtReturns m fdt nodeName propName r') : r = r' := by
  obtain ⟨f, hf⟩ := h
  obtain ⟨f', hf'⟩ := h'
  have h1 := fdtLoop_mono (le_max_left f f') hf
  have h2 := fdtLoop_mono (le_max_right f f') hf'
  rw [h1] at h2
  simpa using h2

end BBoot.Fdt
