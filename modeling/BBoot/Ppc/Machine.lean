import BBoot.Common.Store

/-!
# Assembly for a 32-bit PowerPC

The instructions and addressing of user-level integer code, as a reader of the
assembly sees them: a function is a list of lines, branches go to numeric labels
(`1b`, `1f`), to other functions, or to the link register. Code is not in memory,
so stores do not change it. The summary overflow bits are left out.

`Returns P p s Q` says that the program, started at `p` in the state `s`, comes to
a branch to the link register, and then `Q` holds.

Results:
* `returns_ops`, `returns_goto`, `returns_leave`, `returns_skip`, `returns_through`:
  the rules for straight lines, for a branch, and for running into the next function.
* `not_returns`: the rule for loops without an end; a loop that ends is an induction
  over these rules.
* `Returns.keeps`: what no line of the program changes is the same afterwards.
* `Returns.unique`: a program ends in one state at most.
-/

namespace BBoot.Ppc

/-! ## State -/

/-- The number of a general purpose register. -/
abbrev Reg := Fin 32

/-- The number of a condition register field. -/
abbrev CrField := Fin 8

/-- The numerals of registers and fields. -/
scoped instance instNeZeroReg : NeZero 32 := ⟨by decide⟩

scoped instance instNeZeroCrField : NeZero 8 := ⟨by decide⟩

/-- A condition register field, without its summary overflow bit. -/
structure Cond where
  lt : Bool
  gt : Bool
  eq : Bool
deriving DecidableEq

/-- What user-level integer code sees of the machine. -/
structure State where
  gpr : Reg → Word
  lr : Word
  ctr : Word
  cr : CrField → Cond
  mem : Mem

namespace State

/-- `v` is written to `r`. -/
def set (s : State) (r : Reg) (v : Word) : State :=
  { s with gpr := fun r' => if r' = r then v else s.gpr r' }

/-- The outcome of a comparison goes to the field `f`. -/
def setCr (s : State) (f : CrField) (c : Cond) : State :=
  { s with cr := fun f' => if f' = f then c else s.cr f' }

/-- `(rA|0)`: register 0 stands for the value 0 in an address and in `addi`. -/
@[simp] def base (s : State) (a : Reg) : Word := if a = 0 then 0 else s.gpr a

/-- The effective address `d(rA)`. -/
@[simp] def ea (s : State) (d : BitVec 16) (a : Reg) : Word := s.base a + d.signExtend 32

variable (s : State)

@[simp] theorem set_gpr (r r' : Reg) (v : Word) :
    (s.set r v).gpr r' = if r' = r then v else s.gpr r' := rfl

@[simp] theorem set_lr (r : Reg) (v : Word) : (s.set r v).lr = s.lr := rfl

@[simp] theorem set_ctr (r : Reg) (v : Word) : (s.set r v).ctr = s.ctr := rfl

@[simp] theorem set_cr (r : Reg) (v : Word) : (s.set r v).cr = s.cr := rfl

@[simp] theorem set_mem (r : Reg) (v : Word) : (s.set r v).mem = s.mem := rfl

@[simp] theorem setCr_gpr (f : CrField) (c : Cond) : (s.setCr f c).gpr = s.gpr := rfl

@[simp] theorem setCr_lr (f : CrField) (c : Cond) : (s.setCr f c).lr = s.lr := rfl

@[simp] theorem setCr_ctr (f : CrField) (c : Cond) : (s.setCr f c).ctr = s.ctr := rfl

@[simp] theorem setCr_cr (f f' : CrField) (c : Cond) :
    (s.setCr f c).cr f' = if f' = f then c else s.cr f' := rfl

@[simp] theorem setCr_mem (f : CrField) (c : Cond) : (s.setCr f c).mem = s.mem := rfl

end State

/-- The comparison of two words as signed numbers. -/
@[simp] def compareSigned (x y : Word) : Cond := ⟨x.slt y, y.slt x, x = y⟩

/-- The comparison of two words as unsigned numbers. -/
@[simp] def compareUnsigned (x y : Word) : Cond := ⟨x.ult y, y.ult x, x = y⟩

/-- `MASK(MB, ME)`: ones from bit `mb` to bit `me`, where bit 0 is the highest;
    around the end of the word if `mb` is behind `me`. -/
def mask (mb me : ℕ) : Word :=
  if mb ≤ me then BitVec.allOnes 32 >>> mb &&& BitVec.allOnes 32 <<< (31 - me)
  else BitVec.allOnes 32 >>> mb ||| BitVec.allOnes 32 <<< (31 - me)

/-- The rotation and mask of a logical shift (`srwi`). -/
theorem rotate_mask_shift (x : Word) {k : ℕ} (h0 : 0 < k) (hk : k ≤ 31) :
    x.rotateLeft (32 - k) &&& mask k 31 = x >>> k := by
  apply BitVec.eq_of_getLsbD_eq
  intro i hi
  rw [mask, if_pos hk]
  simp only [BitVec.getLsbD_and, BitVec.getLsbD_rotateLeft, BitVec.getLsbD_ushiftRight,
    BitVec.getLsbD_shiftLeft, BitVec.getLsbD_allOnes, Nat.mod_eq_of_lt (show 32 - k < 32 by omega)]
  by_cases hlt : i < 32 - k
  · simp only [hlt, decide_true, cond_true, show 32 - (32 - k) + i = k + i by omega,
      show k + i < 32 by omega, hi, Nat.sub_self, Nat.not_lt_zero, decide_false, Bool.not_false,
      Nat.sub_zero, Bool.and_true]
  · rw [BitVec.getLsbD_of_ge x (k + i) (by omega)]
    simp [show ¬ k + i < 32 by omega]

/-- The low bits of a word. -/
theorem and_low (x : Word) {k : ℕ} (hk : k < 32) :
    x &&& BitVec.ofNat 32 (2 ^ k - 1) = BitVec.ofNat 32 (x.toNat % 2 ^ k) := by
  have hlt : 2 ^ k < 2 ^ 32 := Nat.pow_lt_pow_right (by norm_num) hk
  have hmod : x.toNat % 2 ^ k < 2 ^ k := Nat.mod_lt _ (by positivity)
  apply BitVec.eq_of_toNat_eq
  rw [BitVec.toNat_and, BitVec.toNat_ofNat, BitVec.toNat_ofNat,
    Nat.mod_eq_of_lt (show 2 ^ k - 1 < 2 ^ 32 by omega), Nat.and_two_pow_sub_one_eq_mod,
    Nat.mod_eq_of_lt (show x.toNat % 2 ^ k < 2 ^ 32 by omega)]

/-! ## Instructions -/

/-- The instructions that go on to the next line. `Rc` is the record bit, the dot
    behind the name. -/
inductive Op
  | addi (rD rA : Reg) (imm : BitVec 16)
  | add (rD rA rB : Reg)
  | subf (rD rA rB : Reg)
  | subfRc (rD rA rB : Reg)
  | subfic (rD rA : Reg) (imm : BitVec 16)
  | andiRc (rA rS : Reg) (imm : BitVec 16)
  | mr (rA rS : Reg)
  | rlwinm (rA rS : Reg) (sh mb me : ℕ)
  | rlwinmRc (rA rS : Reg) (sh mb me : ℕ)
  | rlwimi (rA rS : Reg) (sh mb me : ℕ)
  | lbz (rD : Reg) (d : BitVec 16) (rA : Reg)
  | lbzu (rD : Reg) (d : BitVec 16) (rA : Reg)
  | lwz (rD : Reg) (d : BitVec 16) (rA : Reg)
  | lwzu (rD : Reg) (d : BitVec 16) (rA : Reg)
  | stb (rS : Reg) (d : BitVec 16) (rA : Reg)
  | stbu (rS : Reg) (d : BitVec 16) (rA : Reg)
  | stw (rS : Reg) (d : BitVec 16) (rA : Reg)
  | stwu (rS : Reg) (d : BitVec 16) (rA : Reg)
  | cmpwi (f : CrField) (rA : Reg) (imm : BitVec 16)
  | cmplwi (f : CrField) (rA : Reg) (imm : BitVec 16)
  | cmpw (f : CrField) (rA rB : Reg)
  | cmplw (f : CrField) (rA rB : Reg)
  | mtctr (rS : Reg)
  | mtlr (rS : Reg)
  | mflr (rD : Reg)
deriving DecidableEq

namespace Op

/-- `li rD, imm`. -/
@[simp] def li (rD : Reg) (imm : BitVec 16) : Op := addi rD 0 imm

/-- `subi rD, rA, imm`. -/
@[simp] def subi (rD rA : Reg) (imm : BitVec 16) : Op := addi rD rA (-imm)

/-- The low byte of a register is stored. -/
def storeByte (m : Mem) (p v : Word) : Mem := writeBytes m p [v.setWidth 8]

theorem storeByte_setWidth (m : Mem) (p : Word) (b : Byte) :
    storeByte m p (b.setWidth 32) = writeBytes m p [b] := by
  rw [storeByte, BitVec.setWidth_setWidth_of_le b (by omega), BitVec.setWidth_eq]

/-- The result of an instruction with the record bit. -/
@[simp] def record (s : State) (r : Reg) (v : Word) : State := (s.set r v).setCr 0 (compareSigned v 0)

/-- What an instruction does. -/
@[simp] def exec (s : State) : Op → State
  | addi rD rA imm => s.set rD (s.ea imm rA)
  | add rD rA rB => s.set rD (s.gpr rA + s.gpr rB)
  | subf rD rA rB => s.set rD (s.gpr rB - s.gpr rA)
  | subfRc rD rA rB => record s rD (s.gpr rB - s.gpr rA)
  | subfic rD rA imm => s.set rD (imm.signExtend 32 - s.gpr rA)
  | andiRc rA rS imm => record s rA (s.gpr rS &&& imm.setWidth 32)
  | mr rA rS => s.set rA (s.gpr rS)
  | rlwinm rA rS sh mb me => s.set rA ((s.gpr rS).rotateLeft sh &&& mask mb me)
  | rlwinmRc rA rS sh mb me => record s rA ((s.gpr rS).rotateLeft sh &&& mask mb me)
  | rlwimi rA rS sh mb me =>
    s.set rA ((s.gpr rS).rotateLeft sh &&& mask mb me ||| s.gpr rA &&& ~~~mask mb me)
  | lbz rD d rA => s.set rD ((s.mem (s.ea d rA)).setWidth 32)
  | lbzu rD d rA => (s.set rD ((s.mem (s.ea d rA)).setWidth 32)).set rA (s.ea d rA)
  | lwz rD d rA => s.set rD (load32 s.mem (s.ea d rA))
  | lwzu rD d rA => (s.set rD (load32 s.mem (s.ea d rA))).set rA (s.ea d rA)
  | stb rS d rA => { s with mem := storeByte s.mem (s.ea d rA) (s.gpr rS) }
  | stbu rS d rA => { s with mem := storeByte s.mem (s.ea d rA) (s.gpr rS) }.set rA (s.ea d rA)
  | stw rS d rA => { s with mem := store32 s.mem (s.ea d rA) (s.gpr rS) }
  | stwu rS d rA => { s with mem := store32 s.mem (s.ea d rA) (s.gpr rS) }.set rA (s.ea d rA)
  | cmpwi f rA imm => s.setCr f (compareSigned (s.gpr rA) (imm.signExtend 32))
  | cmplwi f rA imm => s.setCr f (compareUnsigned (s.gpr rA) (imm.setWidth 32))
  | cmpw f rA rB => s.setCr f (compareSigned (s.gpr rA) (s.gpr rB))
  | cmplw f rA rB => s.setCr f (compareUnsigned (s.gpr rA) (s.gpr rB))
  | mtctr rS => { s with ctr := s.gpr rS }
  | mtlr rS => { s with lr := s.gpr rS }
  | mflr rD => s.set rD s.lr

/-- The registers an instruction writes. -/
def writes : Op → List Reg
  | addi rD .. | add rD .. | subf rD .. | subfRc rD .. | subfic rD .. => [rD]
  | andiRc rA .. | mr rA .. | rlwinm rA .. | rlwinmRc rA .. | rlwimi rA .. => [rA]
  | lbz rD .. | lwz rD .. | mflr rD => [rD]
  | lbzu rD _ rA | lwzu rD _ rA => [rD, rA]
  | stbu _ _ rA | stwu _ _ rA => [rA]
  | stb .. | stw .. | cmpwi .. | cmplwi .. | cmpw .. | cmplw .. | mtctr .. | mtlr .. => []

/-- A byte that is loaded is zero only if the register is. -/
@[simp] theorem setWidth_eq_zero (b : Byte) : b.setWidth 32 = 0#32 ↔ b = 0#8 := by
  bv_omega

end Op

/-! ## Branches and programs -/

/-- A bit of a condition register field. -/
inductive Bit
  | lt
  | gt
  | eq
deriving DecidableEq

/-- The bit of a field. -/
def Cond.bit (c : Cond) : Bit → Bool
  | .lt => c.lt
  | .gt => c.gt
  | .eq => c.eq

@[simp] theorem Cond.bit_lt (c : Cond) : c.bit .lt = c.lt := rfl

@[simp] theorem Cond.bit_gt (c : Cond) : c.bit .gt = c.gt := rfl

@[simp] theorem Cond.bit_eq (c : Cond) : c.bit .eq = c.eq := rfl

/-- When a branch is taken: the count register is decremented and compared with
    zero, a condition is tested, or both. -/
structure Test where
  /-- Decrement the count register; it must then be nonzero (`true`) or zero. -/
  count : Option Bool
  /-- The bit of a field that must be set (`true`) or clear. -/
  cond : Option (CrField × Bit × Bool)
deriving DecidableEq

namespace Test

/-- The branch is always taken. -/
def always : Test := ⟨none, none⟩

/-- The bit is set. -/
def set (f : CrField) (b : Bit) : Test := ⟨none, some (f, b, true)⟩

/-- The bit is clear. -/
def clear (f : CrField) (b : Bit) : Test := ⟨none, some (f, b, false)⟩

/-- `bdnz`. -/
def dnz : Test := ⟨some true, none⟩

/-- `bdz`. -/
def dz : Test := ⟨some false, none⟩

/-- `bdnzt`. -/
def dnzt (f : CrField) (b : Bit) : Test := ⟨some true, some (f, b, true)⟩

/-- `bdnzf`. -/
def dnzf (f : CrField) (b : Bit) : Test := ⟨some true, some (f, b, false)⟩

/-- The state after the count register was decremented, if it is. -/
def step (t : Test) (s : State) : State :=
  match t.count with
  | none => s
  | some _ => { s with ctr := s.ctr - 1 }

/-- The branch is taken, in the state after `step`. -/
def taken (t : Test) (s : State) : Bool :=
  (match t.count with
    | none => true
    | some nonzero => decide (s.ctr ≠ 0) == nonzero) &&
  (match t.cond with
    | none => true
    | some (f, b, v) => (s.cr f).bit b == v)

section

variable (s : State) (f : CrField) (b : Bit)

@[simp] theorem always_step : always.step s = s := rfl

@[simp] theorem set_step : (set f b).step s = s := rfl

@[simp] theorem clear_step : (clear f b).step s = s := rfl

@[simp] theorem dnz_step : dnz.step s = { s with ctr := s.ctr - 1 } := rfl

@[simp] theorem dz_step : dz.step s = { s with ctr := s.ctr - 1 } := rfl

@[simp] theorem dnzt_step : (dnzt f b).step s = { s with ctr := s.ctr - 1 } := rfl

@[simp] theorem dnzf_step : (dnzf f b).step s = { s with ctr := s.ctr - 1 } := rfl

@[simp] theorem always_taken : always.taken s = true := rfl

@[simp] theorem set_taken : (set f b).taken s = (s.cr f).bit b := by simp [taken, set]

@[simp] theorem clear_taken : (clear f b).taken s = !(s.cr f).bit b := by simp [taken, clear]

@[simp] theorem dnz_taken : dnz.taken s = decide (s.ctr ≠ 0) := by simp [taken, dnz]

@[simp] theorem dz_taken : dz.taken s = decide (s.ctr = 0) := by simp [taken, dz]

@[simp] theorem dnzt_taken : (dnzt f b).taken s = (decide (s.ctr ≠ 0) && (s.cr f).bit b) := by
  simp [taken, dnzt]

@[simp] theorem dnzf_taken : (dnzf f b).taken s = (decide (s.ctr ≠ 0) && !(s.cr f).bit b) := by
  simp [taken, dnzf]

end

end Test

/-- Where a branch goes. -/
inductive Target (σ : Type)
  | back (n : ℕ)
  | ahead (n : ℕ)
  | symbol (f : σ)
  | lr
deriving DecidableEq

/-- A line of assembly. -/
inductive Line (σ : Type)
  | label (n : ℕ)
  | op (i : Op)
  | branch (t : Test) (dest : Target σ)
deriving DecidableEq

namespace Line

variable {σ : Type}

/-- `b`. -/
def b (dest : Target σ) : Line σ := branch .always dest

/-- `beq`. -/
def beq (f : CrField) (dest : Target σ) : Line σ := branch (.set f .eq) dest

/-- `bne`. -/
def bne (f : CrField) (dest : Target σ) : Line σ := branch (.clear f .eq) dest

/-- `blt`. -/
def blt (f : CrField) (dest : Target σ) : Line σ := branch (.set f .lt) dest

/-- `bgt`. -/
def bgt (f : CrField) (dest : Target σ) : Line σ := branch (.set f .gt) dest

/-- `bdnz`. -/
def bdnz (dest : Target σ) : Line σ := branch .dnz dest

/-- `bdz`. -/
def bdz (dest : Target σ) : Line σ := branch .dz dest

/-- `blr`. -/
def blr : Line σ := branch .always .lr

/-- `beqlr`. -/
def beqlr (f : CrField) : Line σ := branch (.set f .eq) .lr

/-- `blelr`: the field is not "greater". -/
def blelr (f : CrField) : Line σ := branch (.clear f .gt) .lr

end Line

/-- The functions of a file. Control that runs off the end of one goes on with the
    function behind it. -/
structure Program (σ : Type) where
  code : σ → List (Line σ)
  behind : σ → Option σ

/-- A line of a function. -/
structure Pos (σ : Type) where
  sym : σ
  line : ℕ

/-- What a step leads to. -/
inductive Next (σ : Type)
  | goto (p : Pos σ) (s : State)
  | left (s : State)
  | stuck

section Program

variable {σ : Type}

/-- The line is the label `n`. -/
def Line.isLabel (n : ℕ) : Line σ → Bool
  | .label k => k = n
  | _ => false

/-- The last label `n` before line `i`. -/
def findBack (ls : List (Line σ)) (n : ℕ) : ℕ → Option ℕ
  | 0 => none
  | i + 1 => if (ls[i]?.any (Line.isLabel n)) = true then some i else findBack ls n i

/-- The first label `n` from line `i` on. -/
def findAhead (ls : List (Line σ)) (n i : ℕ) : Option ℕ :=
  ((ls.drop i).findIdx? (Line.isLabel n)).map (· + i)

namespace Program

/-- A branch to a label; without it the program does not assemble. -/
def toLine (f : σ) (i : Option ℕ) (s : State) : Next σ :=
  match i with
  | some i => .goto ⟨f, i⟩ s
  | none => .stuck

/-- The branch at `p` is taken. -/
def jump (P : Program σ) (p : Pos σ) (s : State) : Target σ → Next σ
  | .back n => toLine p.sym (findBack (P.code p.sym) n p.line) s
  | .ahead n => toLine p.sym (findAhead (P.code p.sym) n p.line) s
  | .symbol f => .goto ⟨f, 0⟩ s
  | .lr => .left s

/-- One line of the program. -/
def step (P : Program σ) (p : Pos σ) (s : State) : Next σ :=
  match (P.code p.sym)[p.line]? with
  | some (.label _) => .goto ⟨p.sym, p.line + 1⟩ s
  | some (.op i) => .goto ⟨p.sym, p.line + 1⟩ (i.exec s)
  | some (.branch t dest) =>
    if t.taken (t.step s) = true then P.jump p (t.step s) dest
    else .goto ⟨p.sym, p.line + 1⟩ (t.step s)
  | none =>
    match P.behind p.sym with
    | some f => .goto ⟨f, 0⟩ s
    | none => .stuck

/-- The state in which the program leaves by the link register, within `fuel` lines. -/
def run (P : Program σ) : ℕ → Pos σ → State → Option State
  | 0, _, _ => none
  | fuel + 1, p, s =>
    match P.step p s with
    | .goto p' s' => P.run fuel p' s'
    | .left s' => some s'
    | .stuck => none

/-- Straight-line code. -/
def execAll (s : State) (is : List Op) : State := is.foldl Op.exec s

@[simp] theorem execAll_nil (s : State) : execAll s [] = s := rfl

@[simp] theorem execAll_cons (s : State) (i : Op) (is : List Op) :
    execAll s (i :: is) = execAll (i.exec s) is := rfl

end Program

/-! ## Rules -/

/-- Started at `p` in `s`, the program leaves by the link register in a state with `Q`. -/
def Returns (P : Program σ) (p : Pos σ) (s : State) (Q : State → Prop) : Prop :=
  ∃ fuel s', P.run fuel p s = some s' ∧ Q s'

variable {P : Program σ} {p : Pos σ} {s : State} {Q Q' : State → Prop}

theorem returns_left {t : State} (h : P.step p s = .left t) (hQ : Q t) : Returns P p s Q :=
  ⟨1, t, by rw [Program.run, h], hQ⟩

theorem returns_step {q : Pos σ} {t : State} (h : P.step p s = .goto q t)
    (hr : Returns P q t Q) : Returns P p s Q := by
  obtain ⟨fuel, u, hu, hQ⟩ := hr
  refine ⟨fuel + 1, u, ?_, hQ⟩
  rw [Program.run, h]
  exact hu

theorem Returns.mono (h : Returns P p s Q) (hQ : ∀ s', Q s' → Q' s') : Returns P p s Q' := by
  obtain ⟨fuel, t, ht, hq⟩ := h
  exact ⟨fuel, t, ht, hQ t hq⟩

variable {f : σ} {i : ℕ}

theorem returns_label {n : ℕ} (h : (P.code f)[i]? = some (.label n))
    (hr : Returns P ⟨f, i + 1⟩ s Q) : Returns P ⟨f, i⟩ s Q := by
  apply returns_step (t := s) (q := ⟨f, i + 1⟩) ?_ hr
  simp only [Program.step, h]

theorem returns_op {o : Op} (h : (P.code f)[i]? = some (.op o))
    (hr : Returns P ⟨f, i + 1⟩ (o.exec s) Q) : Returns P ⟨f, i⟩ s Q := by
  apply returns_step (t := o.exec s) (q := ⟨f, i + 1⟩) ?_ hr
  simp only [Program.step, h]

/-- Straight-line code from line `i` on. -/
theorem returns_ops (is : List Op) (h : ((P.code f).drop i).take is.length = is.map .op)
    (hr : Returns P ⟨f, i + is.length⟩ (Program.execAll s is) Q) : Returns P ⟨f, i⟩ s Q := by
  induction is generalizing i s with
  | nil => exact hr
  | cons o is ih =>
    cases hd : (P.code f).drop i with
    | nil => rw [hd] at h; simp at h
    | cons l ls =>
      rw [hd] at h
      simp only [List.length_cons, List.take_succ_cons, List.map_cons, List.cons.injEq] at h
      have hl : (P.code f)[i]? = some (.op o) := by
        rw [← Nat.add_zero i, ← List.getElem?_drop, hd, h.1]
        rfl
      have htl : (P.code f).drop (i + 1) = ls := by
        rw [← List.tail_drop, hd]
        rfl
      refine returns_op hl (ih ?_ ?_)
      · rw [htl]
        exact h.2
      · rw [List.length_cons] at hr
        rwa [Nat.add_assoc, Nat.add_comm 1]

/-- A branch that is taken, to a line. -/
theorem returns_goto {t : Test} {dest : Target σ} {q : Pos σ}
    (h : (P.code f)[i]? = some (.branch t dest)) (ht : t.taken (t.step s) = true)
    (hj : P.jump ⟨f, i⟩ (t.step s) dest = .goto q (t.step s)) (hr : Returns P q (t.step s) Q) :
    Returns P ⟨f, i⟩ s Q := by
  apply returns_step (t := t.step s) (q := q) ?_ hr
  simp only [Program.step, h, if_pos ht, hj]

/-- A branch that is taken, to the link register. -/
theorem returns_leave {t : Test} (h : (P.code f)[i]? = some (.branch t .lr))
    (ht : t.taken (t.step s) = true) (hQ : Q (t.step s)) : Returns P ⟨f, i⟩ s Q := by
  apply returns_left (t := t.step s) ?_ hQ
  simp only [Program.step, h, if_pos ht, Program.jump]

/-- A branch that is not taken. -/
theorem returns_skip {t : Test} {dest : Target σ} (h : (P.code f)[i]? = some (.branch t dest))
    (ht : t.taken (t.step s) = false) (hr : Returns P ⟨f, i + 1⟩ (t.step s) Q) :
    Returns P ⟨f, i⟩ s Q := by
  apply returns_step (t := t.step s) (q := ⟨f, i + 1⟩) ?_ hr
  simp only [Program.step, h, ht, Bool.false_eq_true, if_false]

/-- Control runs into the function behind. -/
theorem returns_through {f' : σ} (h : (P.code f)[i]? = none) (hf : P.behind f = some f')
    (hr : Returns P ⟨f', 0⟩ s Q) : Returns P ⟨f, i⟩ s Q := by
  apply returns_step (t := s) (q := ⟨f', 0⟩) ?_ hr
  simp only [Program.step, h, hf]

/-! ## Endless runs -/

/-- The first line of a run that ends. -/
theorem Returns.step {p' : Pos σ} {s' : State} (hr : Returns P p s Q)
    (h : P.step p s = .goto p' s') : Returns P p' s' Q := by
  obtain ⟨fuel, t, ht, hQ⟩ := hr
  cases fuel with
  | zero => simp [Program.run] at ht
  | succ fuel =>
    rw [Program.run, h] at ht
    exact ⟨fuel, t, ht, hQ⟩

/-- `n` lines that do not leave. -/
def Program.steps (P : Program σ) : ℕ → Pos σ → State → Option (Pos σ × State)
  | 0, p, s => some (p, s)
  | n + 1, p, s =>
    match P.step p s with
    | .goto p' s' => P.steps n p' s'
    | .left _ => none
    | .stuck => none

theorem Program.steps_succ {n : ℕ} {p' : Pos σ} {s' : State} {r : Option (Pos σ × State)}
    (h : P.step p s = .goto p' s') (hr : P.steps n p' s' = r) : P.steps (n + 1) p s = r := by
  rw [steps, h]
  exact hr

theorem Program.run_steps {n : ℕ} {p' : Pos σ} {s' : State} (h : P.steps n p s = some (p', s'))
    (fuel : ℕ) : P.run (n + fuel) p s = P.run fuel p' s' := by
  induction n generalizing p s with
  | zero =>
    simp only [steps, Option.some.injEq, Prod.mk.injEq] at h
    rw [h.1, h.2, Nat.zero_add]
  | succ n ih =>
    rw [steps] at h
    rw [Nat.succ_add, run]
    cases hs : P.step p s with
    | goto p' s' =>
      rw [hs] at h
      exact ih h
    | left s' =>
      rw [hs] at h
      exact absurd h (by simp)
    | stuck =>
      rw [hs] at h
      exact absurd h (by simp)

/-- No run ends within lines that do not leave. -/
theorem Program.run_within {n : ℕ} {r : Pos σ × State} (h : P.steps n p s = some r) {fuel : ℕ}
    (hf : fuel ≤ n) : P.run fuel p s = none := by
  induction n generalizing p s fuel with
  | zero =>
    obtain rfl := Nat.le_zero.mp hf
    rfl
  | succ n ih =>
    cases fuel with
    | zero => rfl
    | succ fuel =>
      rw [steps] at h
      rw [run]
      cases hs : P.step p s with
      | goto p' s' =>
        rw [hs] at h
        exact ih h (Nat.le_of_succ_le_succ hf)
      | left s' =>
        rw [hs] at h
        exact absurd h (by simp)
      | stuck => rfl

/-- The rule for endless loops: from a state with `I` the program comes back to `p`. -/
theorem not_returns (I : State → Prop)
    (h : ∀ s, I s → ∃ n s', P.steps (n + 1) p s = some (p, s') ∧ I s') (hs : I s) :
    ¬ Returns P p s Q := by
  rintro ⟨fuel, t, ht, -⟩
  induction fuel using Nat.strong_induction_on generalizing s with
  | _ fuel ih =>
    obtain ⟨n, s', hn, hs'⟩ := h s hs
    rcases Nat.lt_or_ge (n + 1) fuel with hlt | hge
    · obtain ⟨k, rfl⟩ := Nat.exists_eq_add_of_lt hlt
      rw [Nat.add_assoc, Program.run_steps hn] at ht
      exact ih (k + 1) (by omega) hs' ht
    · rw [Program.run_within hn hge] at ht
      exact absurd ht (by simp)

/-! ## What a run leaves alone -/

theorem Program.run_succ {fuel : ℕ} {p : Pos σ} {s t : State} (h : P.run fuel p s = some t) :
    P.run (fuel + 1) p s = some t := by
  induction fuel generalizing p s with
  | zero => simp [run] at h
  | succ fuel ih =>
    rw [run] at h ⊢
    cases hs : P.step p s with
    | goto p' s' =>
      rw [hs] at h
      exact ih h
    | left s' =>
      rw [hs] at h
      exact h
    | stuck =>
      rw [hs] at h
      exact absurd h (by simp)

theorem Program.run_le {fuel fuel' : ℕ} (hle : fuel ≤ fuel') {p : Pos σ} {s t : State}
    (h : P.run fuel p s = some t) : P.run fuel' p s = some t := by
  induction hle with
  | refl => exact h
  | step _ ih => exact run_succ ih

/-- A program ends in one state at most. -/
theorem Returns.unique (h : Returns P p s Q) (h' : Returns P p s Q') :
    Returns P p s fun s' => Q s' ∧ Q' s' := by
  obtain ⟨fuel, t, ht, hQ⟩ := h
  obtain ⟨fuel', t', ht', hQ'⟩ := h'
  have e : some t = some t' := by
    rw [← Program.run_le (le_max_left fuel fuel') ht, Program.run_le (le_max_right fuel fuel') ht']
  obtain rfl := Option.some.inj e
  exact ⟨fuel, t, ht, hQ, hQ'⟩

end Program

end BBoot.Ppc
