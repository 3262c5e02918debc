import BBoot.Common.Memory

/-!
# Computations that log what they read

`Reads α` is the result of a computation together with the accesses it made,
in order. `val = none` stands for a computation that does not return. The
rules `val_bind` and `within_bind` take a program apart one statement at a
time. `SameIf P x x'` compares two computations: if all accesses of the first
meet `P`, the second is the same.
-/

namespace BBoot

/-- A read of `len` bytes at `addr`. -/
structure Access where
  addr : Word
  len : ℕ
deriving DecidableEq, Repr

/-- Every byte of the access has an offset from `base` below `size`; addresses wrap. -/
def Access.Within (a : Access) (base : Word) (size : ℕ) : Prop :=
  ∀ i < a.len, (a.addr + BitVec.ofNat 32 i - base).toNat < size

theorem Access.Within.mono {a : Word} {n k : ℕ} {base : Word} {size : ℕ}
    (h : Access.Within ⟨a, n⟩ base size) (hk : k ≤ n) : Access.Within ⟨a, k⟩ base size :=
  fun i hi => h i (lt_of_lt_of_le hi hk)

/-- A result, if there is one, and the reads made on the way. -/
structure Reads (α : Type) where
  val : Option α
  log : List Access

namespace Reads

variable {α β : Type}

/-- One computation after another. -/
def bind (x : Reads α) (f : α → Reads β) : Reads β :=
  match x.val with
  | none => ⟨none, x.log⟩
  | some a => ⟨(f a).val, x.log ++ (f a).log⟩

instance : Monad Reads where
  pure a := ⟨some a, []⟩
  bind := Reads.bind

/-- A computation that makes one access. -/
def access (a : Word) (len : ℕ) (v : α) : Reads α := ⟨some v, [⟨a, len⟩]⟩

/-- Every access lies within `[base, base + size)`. -/
def Within (x : Reads α) (base : Word) (size : ℕ) : Prop := ∀ a ∈ x.log, a.Within base size

@[simp] theorem val_pure (a : α) : (pure a : Reads α).val = some a := rfl

@[simp] theorem log_pure (a : α) : (pure a : Reads α).log = [] := rfl

@[simp] theorem val_access (a : Word) (len : ℕ) (v : α) : (access a len v).val = some v := rfl

@[simp] theorem log_access (a : Word) (len : ℕ) (v : α) : (access a len v).log = [⟨a, len⟩] := rfl

theorem val_bind (x : Reads α) (f : α → Reads β) : (x >>= f).val = x.val.bind fun a => (f a).val := by
  show (x.bind f).val = _
  unfold Reads.bind
  cases x.val <;> rfl

/-- The reads of a sequence, up to what is returned at the end. -/
theorem log_bind_congr (x : Reads α) {f f' : α → Reads β} (h : ∀ a, (f a).log = (f' a).log) :
    (x >>= f).log = (x >>= f').log := by
  show (x.bind f).log = (x.bind f').log
  unfold Reads.bind
  cases x.val with
  | none => rfl
  | some a =>
    show x.log ++ (f a).log = x.log ++ (f' a).log
    rw [h a]

/-- The rule for a sequence: the first part stays inside, and so does what
    follows it if it returns. -/
theorem within_bind (x : Reads α) (f : α → Reads β) (base : Word) (size : ℕ) :
    (x >>= f).Within base size ↔
      x.Within base size ∧ ∀ a, x.val = some a → (f a).Within base size := by
  show (x.bind f).Within base size ↔ _
  unfold Reads.bind Within
  cases x.val with
  | none => simp
  | some a => simp [or_imp, forall_and]

@[simp] theorem within_pure (a : α) (base : Word) (size : ℕ) :
    (pure a : Reads α).Within base size := by
  simp [Within]

@[simp] theorem within_access (a : Word) (len : ℕ) (v : α) (base : Word) (size : ℕ) :
    (access a len v).Within base size ↔ (⟨a, len⟩ : Access).Within base size := by
  simp [Within]

/-! ## Two computations -/

/-- If the accesses of `x` meet `P`, then `x'` makes the same ones with the same result. -/
def SameIf (P : Access → Prop) (x x' : Reads α) : Prop := (∀ a ∈ x.log, P a) → x' = x

theorem sameIf_refl (P : Access → Prop) (x : Reads α) : SameIf P x x := fun _ => rfl

theorem sameIf_access {P : Access → Prop} {a : Word} {len : ℕ} {v v' : α}
    (h : P ⟨a, len⟩ → v' = v) : SameIf P (access a len v) (access a len v') := fun hlog => by
  rw [h (hlog _ (List.mem_singleton_self _))]

theorem sameIf_bind {P : Access → Prop} {x x' : Reads α} {f f' : α → Reads β} (hx : SameIf P x x')
    (hf : ∀ a, x.val = some a → SameIf P (f a) (f' a)) : SameIf P (x >>= f) (x' >>= f') := by
  show SameIf P (x.bind f) (x'.bind f')
  intro hlog
  unfold Reads.bind at hlog ⊢
  cases hv : x.val with
  | none =>
    rw [hv] at hlog
    rw [hx hlog, hv]
  | some a =>
    rw [hv] at hlog
    rw [hx fun b hb => hlog b (List.mem_append_left _ hb), hv]
    dsimp only
    rw [hf a hv fun b hb => hlog b (List.mem_append_right _ hb)]

theorem sameIf_ite {P : Access → Prop} {c : Prop} [Decidable c] {x x' y y' : Reads α}
    (hx : c → SameIf P x x') (hy : ¬ c → SameIf P y y') :
    SameIf P (if c then x else y) (if c then x' else y') := by
  split_ifs with hc
  · exact hx hc
  · exact hy hc

end Reads

/-- The memories agree on the bytes of the access; addresses wrap. -/
def Access.Same (m m' : Mem) (a : Access) : Prop :=
  ∀ i < a.len, m' (a.addr + BitVec.ofNat 32 i) = m (a.addr + BitVec.ofNat 32 i)

section

variable {m m' : Mem} {p : Word}

theorem readBytes_same {n : ℕ} (h : Access.Same m m' ⟨p, n⟩) : readBytes m' p n = readBytes m p n := by
  induction n generalizing p with
  | zero => rfl
  | succ n ih =>
    have h0 := h 0 (Nat.succ_pos _)
    rw [BitVec.add_zero] at h0
    rw [readBytes, readBytes, h0, ih]
    intro i hi
    have hi' := h (i + 1) (Nat.succ_lt_succ hi)
    rw [ofNat_succ] at hi'
    rwa [BitVec.add_assoc, BitVec.add_comm 1]

theorem load16_same (h : Access.Same m m' ⟨p, 2⟩) : load16 m' p = load16 m p := by
  have h0 := h 0 (by decide : 0 < 2)
  have h1 := h 1 (by decide : 1 < 2)
  rw [BitVec.add_zero] at h0
  unfold load16
  rw [h0]
  exact congrArg _ h1

theorem load32_same (h : Access.Same m m' ⟨p, 4⟩) : load32 m' p = load32 m p := by
  have h0 := h 0 (by decide : 0 < 4)
  have h1 : m' (p + 1) = m (p + 1) := h 1 (by decide : 1 < 4)
  have h2 : m' (p + 2) = m (p + 2) := h 2 (by decide : 2 < 4)
  have h3 : m' (p + 3) = m (p + 3) := h 3 (by decide : 3 < 4)
  rw [BitVec.add_zero] at h0
  rw [load32, load32, h0, h1, h2, h3]

end

end BBoot
