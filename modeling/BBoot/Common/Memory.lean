import BBoot.Common.Word

/-!
# Memory

The targets are big-endian machines with 32-bit addresses, so memory is a
function on `Word` and address arithmetic wraps. `BytesAt m p bs` says that the
bytes `bs` stand at `p`.
-/

namespace BBoot

/-- Byte-addressed memory. -/
abbrev Mem := Word → Byte

/-- The `n` bytes at `p`. -/
def readBytes (m : Mem) : Word → ℕ → List Byte
  | _, 0 => []
  | p, n + 1 => m p :: readBytes m (p + 1) n

/-- The bytes `bs` stand at `p`. -/
def BytesAt (m : Mem) (p : Word) (bs : List Byte) : Prop := readBytes m p bs.length = bs

instance (m : Mem) (p : Word) (bs : List Byte) : Decidable (BytesAt m p bs) := by
  unfold BytesAt; infer_instance

/-- A 16-bit load of the big-endian CPU. -/
def load16 (m : Mem) (p : Word) : BitVec 16 := m p ++ m (p + 1)

/-- A 32-bit load of the big-endian CPU. -/
def load32 (m : Mem) (p : Word) : Word := m p ++ m (p + 1) ++ m (p + 2) ++ m (p + 3)

/-- A memory that holds `bs` at `base`, and zeros. -/
def memOf (base : Word) (bs : List Byte) : Mem := fun a => bs.getD (a - base).toNat 0

theorem ofNat_succ (n : ℕ) : BitVec.ofNat 32 (n + 1) = BitVec.ofNat 32 n + 1 := by
  rw [BitVec.ofNat_add]; rfl

/-- An offset within a range that does not wrap. -/
theorem toNat_add_ofNat {p : Word} {i n : ℕ} (hi : i < n) (h : p.toNat + n ≤ 2 ^ 32) :
    (p + BitVec.ofNat 32 i).toNat = p.toNat + i := by
  rw [BitVec.toNat_add, BitVec.toNat_ofNat, Nat.mod_eq_of_lt (show i < 2 ^ 32 by omega),
    Nat.mod_eq_of_lt (by omega)]

@[simp] theorem readBytes_length (m : Mem) (p : Word) (n : ℕ) : (readBytes m p n).length = n := by
  induction n generalizing p with
  | zero => rfl
  | succ n ih => rw [readBytes, List.length_cons, ih]

theorem readBytes_getElem (m : Mem) (p : Word) (n i : ℕ) (h : i < (readBytes m p n).length) :
    (readBytes m p n)[i] = m (p + BitVec.ofNat 32 i) := by
  induction n generalizing p i with
  | zero => simp [readBytes] at h
  | succ n ih =>
    cases i with
    | zero => simp [readBytes]
    | succ i =>
      simp only [readBytes, List.getElem_cons_succ]
      rw [ih, ofNat_succ, BitVec.add_assoc, BitVec.add_comm 1]

theorem readBytes_add (m : Mem) (p : Word) (n k : ℕ) :
    readBytes m p (n + k) = readBytes m p n ++ readBytes m (p + BitVec.ofNat 32 n) k := by
  induction n generalizing p with
  | zero => simp [readBytes]
  | succ n ih =>
    rw [Nat.succ_add, readBytes, readBytes, ih, List.cons_append, ofNat_succ, BitVec.add_assoc,
      BitVec.add_comm 1]

@[simp] theorem bytesAt_nil (m : Mem) (p : Word) : BytesAt m p [] := rfl

@[simp] theorem bytesAt_cons (m : Mem) (p : Word) (b : Byte) (bs : List Byte) :
    BytesAt m p (b :: bs) ↔ m p = b ∧ BytesAt m (p + 1) bs := by
  simp [BytesAt, readBytes]

theorem bytesAt_append (m : Mem) (p : Word) (xs ys : List Byte) :
    BytesAt m p (xs ++ ys) ↔ BytesAt m p xs ∧ BytesAt m (p + BitVec.ofNat 32 xs.length) ys := by
  unfold BytesAt
  rw [List.length_append, readBytes_add]
  exact ⟨fun h => List.append_inj h (by simp), fun h => by rw [h.1, h.2]⟩

theorem BytesAt.getElem {m : Mem} {p : Word} {bs : List Byte} (h : BytesAt m p bs) (i : ℕ)
    (hi : i < bs.length) : m (p + BitVec.ofNat 32 i) = bs[i] := by
  have hr := readBytes_getElem m p bs.length i (by simpa using hi)
  rw [← hr]
  congr 1

theorem bytesAt_memOf (p : Word) {bs : List Byte} (h : bs.length ≤ 2 ^ 32) :
    BytesAt (memOf p bs) p bs := by
  unfold BytesAt
  apply List.ext_getElem (by simp)
  intro i h1 h2
  have hi : (p + BitVec.ofNat 32 i - p).toNat = i := by
    rw [BitVec.add_comm, BitVec.add_sub_cancel, BitVec.toNat_ofNat, Nat.mod_eq_of_lt (by omega)]
  rw [readBytes_getElem, memOf, hi, List.getD_eq_getElem _ _ h2]

end BBoot
