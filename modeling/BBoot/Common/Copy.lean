import BBoot.Common.Store

/-!
# Copies and fills

A program that copies `n` bytes from `q` to `d` in pieces reads memory that it has
already changed. `Upward d q n` says that going up no byte is overwritten before
it is read; it depends on the distance of the two only, so it holds of what is
left as well. `copyBytes_up` and `copyBytes_down` are one piece and the rest.

Results:
* `writeBytes_append`: one write behind another.
* `copyBytes_up`, `copyBytes_down`: a copy in two pieces, from below and from
  above.
* `upward_of_fits`: a move to a lower address may go upwards.
* `fillBytes_over`: a fill that begins in an earlier one.
-/

namespace BBoot

/-- The memory after the `n` bytes at `q` were copied to `d`. -/
def copyBytes (m : Mem) (d q : Word) (n : ℕ) : Mem := writeBytes m d (readBytes m q n)

/-- The memory after `n` bytes at `d` were set to `b`. -/
def fillBytes (m : Mem) (d : Word) (n : ℕ) (b : Byte) : Mem := writeBytes m d (List.replicate n b)

/-- Copying upwards from `q` to `d`, no byte is overwritten before it is read. -/
def Upward (d q : Word) (n : ℕ) : Prop := d = q ∨ n ≤ (d - q).toNat

instance (d q : Word) (n : ℕ) : Decidable (Upward d q n) := by unfold Upward; infer_instance

/-- One write behind another. -/
theorem writeBytes_append (m : Mem) (p : Word) {xs ys : List Byte}
    (h : xs.length + ys.length ≤ 2 ^ 32) :
    writeBytes (writeBytes m p xs) (p + BitVec.ofNat 32 xs.length) ys = writeBytes m p (xs ++ ys) := by
  funext a
  unfold writeBytes
  have hxs : (BitVec.ofNat 32 xs.length).toNat = xs.length % 2 ^ 32 := BitVec.toNat_ofNat ..
  by_cases hlt : (a - p).toNat < xs.length
  · have hge : ys.length ≤ (a - (p + BitVec.ofNat 32 xs.length)).toNat := by bv_omega
    rw [List.getElem?_eq_none hge, Option.getD_none, List.getElem?_append_left hlt]
  · have hoff : (a - (p + BitVec.ofNat 32 xs.length)).toNat = (a - p).toNat - xs.length := by
      have := (a - p).isLt
      bv_omega
    rw [hoff, List.getElem?_append_right (by omega), List.getElem?_eq_none (l := xs) (by omega),
      Option.getD_none]

theorem readBytes_writeBytes (m : Mem) (p : Word) {bs : List Byte} (h : bs.length ≤ 2 ^ 32) :
    readBytes (writeBytes m p bs) p bs.length = bs := bytesAt_writeBytes m h

/-- A write in front of another one. -/
theorem writeBytes_front (m : Mem) (p : Word) {xs ys : List Byte}
    (h : xs.length + ys.length ≤ 2 ^ 32) :
    writeBytes (writeBytes m (p + BitVec.ofNat 32 xs.length) ys) p xs =
      writeBytes m p (xs ++ ys) := by
  funext a
  unfold writeBytes
  by_cases hlt : (a - p).toNat < xs.length
  · rw [List.getElem?_eq_getElem hlt, List.getElem?_append_left hlt, List.getElem?_eq_getElem hlt]
    rfl
  · have hoff : (a - (p + BitVec.ofNat 32 xs.length)).toNat = (a - p).toNat - xs.length := by
      have := (a - p).isLt
      bv_omega
    rw [List.getElem?_eq_none (Nat.le_of_not_lt hlt), Option.getD_none, hoff,
      List.getElem?_append_right (Nat.le_of_not_lt hlt)]

@[simp] theorem writeBytes_nil (m : Mem) (p : Word) : writeBytes m p [] = m := rfl

/-- What a write does not reach reads as before. -/
theorem readBytes_write_off (m : Mem) (d p : Word) {xs : List Byte} {n : ℕ}
    (h : ∀ i < n, xs.length ≤ (p + BitVec.ofNat 32 i - d).toNat) :
    readBytes (writeBytes m d xs) p n = readBytes m p n := by
  apply List.ext_getElem (by simp)
  intro i hi _
  rw [readBytes_length] at hi
  rw [readBytes_getElem, readBytes_getElem, writeBytes, List.getElem?_eq_none (h i hi)]
  rfl

/-! ## Copies -/

theorem Upward.mono {d q : Word} {n k : ℕ} (h : Upward d q n) (hk : k ≤ n) : Upward d q k :=
  h.imp_right hk.trans

theorem Upward.add {d q : Word} {n : ℕ} (h : Upward d q n) (c : Word) :
    Upward (d + c) (q + c) n := by
  have e : d + c - (q + c) = d - q := by bv_omega
  unfold Upward
  rw [e]
  exact h.imp_left fun h => by rw [h]

/-- What is left behind a piece. -/
theorem Upward.rest {d q : Word} {c n : ℕ} (h : Upward d q (c + n)) :
    Upward (d + BitVec.ofNat 32 c) (q + BitVec.ofNat 32 c) n :=
  (h.mono (Nat.le_add_left n c)).add _

/-- The rest of a string after its first byte was copied. -/
theorem BytesAt.behind {m : Mem} {d q : Word} {b : Byte} {bs : List Byte}
    (h : BytesAt m q (b :: bs)) (hup : Upward d q (bs.length + 1))
    (hlt : bs.length + 1 ≤ 2 ^ 32) : BytesAt (writeBytes m d [b]) (q + 1) bs := by
  obtain ⟨-, hrest⟩ := (bytesAt_cons ..).mp h
  unfold BytesAt at hrest ⊢
  rw [readBytes_write_off, hrest]
  intro i hi
  rw [List.length_singleton]
  rcases hup with rfl | hup
  · bv_omega
  · bv_omega

/-- One byte and the rest. -/
theorem writeBytes_cons (m : Mem) (d : Word) {b : Byte} {bs : List Byte}
    (h : bs.length + 1 ≤ 2 ^ 32) :
    writeBytes (writeBytes m d [b]) (d + 1) bs = writeBytes m d (b :: bs) := by
  exact @writeBytes_append m d [b] bs (by simp; omega)

/-- The next `c` bytes of an upward copy, and the rest. -/
theorem copyBytes_up (m : Mem) {d q : Word} {c n : ℕ} (h : Upward d q (c + n))
    (hlt : c + n ≤ 2 ^ 32) :
    copyBytes (copyBytes m d q c) (d + BitVec.ofNat 32 c) (q + BitVec.ofNat 32 c) n =
      copyBytes m d q (c + n) := by
  have hread : readBytes (copyBytes m d q c) (q + BitVec.ofNat 32 c) n =
      readBytes m (q + BitVec.ofNat 32 c) n := by
    apply readBytes_write_off
    intro i hi
    rw [readBytes_length]
    rcases h with rfl | h
    · bv_omega
    · bv_omega
  have happ := @writeBytes_append m d (readBytes m q c)
    (readBytes m (q + BitVec.ofNat 32 c) n) (by simpa using hlt)
  rw [readBytes_length, ← readBytes_add] at happ
  unfold copyBytes at hread ⊢
  rw [hread, happ]

/-- The last `c` bytes of a downward copy, and the rest: the same condition with
    the two places exchanged. -/
theorem copyBytes_down (m : Mem) {d q : Word} {n c : ℕ} (h : Upward q d (n + c))
    (hlt : n + c ≤ 2 ^ 32) :
    copyBytes (copyBytes m (d + BitVec.ofNat 32 n) (q + BitVec.ofNat 32 n) c) d q n =
      copyBytes m d q (n + c) := by
  have hread : readBytes (copyBytes m (d + BitVec.ofNat 32 n) (q + BitVec.ofNat 32 n) c) q n =
      readBytes m q n := by
    apply readBytes_write_off
    intro i hi
    rw [readBytes_length]
    rcases h with rfl | h
    · bv_omega
    · bv_omega
  have hfront := @writeBytes_front m d (readBytes m q n)
    (readBytes m (q + BitVec.ofNat 32 n) c) (by simpa using hlt)
  rw [readBytes_length, ← readBytes_add] at hfront
  unfold copyBytes at hread ⊢
  rw [hread, hfront]

/-- The bytes that a load took. -/
theorem be32Bytes_load32 (m : Mem) (p : Word) : be32Bytes (load32 m p) = readBytes m p 4 := by
  have e2 : p + 1 + 1 = p + 2 := by rw [BitVec.add_assoc]; rfl
  have e3 : p + 2 + 1 = p + 3 := by rw [BitVec.add_assoc]; rfl
  have hcut : ∀ {n : ℕ} (x : BitVec n) (b : Byte), (x ++ b).extractLsb' 0 8 = b := fun x b =>
    BitVec.extractLsb'_append_eq_right
  have hskip : ∀ {n : ℕ} (x : BitVec n) (b : Byte) (k : ℕ),
      (x ++ b).extractLsb' (k + 8) 8 = x.extractLsb' k 8 := by
    intro n x b k
    rw [BitVec.extractLsb'_append_eq_of_le (by omega), Nat.add_sub_cancel]
  have hself : (m p).extractLsb' 0 8 = m p := BitVec.extractLsb'_eq_self ..
  rw [be32Bytes, load32, hskip _ _ 16, hskip _ _ 8, hskip _ _ 0, hskip _ _ 8, hskip _ _ 0,
    hskip _ _ 0, hcut, hcut, hcut, hself, ← e3, ← e2]
  rfl

/-- A word that is loaded and stored. -/
theorem store32_load32 (m : Mem) (d q : Word) : store32 m d (load32 m q) = copyBytes m d q 4 := by
  rw [store32, be32Bytes_load32, copyBytes]

/-- Two words that are loaded, and then stored. -/
theorem store32_store32 (m : Mem) (d q : Word) :
    store32 (store32 m d (load32 m q)) (d + 4) (load32 m (q + 4)) = copyBytes m d q 8 := by
  have happ := @writeBytes_append m d (readBytes m q 4) (readBytes m (q + 4) 4) (by simp)
  rw [store32_load32, store32, be32Bytes_load32, copyBytes, copyBytes]
  exact happ.trans (congrArg _ (readBytes_add m q 4 4).symm)

/-- The same with the second word stored first. -/
theorem store32_store32_front (m : Mem) (d q : Word) :
    store32 (store32 m (d + 4) (load32 m (q + 4))) d (load32 m q) = copyBytes m d q 8 := by
  have hfront := @writeBytes_front m d (readBytes m q 4) (readBytes m (q + 4) 4) (by simp)
  rw [store32, store32, be32Bytes_load32, be32Bytes_load32, copyBytes]
  exact hfront.trans (congrArg _ (readBytes_add m q 4 4).symm)

/-- A move to a lower address may go upwards. -/
theorem upward_of_fits {d q : Word} {n : ℕ} (h : d ≤ q) (hq : q.toNat + n ≤ 2 ^ 32) :
    Upward d q n := by
  by_cases he : d = q
  · exact .inl he
  · right
    bv_omega

/-! ## Fills -/

/-- A fill that begins inside an earlier one or at its end. -/
theorem fillBytes_over (m : Mem) (d : Word) (b : Byte) {c i n : ℕ} (hi : i ≤ c) (hn : c ≤ i + n)
    (hlt : i + n ≤ 2 ^ 32) :
    fillBytes (fillBytes m d c b) (d + BitVec.ofNat 32 i) n b = fillBytes m d (i + n) b := by
  funext a
  unfold fillBytes writeBytes
  by_cases h1 : (a - d).toNat < i + n
  · by_cases h2 : (a - (d + BitVec.ofNat 32 i)).toNat < n
    · simp only [List.getElem?_replicate, h1, h2, if_true, Option.getD_some]
    · have h3 : (a - d).toNat < c := by bv_omega
      simp only [List.getElem?_replicate, h1, h2, h3, if_true, if_false, Option.getD_some,
        Option.getD_none]
  · have h2 : ¬ (a - (d + BitVec.ofNat 32 i)).toNat < n := by bv_omega
    have h3 : ¬ (a - d).toNat < c := by omega
    simp only [List.getElem?_replicate, h1, h2, h3, if_false, Option.getD_none]

end BBoot
