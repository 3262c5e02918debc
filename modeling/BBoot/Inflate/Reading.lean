import BBoot.Common.Canonical
import BBoot.Common.Copy
import BBoot.Inflate.Puff

/-!
# What the state of `puff` stands for

The state holds a bit buffer and counters; what it stands for are the bits `u`
that are not read yet and the bytes `o` that are output so far (`Holds`). A state
that is left by an error may have a stale bit buffer, but it `Writes` as well: its
memory is that of the call with `o` written at `dest`.

`Ends x s Q L` says that `x`, started in `s`, ends with `Q`, or with `L` if it
leaves by `longjmp`; it is never undefined and never endless.

Results:
* `ends_bind`: the rule for sequences.
* `bits_ends`: `bits` takes that many bits off `u`, and leaves if there are too
  few.
* `putOut_ends`, `backOut_ends`: a byte of output and one from further back.
* `Holds.unique`: `u` and `o` determine the state.
-/

namespace BBoot.Inflate

open PuffM

/-! ## Runs -/

/-- `x`, started in `s`, ends with `Q`, or with `L` after `longjmp`. -/
def Ends {α : Type} (x : PuffM α) (s : State) (Q : α → State → Prop) (L : State → Prop) : Prop :=
  match x s with
  | (.ok a, s') => Q a s'
  | (.error .longjmp, s') => L s'
  | (.error .undefined, _) => False
  | (.error .endless, _) => False

section Ends

variable {α β : Type} {s : State} {Q Q' : α → State → Prop} {L L' : State → Prop}

theorem ends_pure {a : α} (h : Q a s) : Ends (pure a) s Q L := h

theorem ends_longjmp (h : L s) : Ends (stop .longjmp) s Q L := h

theorem ends_get {Q : State → State → Prop} (h : Q s s) : Ends get s Q L := h

theorem ends_modify {Q : Unit → State → Prop} {f : State → State} (h : Q () (f s)) :
    Ends (modify f) s Q L := h

theorem ends_checked {a : Option α} {v : α} (ha : a = some v) (h : Q v s) :
    Ends (checked a) s Q L := by
  subst ha
  exact h

theorem ends_conseq {x : PuffM α} (h : Ends x s Q L) (hQ : ∀ a s', Q a s' → Q' a s')
    (hL : ∀ s', L s' → L' s') : Ends x s Q' L' := by
  unfold Ends at h ⊢
  split at h
  · exact hQ _ _ h
  · exact hL _ h
  · exact h.elim
  · exact h.elim

/-- The rule for sequences. -/
theorem ends_bind {x : PuffM α} {f : α → PuffM β} {R : β → State → Prop} (h : Ends x s Q L)
    (hf : ∀ a s', Q a s' → Ends (f a) s' R L) : Ends (x >>= f) s R L := by
  show Ends (PuffM.bind x f) s R L
  unfold Ends at h
  unfold Ends PuffM.bind
  split at h
  · rename_i hx
    rw [hx]
    exact hf _ _ h
  · rename_i hx
    rw [hx]
    exact h
  · exact h.elim
  · exact h.elim

/-- Sequences that begin with a look at the state, a change of it or an array access. -/
theorem ends_bind_get {f : State → PuffM α} (h : Ends (f s) s Q L) : Ends (get >>= f) s Q L :=
  ends_bind (Q := fun a s' => a = s ∧ s' = s) (ends_get ⟨rfl, rfl⟩) fun a s' ha => by
    obtain ⟨rfl, rfl⟩ := ha
    exact h

theorem ends_bind_modify {g : State → State} {f : Unit → PuffM α} (h : Ends (f ()) (g s) Q L) :
    Ends (modify g >>= f) s Q L :=
  ends_bind (Q := fun _ s' => s' = g s) (ends_modify rfl) fun _ s' hs => by
    subst hs
    exact h

theorem ends_bind_checked {a : Option β} {v : β} {f : β → PuffM α} (ha : a = some v)
    (h : Ends (f v) s Q L) : Ends (checked a >>= f) s Q L :=
  ends_bind (Q := fun b s' => b = v ∧ s' = s) (ends_checked ha ⟨rfl, rfl⟩) fun b s' hb => by
    obtain ⟨rfl, rfl⟩ := hb
    exact h

/-- A run that ends has ended in one of the two ways. -/
theorem Ends.cases {x : PuffM α} (h : Ends x s Q L) :
    (∃ a s', x s = (.ok a, s') ∧ Q a s') ∨ ∃ s', x s = (.error .longjmp, s') ∧ L s' := by
  unfold Ends at h
  split at h
  · rename_i hx
    exact .inl ⟨_, _, hx, h⟩
  · rename_i hx
    exact .inr ⟨_, hx, h⟩
  · exact h.elim
  · exact h.elim

-- From here on runs are taken apart by the rules only: unfolding would evaluate the program.
attribute [irreducible] Ends

/-- A run that does not leave by `longjmp` returns. -/
theorem Ends.returns {x : PuffM α} (h : Ends x s Q fun _ => False) :
    ∃ a s', x s = (.ok a, s') ∧ Q a s' := by
  obtain h | ⟨-, -, h⟩ := h.cases
  · exact h
  · exact h.elim

end Ends

/-! ## The buffers -/

/-- The arguments of a call of `puff`, and memory. -/
structure Call where
  mem : Mem
  dest : Word
  destlen : Word
  source : Word
  sourcelen : Word

/-- The call has `room` bytes at `dest`, none of which wraps or belongs to the input; when
    only scanning it has none, and `room` bounds what is counted. -/
structure Call.Fits (c : Call) (room : ℕ) : Prop where
  room_lt : room < 2 ^ 32
  source : c.source.toNat + c.sourcelen.toNat ≤ 2 ^ 32
  destlen : c.dest ≠ 0 → room ≤ c.destlen.toNat
  dest : c.dest ≠ 0 → c.dest.toNat + room ≤ 2 ^ 32
  apart : c.dest ≠ 0 → Span.Disjoint ⟨c.dest.toNat, room⟩ ⟨c.source.toNat, c.sourcelen.toNat⟩

/-- The input from offset `k` on. -/
def Call.rest (c : Call) (k : Word) : List Byte :=
  readBytes c.mem (c.source + k) (c.sourcelen.toNat - k.toNat)

/-- The memory of the call after the output `o`. -/
def Call.after (c : Call) (o : List Byte) : Mem :=
  if c.dest = 0 then c.mem else writeBytes c.mem c.dest o

/-- The state has the buffers of the call and has written `o`. -/
structure Writes (c : Call) (room : ℕ) (s : State) (o : List Byte) : Prop where
  out : s.out = c.dest
  outlen : s.outlen = c.destlen
  inp : s.inp = c.source
  inlen : s.inlen = c.sourcelen
  incnt_le : s.incnt ≤ c.sourcelen
  mem : s.mem = c.after o
  outcnt : s.outcnt = BitVec.ofNat 32 o.length
  room : o.length ≤ room

/-- The state stands for the unread bits `u` and the output `o`. -/
structure Holds (c : Call) (room : ℕ) (s : State) (u : List Bool) (o : List Byte) : Prop
    extends Writes c room s o where
  bitcnt_lt : s.bitcnt < 8
  bitbuf_lt : s.bitbuf < 2 ^ s.bitcnt
  unread : u = toBits s.bitcnt s.bitbuf ++ bitsOf (c.rest s.incnt)

/-- A call with a buffer, whose lengths do not wrap when the length of a block is added. -/
structure Call.Inflates (c : Call) : Prop where
  fits : c.Fits c.destlen.toNat
  dest : c.dest ≠ 0
  destlen : c.destlen.toNat + 2 ^ 16 ≤ 2 ^ 32
  sourcelen : c.sourcelen.toNat + 2 ^ 16 ≤ 2 ^ 32

/-- The state has written something. -/
def Stopped (c : Call) (room : ℕ) (s : State) : Prop := ∃ o, Writes c room s o

theorem Writes.stopped {c : Call} {room : ℕ} {s : State} {o : List Byte} (h : Writes c room s o) :
    Stopped c room s := ⟨o, h⟩

section Input

variable {c : Call} {room : ℕ} {s : State} {u : List Bool} {o : List Byte}

theorem Call.rest_length (c : Call) (k : Word) :
    (c.rest k).length = c.sourcelen.toNat - k.toNat := readBytes_length ..

theorem Call.rest_cons {k : Word} (h : k < c.sourcelen) :
    c.rest k = c.mem (c.source + k) :: c.rest (k + 1) := by
  have hlt : k.toNat < c.sourcelen.toNat := h
  have hsucc : (k + 1).toNat = k.toNat + 1 := by
    have := c.sourcelen.isLt
    rw [BitVec.toNat_add]
    exact Nat.mod_eq_of_lt (by simp; omega)
  rw [Call.rest, show c.sourcelen.toNat - k.toNat = c.sourcelen.toNat - (k + 1).toNat + 1 by omega,
    readBytes, Call.rest, BitVec.add_assoc]

/-- The input is not written to. -/
theorem Writes.input (h : Writes c room s o) (hc : c.Fits room) {k : Word} (hk : k < c.sourcelen) :
    s.mem (s.inp + k) = c.mem (c.source + k) := by
  rw [h.mem, h.inp, Call.after]
  split_ifs with h0
  · rfl
  · have hlt : k.toNat < c.sourcelen.toNat := hk
    have hsource := hc.source
    have hroom := h.room
    have hdest := hc.dest h0
    apply sameOutside_writeBytes _ _ _ (by omega)
    intro r hr hmem
    obtain rfl := List.mem_singleton.mp hr
    refine (Span.disjoint_iff _ _).mp (hc.apart h0) (c.source + k).toNat ⟨⟨hmem.1, ?_⟩, ?_⟩
    · exact hmem.2.trans_le (Nat.add_le_add_left hroom _)
    · rw [BitVec.toNat_add, Nat.mod_eq_of_lt (by omega)]
      exact ⟨Nat.le_add_right _ _, Nat.add_lt_add_left hlt _⟩

theorem Writes.incnt_succ (h : Writes c room s o) (hlt : s.incnt < c.sourcelen) (n : ℕ) :
    Writes c room { s with incnt := s.incnt + 1, bitcnt := n } o := by
  have hle : s.incnt + 1 ≤ c.sourcelen := by bv_omega
  exact ⟨h.out, h.outlen, h.inp, h.inlen, hle, h.mem, h.outcnt, h.room⟩

/-- The next byte of the input. -/
theorem nextIn_ends (h : Writes c room s o) (hc : c.Fits room) (hlt : s.incnt < c.sourcelen)
    {L : State → Prop} :
    Ends nextIn s (fun b s' => s' = { s with incnt := s.incnt + 1 } ∧
      c.rest s.incnt = b :: c.rest s'.incnt) L := by
  unfold nextIn
  apply ends_bind_get
  rw [if_pos (by rw [h.inlen]; exact hlt)]
  apply ends_bind_modify
  apply ends_pure
  refine ⟨rfl, ?_⟩
  rw [h.input hc hlt]
  exact Call.rest_cons hlt

theorem toBits_add_mul (n v b : ℕ) : toBits n (v + 2 ^ n * b) = toBits n v := by
  induction n generalizing v with
  | zero => rfl
  | succ n ih =>
    have hmod : (v + 2 ^ (n + 1) * b) % 2 = v % 2 := by
      rw [Nat.pow_succ, Nat.mul_comm (2 ^ n) 2, Nat.mul_assoc, Nat.add_mul_mod_self_left]
    have hdiv : (v + 2 ^ (n + 1) * b) / 2 = v / 2 + 2 ^ n * b := by
      rw [Nat.pow_succ, Nat.mul_comm (2 ^ n) 2, Nat.mul_assoc, Nat.add_mul_div_left _ _ two_pos]
    rw [toBits, toBits, hmod, hdiv, ih]

/-- A byte above the bits that are in the buffer. -/
theorem toBits_or_shift {n v : ℕ} (hv : v < 2 ^ n) (b k : ℕ) :
    toBits (n + k) (v ||| b <<< n) = toBits n v ++ toBits k b := by
  have hor : v ||| b <<< n = v + 2 ^ n * b := by
    rw [Nat.or_comm, ← Nat.shiftLeft_add_eq_or_of_lt hv, Nat.shiftLeft_eq, Nat.add_comm, Nat.mul_comm]
  rw [hor, toBits_add, toBits_add_mul, Nat.add_mul_div_left _ _ (Nat.two_pow_pos n),
    Nat.div_eq_of_lt hv, Nat.zero_add]

theorem or_shift_lt {n v b k : ℕ} (hv : v < 2 ^ n) (hb : b < 2 ^ k) :
    v ||| b <<< n < 2 ^ (n + k) := by
  apply Nat.or_lt_two_pow
  · exact hv.trans_le (Nat.pow_le_pow_right two_pos (Nat.le_add_right n k))
  · rw [Nat.shiftLeft_eq, Nat.add_comm, Nat.pow_add]
    exact Nat.mul_lt_mul_of_pos_right hb (Nat.two_pow_pos n)

/-- The bits of the whole input. -/
def Call.input (c : Call) : List Bool := bitsOf (readBytes c.mem c.source c.sourcelen.toNat)

/-- The state with which `puff` begins. -/
def Call.start (c : Call) : State := puffInit c.mem c.dest c.destlen c.source c.sourcelen

theorem Call.holds_start (c : Call) (room : ℕ) : Holds c room c.start c.input [] := by
  refine ⟨⟨rfl, rfl, rfl, rfl, BitVec.le_def.mpr (Nat.zero_le _), ?_, rfl, Nat.zero_le _⟩,
    Nat.zero_lt_succ 7, Nat.zero_lt_succ 0, ?_⟩
  · rw [Call.after]
    split_ifs
    · rfl
    · funext a
      rfl
  · rw [Call.input, Call.rest, show c.start.incnt = 0#32 from rfl, BitVec.add_zero]
    rfl

/-- At the end of the input only the buffered bits are left. -/
theorem Call.rest_end {k : Word} (h : k = c.sourcelen) : c.rest k = [] := by
  apply List.eq_nil_of_length_eq_zero
  rw [Call.rest_length, h, Nat.sub_self]

/-- The loop of `bits` loads bytes until there are enough bits. -/
theorem bitsLoop_ends (hc : c.Fits room) {need fuel val : ℕ} (h : Writes c room s o)
    (hval : val < 2 ^ s.bitcnt) (hcnt : s.bitcnt < need + 8)
    (hu : u = toBits s.bitcnt val ++ bitsOf (c.rest s.incnt))
    (hfuel : need + 8 ≤ s.bitcnt + 8 * fuel) :
    Ends (bitsLoop need fuel val) s (fun val' s' => Writes c room s' o ∧ val' < 2 ^ s'.bitcnt ∧
        need ≤ s'.bitcnt ∧ s'.bitcnt < need + 8 ∧
        u = toBits s'.bitcnt val' ++ bitsOf (c.rest s'.incnt))
      (fun s' => u.length < need ∧ Writes c room s' o) := by
  induction fuel generalizing s val with
  | zero => omega
  | succ fuel ih =>
    unfold bitsLoop
    apply ends_bind_get
    split_ifs with hneed hend
    · apply ends_longjmp
      refine ⟨?_, h⟩
      rw [hu, Call.rest_end (by rw [hend, h.inlen])]
      simpa using hneed
    · have hlt : s.incnt < c.sourcelen := by
        have := h.incnt_le
        rw [h.inlen] at hend
        bv_omega
      apply ends_bind (nextIn_ends h hc hlt)
      rintro b s' ⟨rfl, hrest⟩
      apply ends_bind_modify
      apply ih
      · exact h.incnt_succ hlt _
      · exact or_shift_lt hval b.isLt
      · show s.bitcnt + 8 < need + 8
        omega
      · rw [hu, hrest, bitsOf_cons, ← List.append_assoc, ← toBits_or_shift hval]
      · show need + 8 ≤ s.bitcnt + 8 + 8 * fuel
        omega
    · exact ends_pure ⟨h, hval, by omega, hcnt, hu⟩

/-- **`bits`** takes `need` bits off the input, and leaves if there are fewer. -/
theorem bits_ends (hc : c.Fits room) (h : Holds c room s u o) (need : ℕ) :
    Ends (bits need) s (fun v s' => v = ofBits (u.take need) ∧ need ≤ u.length ∧
        Holds c room s' (u.drop need) o)
      (fun s' => u.length < need ∧ Writes c room s' o) := by
  unfold bits
  apply ends_bind_get
  apply ends_bind (bitsLoop_ends hc h.toWrites h.bitbuf_lt (by have := h.bitcnt_lt; omega) h.unread
    (by omega))
  rintro val s' ⟨hw, hval, hneed, hcnt, hu⟩
  apply ends_bind_modify
  apply ends_pure
  have hsplit : toBits s'.bitcnt val = toBits need val ++ toBits (s'.bitcnt - need) (val >>> need) := by
    rw [Nat.shiftRight_eq_div_pow, ← toBits_add, Nat.add_sub_cancel' hneed]
  rw [hu, hsplit, List.append_assoc]
  refine ⟨?_, by simp, ⟨hw.out, hw.outlen, hw.inp, hw.inlen, hw.incnt_le, hw.mem, hw.outcnt, hw.room⟩,
    ?_, ?_, ?_⟩
  · rw [List.take_left' (toBits_length ..), ofBits_toBits, Nat.one_shiftLeft,
      Nat.and_two_pow_sub_one_eq_mod]
  · show s'.bitcnt - need < 8
    omega
  · show val >>> need < 2 ^ (s'.bitcnt - need)
    rw [Nat.shiftRight_eq_div_pow, Nat.div_lt_iff_lt_mul (Nat.two_pow_pos _), ← Nat.pow_add,
      Nat.sub_add_cancel hneed]
    exact hval
  · rw [List.drop_left' (toBits_length ..)]

/-- `bits` where the input goes on with `w`. -/
theorem bits_returns (hc : c.Fits room) {w v : List Bool} (h : Holds c room s (w ++ v) o) {n : ℕ}
    (hw : w.length = n) {L : State → Prop} :
    Ends (bits n) s (fun a s' => a = ofBits w ∧ Holds c room s' v o) L := by
  refine ends_conseq (bits_ends hc h n) ?_ ?_
  · rintro a s' ⟨ha, -, hs⟩
    rw [List.take_left' hw] at ha
    rw [List.drop_left' hw] at hs
    exact ⟨ha, hs⟩
  · rintro s' ⟨hlt, -⟩
    rw [List.length_append, hw] at hlt
    omega

/-- `bits` whatever the input: the bits that were taken and the rest. -/
theorem bits_splits (hc : c.Fits room) (h : Holds c room s u o) (n : ℕ) :
    Ends (bits n) s (fun a s' => ∃ x v, u = x ++ v ∧ x.length = n ∧ a = ofBits x ∧
      Holds c room s' v o) (Stopped c room) := by
  refine ends_conseq (bits_ends hc h n) ?_ fun _ hL => hL.2.stopped
  rintro a s' ⟨ha, hn, hs⟩
  exact ⟨_, _, (List.take_append_drop n u).symm, by rw [List.length_take, min_eq_left hn], ha, hs⟩

/-- How many bits are left tells where the input stands. -/
theorem Holds.length (h : Holds c room s u o) :
    u.length = s.bitcnt + 8 * (c.sourcelen.toNat - s.incnt.toNat) := by
  rw [h.unread, List.length_append, toBits_length, bitsOf_length, Call.rest_length]

/-- **What a state stands for determines it.** -/
theorem Holds.unique {s' : State} (h : Holds c room s u o) (h' : Holds c room s' u o) : s = s' := by
  have hlen := h.length
  have hlen' := h'.length
  have hcnt := h.bitcnt_lt
  have hcnt' := h'.bitcnt_lt
  have hle : s.incnt.toNat ≤ c.sourcelen.toNat := h.incnt_le
  have hle' : s'.incnt.toNat ≤ c.sourcelen.toNat := h'.incnt_le
  have hin : s.incnt = s'.incnt := BitVec.eq_of_toNat_eq (by omega)
  have hbits : s.bitcnt = s'.bitcnt := by
    rw [hin] at hlen
    omega
  have hbuf : s.bitbuf = s'.bitbuf := by
    have hu := h.unread.symm.trans h'.unread
    rw [hin] at hu
    have hval := congrArg ofBits (List.append_cancel_right hu)
    rwa [ofBits_toBits, ofBits_toBits, Nat.mod_eq_of_lt h.bitbuf_lt,
      Nat.mod_eq_of_lt h'.bitbuf_lt] at hval
  have e := h.toWrites
  have e' := h'.toWrites
  cases s
  cases s'
  simp only [State.mk.injEq]
  exact ⟨e.mem.trans e'.mem.symm, e.out.trans e'.out.symm, e.outlen.trans e'.outlen.symm,
    e.outcnt.trans e'.outcnt.symm, e.inp.trans e'.inp.symm, e.inlen.trans e'.inlen.symm, hin, hbuf,
    hbits⟩

end Input

/-! ## Output -/

section Output

variable {c : Call} {room : ℕ} {s : State} {u : List Bool} {o : List Byte}

theorem Call.after_append (hc : c.Fits room) {b : Byte} (h0 : c.dest ≠ 0) (ho : o.length < room) :
    writeBytes (c.after o) (c.dest + BitVec.ofNat 32 o.length) [b] = c.after (o ++ [b]) := by
  have := hc.room_lt
  rw [Call.after, Call.after, if_neg h0, if_neg h0, writeBytes_append _ _ (by simp; omega)]

theorem Writes.outcnt_toNat (h : Writes c room s o) (hc : c.Fits room) : s.outcnt.toNat = o.length := by
  have := h.room
  have := hc.room_lt
  rw [h.outcnt, BitVec.toNat_ofNat, Nat.mod_eq_of_lt (by omega)]

/-- A byte behind the output. -/
theorem Writes.put (h : Writes c room s o) (hc : c.Fits room) (h0 : c.dest ≠ 0)
    (ho : o.length < room) (b : Byte) :
    Writes c room { s with mem := writeBytes s.mem (s.out + s.outcnt) [b], outcnt := s.outcnt + 1 }
      (o ++ [b]) := by
  refine ⟨h.out, h.outlen, h.inp, h.inlen, h.incnt_le, ?_, ?_, by simpa using ho⟩
  · show writeBytes s.mem (s.out + s.outcnt) [b] = _
    rw [h.mem, h.out, h.outcnt, Call.after_append hc h0 ho]
  · show s.outcnt + 1 = _
    rw [h.outcnt, List.length_append, List.length_singleton, ofNat_succ]

/-- A byte of the output. -/
theorem Writes.output (h : Writes c room s o) (hc : c.Fits room) (h0 : c.dest ≠ 0) {k : Word}
    (hk : k < s.outcnt) : s.mem (s.out + k) = o.getD k.toNat 0 := by
  have hlt : k.toNat < o.length := by
    rw [← h.outcnt_toNat hc]
    exact hk
  rw [h.mem, h.out, Call.after, if_neg h0, writeBytes, BitVec.add_comm, BitVec.add_sub_cancel,
    List.getElem?_eq_getElem hlt, List.getD_eq_getElem _ _ hlt, Option.getD_some]

/-- `putOut` appends to the output. -/
theorem putOut_ends (hc : c.Fits room) (h0 : c.dest ≠ 0) (h : Holds c room s u o)
    (ho : o.length < room) (b : Byte) {L : State → Prop} :
    Ends (putOut b) s (fun _ s' => Holds c room s' u (o ++ [b])) L := by
  have hcnt := h.outcnt_toNat hc
  have hlen := hc.destlen h0
  unfold putOut
  apply ends_bind_get
  rw [if_pos (by rw [h.outlen]; exact BitVec.lt_def.mpr (by omega))]
  apply ends_modify
  exact ⟨h.toWrites.put hc h0 ho b, h.bitcnt_lt, h.bitbuf_lt, h.unread⟩

/-- `backOut` reads the output. -/
theorem backOut_ends (hc : c.Fits room) (h0 : c.dest ≠ 0) (h : Writes c room s o) {dist : ℕ}
    (hpos : 1 ≤ dist) (hdist : dist ≤ o.length) {L : State → Prop} :
    Ends (backOut dist) s (fun b s' => b = o.getD (o.length - dist) 0 ∧ s' = s) L := by
  have hcnt := h.outcnt_toNat hc
  have hlt := hc.room_lt
  have hroom := h.room
  have hsub : (s.outcnt - BitVec.ofNat 32 dist).toNat = o.length - dist := by
    rw [BitVec.toNat_sub, hcnt, BitVec.toNat_ofNat]
    omega
  have hback : s.outcnt - BitVec.ofNat 32 dist < s.outcnt := BitVec.lt_def.mpr (by omega)
  unfold backOut
  apply ends_bind_get
  rw [if_pos hback]
  apply ends_pure
  exact ⟨by rw [h.output hc h0 hback, hsub], rfl⟩

end Output

end BBoot.Inflate
