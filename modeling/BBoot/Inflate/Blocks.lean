import BBoot.Inflate.Dynamic

/-!
# Blocks and streams

A stored block is a copy of bytes, a fixed block uses two codes that are built into
the program. The loop over the blocks ends with the last one.

Results:
* `stored_returns`, `stored_ends`: a stored block, in both directions.
* `fixedTables_spec`: the tables of `fixed` are those of the fixed codes.
* `blocks_returns`, `blocks_ends`: a stream, in both directions.
* `blocks_full`: a stream whose data do not fit.
-/

namespace BBoot.Inflate

open PuffM Canonical

section Blocks

variable {c : Call} {room : ℕ} {s : State} {u : List Bool} {o : List Byte}

/-! ## Whole bytes -/

/-- The state stands at a byte boundary, before the bytes `r`. -/
structure Aligned (c : Call) (room : ℕ) (s : State) (r o : List Byte) : Prop
    extends Writes c room s o where
  bitbuf : s.bitbuf = 0
  bitcnt : s.bitcnt = 0
  rest : c.rest s.incnt = r

theorem Aligned.holds {r : List Byte} (h : Aligned c room s r o) : Holds c room s (bitsOf r) o := by
  refine ⟨h.toWrites, ?_, ?_, ?_⟩
  · rw [h.bitcnt]
    norm_num
  · rw [h.bitbuf]
    exact Nat.two_pow_pos _
  · rw [h.bitcnt, h.rest, toBits, List.nil_append]

theorem Aligned.length {r : List Byte} (h : Aligned c room s r o) :
    r.length = c.sourcelen.toNat - s.incnt.toNat := by
  rw [← h.rest, Call.rest_length]

/-- Discarding the bits up to the byte boundary. -/
theorem Holds.align (h : Holds c room s u o) :
    ∃ pad r, u = pad ++ bitsOf r ∧ pad.length < 8 ∧
      Aligned c room { s with bitbuf := 0, bitcnt := 0 } r o :=
  ⟨_, _, h.unread, by rw [toBits_length]; exact h.bitcnt_lt,
    ⟨h.out, h.outlen, h.inp, h.inlen, h.incnt_le, h.mem, h.outcnt, h.room⟩, rfl, rfl, rfl⟩

/-- Padding to a byte boundary is determined by what follows. -/
theorem align_unique {pad pad' u v : List Bool} (hpad : pad.length < 8) (hpad' : pad'.length < 8)
    (hu : u.length % 8 = 0) (hv : v.length % 8 = 0) (h : pad ++ u = pad' ++ v) :
    pad = pad' ∧ u = v := by
  have hlen := congrArg List.length h
  rw [List.length_append, List.length_append] at hlen
  exact List.append_inj h (by omega)

/-- Bits that begin with those of some bytes. -/
theorem bitsOf_eq_append {r bs : List Byte} {v : List Bool} (h : bitsOf r = bitsOf bs ++ v) :
    ∃ r', r = bs ++ r' ∧ v = bitsOf r' := by
  have hlen := congrArg List.length h
  rw [List.length_append, bitsOf_length, bitsOf_length] at hlen
  rw [← List.take_append_drop bs.length r, bitsOf_append] at h
  obtain ⟨hhead, htail⟩ := List.append_inj h (by
    rw [bitsOf_length, bitsOf_length, List.length_take, min_eq_left (by omega)])
  have hr := List.take_append_drop bs.length r
  rw [bitsOf_inj hhead] at hr
  exact ⟨_, hr.symm, htail.symm⟩

/-- The next byte at a byte boundary. -/
theorem nextIn_aligned (hc : c.Fits room) {b : Byte} {r : List Byte}
    (h : Aligned c room s (b :: r) o) {L : State → Prop} :
    Ends nextIn s (fun a s' => a = b ∧ Aligned c room s' r o) L := by
  have hlen := h.length
  rw [List.length_cons] at hlen
  have hlt : s.incnt < c.sourcelen := BitVec.lt_def.mpr (by omega)
  refine ends_conseq (nextIn_ends h.toWrites hc hlt) ?_ fun _ hL => hL
  rintro a s' ⟨rfl, hrest⟩
  rw [h.rest, List.cons.injEq] at hrest
  exact ⟨hrest.1.symm, h.toWrites.incnt_succ hlt s.bitcnt, h.bitbuf, h.bitcnt, hrest.2.symm⟩

/-- Output at a byte boundary. -/
theorem putOut_aligned (hc : c.Fits room) (h0 : c.dest ≠ 0) {r : List Byte}
    (h : Aligned c room s r o) (ho : o.length < room) (b : Byte) {L : State → Prop} :
    Ends (putOut b) s (fun _ s' => Aligned c room s' r (o ++ [b])) L := by
  have hcnt := h.outcnt_toNat hc
  have hlen := hc.destlen h0
  unfold putOut
  apply ends_bind_get
  rw [if_pos (by rw [h.outlen]; exact BitVec.lt_def.mpr (by omega))]
  apply ends_modify
  exact ⟨h.toWrites.put hc h0 ho b, h.bitbuf, h.bitcnt, h.rest⟩

/-- The loop that copies a stored block. -/
theorem copyIn_ends (hc : c.Fits room) (h0 : c.dest ≠ 0) {data r : List Byte}
    (h : Aligned c room s (data ++ r) o) (ho : o.length + data.length ≤ room) {L : State → Prop} :
    Ends (copyIn data.length) s (fun _ s' => Aligned c room s' r (o ++ data)) L := by
  induction data generalizing s o with
  | nil =>
    rw [List.append_nil]
    exact ends_pure h
  | cons b data ih =>
    rw [List.length_cons] at ho ⊢
    unfold copyIn
    refine ends_bind (nextIn_aligned hc h) ?_
    rintro a s' ⟨rfl, hs⟩
    refine ends_bind (putOut_aligned hc h0 hs (by omega) a) fun _ s'' hs' => ?_
    have hrec := ih hs' (by rw [List.length_append, List.length_singleton]; omega)
    rwa [List.append_assoc, List.singleton_append] at hrec

/-! ## Stored blocks -/

theorem storedLen_toNat (lo hi : Byte) : (storedLen lo hi).toNat = lo.toNat + 256 * hi.toNat := by
  have hlo := lo.isLt
  have hhi := hi.isLt
  have hshift : (hi.setWidth 32 <<< 8 : Word).toNat = hi.toNat <<< 8 := by
    rw [BitVec.toNat_shiftLeft, BitVec.toNat_setWidth, Nat.shiftLeft_eq, Nat.shiftLeft_eq]
    omega
  rw [storedLen, BitVec.toNat_or, hshift, BitVec.toNat_setWidth, Nat.mod_eq_of_lt (by omega), Nat.or_comm,
    ← Nat.shiftLeft_add_eq_or_of_lt hlo, Nat.shiftLeft_eq]
  omega

theorem storedLen_ofNat {n : ℕ} (hn : n < 2 ^ 16) :
    storedLen (BitVec.ofNat 8 n) (BitVec.ofNat 8 (n / 256)) = BitVec.ofNat 32 n := by
  apply BitVec.eq_of_toNat_eq
  rw [storedLen_toNat, BitVec.toNat_ofNat, BitVec.toNat_ofNat, BitVec.toNat_ofNat]
  omega

theorem and_ff (x : Word) : x &&& 0xff = (x.setWidth 8).setWidth 32 := by
  apply BitVec.eq_of_toNat_eq
  rw [BitVec.toNat_and, BitVec.toNat_setWidth, BitVec.toNat_setWidth,
    show (0xff : Word).toNat = 2 ^ 8 - 1 from rfl, Nat.and_two_pow_sub_one_eq_mod]
  omega

theorem setWidth_inj {a b : Byte} : a.setWidth 32 = b.setWidth 32 ↔ a = b := by
  constructor
  · intro h
    have hval := congrArg BitVec.toNat h
    rw [BitVec.toNat_setWidth, BitVec.toNat_setWidth] at hval
    apply BitVec.eq_of_toNat_eq
    have := a.isLt
    have := b.isLt
    omega
  · exact fun h => h ▸ rfl

/-- The check of the low byte is that it is the complement. -/
theorem complement_lo (lo hi n : Byte) :
    n.setWidth 32 = ~~~(storedLen lo hi) &&& 0xff ↔ n = ~~~lo := by
  have hbits : (~~~(storedLen lo hi)).setWidth 8 = ~~~lo := by
    ext i hi
    simp [storedLen]
  rw [and_ff, hbits, setWidth_inj]

/-- The check of the high byte. -/
theorem complement_hi (lo hi n : Byte) :
    n.setWidth 32 = ~~~(storedLen lo hi) >>> 8 &&& 0xff ↔ n = ~~~hi := by
  have hbits : (~~~(storedLen lo hi) >>> 8).setWidth 8 = ~~~hi := by
    ext i h
    have h32 : i < 32 := by omega
    have h24 : 8 + i < 32 := by omega
    simp [storedLen, h32, h24, BitVec.getLsbD_eq_getElem h]
  rw [and_ff, hbits, setWidth_inj]

theorem storedBytes_eq (data : List Byte) :
    storedBytes data = BitVec.ofNat 8 data.length :: BitVec.ofNat 8 (data.length / 256) ::
      ~~~(BitVec.ofNat 8 data.length) :: ~~~(BitVec.ofNat 8 (data.length / 256)) :: data := rfl

/-- Whether the input ends within the next `n` bytes. -/
theorem input_gt_iff {r : List Byte} (h : Aligned c room s r o) {n : Word}
    (hn : c.sourcelen.toNat + n.toNat < 2 ^ 32 ∨ n.toNat ≤ r.length) :
    s.incnt + n > s.inlen ↔ r.length < n.toNat := by
  have hlen := h.length
  have hle : s.incnt.toNat ≤ c.sourcelen.toNat := h.incnt_le
  have := c.sourcelen.isLt
  show s.inlen.toNat < (s.incnt + n).toNat ↔ _
  rw [h.inlen, BitVec.toNat_add, Nat.mod_eq_of_lt (by omega)]
  omega

theorem Call.rest_add {k n : Word} (hn : n.toNat ≤ (c.rest k).length) :
    c.rest (k + n) = (c.rest k).drop n.toNat := by
  have hlen := Call.rest_length c k
  have hlt := c.sourcelen.isLt
  rcases Nat.eq_zero_or_pos n.toNat with h0 | hpos
  · obtain rfl : n = 0 := BitVec.eq_of_toNat_eq h0
    simp
  have hsum : (k + n).toNat = k.toNat + n.toNat := by
    rw [BitVec.toNat_add, Nat.mod_eq_of_lt (by omega)]
  have hsplit : c.sourcelen.toNat - k.toNat = n.toNat + (c.sourcelen.toNat - (k + n).toNat) := by omega
  rw [Call.rest, Call.rest, hsplit, readBytes_add, List.drop_left' (readBytes_length ..),
    BitVec.ofNat_toNat, BitVec.setWidth_eq, BitVec.add_assoc]

/-- The data of a stored block are skipped when only scanning. -/
theorem Aligned.skip (h0 : c.dest = 0) {data r : List Byte} (h : Aligned c room s (data ++ r) o)
    {n : Word} (hn : n.toNat = data.length) (hroom : o.length + data.length ≤ room) :
    Aligned c room { s with outcnt := s.outcnt + n, incnt := s.incnt + n } r (o ++ data) := by
  have hlen := h.length
  rw [List.length_append] at hlen
  have hsum : (s.incnt + n).toNat = s.incnt.toNat + n.toNat := by
    have := c.sourcelen.isLt
    have hle : s.incnt.toNat ≤ c.sourcelen.toNat := h.incnt_le
    rw [BitVec.toNat_add, Nat.mod_eq_of_lt (by omega)]
  refine ⟨⟨h.out, h.outlen, h.inp, h.inlen, ?_, ?_, ?_, by simpa using hroom⟩, h.bitbuf, h.bitcnt, ?_⟩
  · show s.incnt + n ≤ c.sourcelen
    have hle : s.incnt.toNat ≤ c.sourcelen.toNat := h.incnt_le
    exact BitVec.le_def.mpr (by omega)
  · rw [h.mem, Call.after, Call.after, if_pos h0, if_pos h0]
  · show s.outcnt + n = _
    rw [h.outcnt, List.length_append, ← ofNat_add_length, ← hn, BitVec.ofNat_toNat,
      BitVec.setWidth_eq]
  · show c.rest (s.incnt + n) = r
    rw [Call.rest_add (by rw [h.rest, hn]; simp), h.rest, hn, List.drop_left' rfl]

/-- The data of a stored block, if they are there and fit. -/
theorem storedData_returns (hc : c.Fits room) {data r : List Byte}
    (h : Aligned c room s (data ++ r) o) {n : Word} (hn : n.toNat = data.length)
    (hroom : o.length + data.length ≤ room) {R : State → Prop} :
    Ends (storedData n) s (fun e s' => e = 0 ∧ Aligned c room s' r (o ++ data)) R := by
  have hlt := hc.room_lt
  have hin : ¬ s.incnt + n > s.inlen := by
    rw [input_gt_iff h (.inr (by rw [hn]; simp)), hn]
    simp
  have hn32 : n = BitVec.ofNat 32 data.length := by rw [← hn, BitVec.ofNat_toNat, BitVec.setWidth_eq]
  unfold storedData
  apply ends_bind_get
  rw [if_neg hin, h.out]
  by_cases h0 : c.dest = 0
  · rw [if_neg (not_not.mpr h0)]
    apply ends_bind_modify
    exact ends_pure ⟨rfl, h.skip h0 hn hroom⟩
  · have hdest := hc.destlen h0
    have hout : ¬ s.outcnt + n > s.outlen := by
      rw [hn32, room_gt_iff h.toWrites (by omega)]
      omega
    rw [if_pos h0, if_neg hout, hn]
    refine ends_bind (copyIn_ends hc h0 h hroom) fun _ s' hs => ?_
    exact ends_pure ⟨rfl, hs⟩

/-- The data of a stored block that do not fit. -/
theorem storedData_full (hi : c.Inflates) {data r : List Byte}
    (h : Aligned c c.destlen.toNat s (data ++ r) o) {n : Word} (hn : n.toNat = data.length)
    (hdata : data.length < 2 ^ 16) (hfull : c.destlen.toNat < o.length + data.length)
    {R : State → Prop} :
    Ends (storedData n) s (fun e s' => e = 1 ∧ Stopped c c.destlen.toNat s') R := by
  have hroom := h.room
  have hdestlen := hi.destlen
  have hin : ¬ s.incnt + n > s.inlen := by
    rw [input_gt_iff h (.inr (by rw [hn]; simp)), hn]
    simp
  have hn32 : n = BitVec.ofNat 32 data.length := by rw [← hn, BitVec.ofNat_toNat, BitVec.setWidth_eq]
  have hout : s.outcnt + n > s.outlen := by
    rw [hn32, room_gt_iff h.toWrites (by omega)]
    exact hfull
  unfold storedData
  apply ends_bind_get
  rw [if_neg hin, h.out, if_pos hi.dest, if_pos hout]
  exact ends_pure ⟨rfl, h.stopped⟩

/-- The length of a stored block is checked, and its data are next. -/
theorem stored_spells (hc : c.Fits room) {pad v : List Bool} {data : List Byte}
    (hdata : data.length < 2 ^ 16) (hpad : pad.length < 8) (hv : v.length % 8 = 0)
    (h : Holds c room s (pad ++ (bitsOf (storedBytes data) ++ v)) o) {Q : ℤ → State → Prop}
    {L : State → Prop}
    (hnext : ∀ r n s', v = bitsOf r → n.toNat = data.length → Aligned c room s' (data ++ r) o →
      Ends (storedData n) s' Q L) :
    Ends stored s Q L := by
  obtain ⟨pad', r, hu, hpad', h₀⟩ := h.align
  have hstored : (bitsOf (storedBytes data) ++ v).length % 8 = 0 := by
    rw [List.length_append, bitsOf_length]
    omega
  obtain ⟨-, hr⟩ := align_unique hpad hpad' hstored (by rw [bitsOf_length]; omega) hu
  obtain ⟨r', rfl, rfl⟩ := bitsOf_eq_append hr.symm
  rw [storedBytes_eq] at h₀
  unfold stored
  apply ends_bind_modify
  apply ends_bind_get
  rw [if_neg ((input_gt_iff h₀ (.inr (by simp))).not.mpr (by simp))]
  refine ends_bind (nextIn_aligned hc h₀) ?_
  rintro lo s₁ ⟨hlo, h₁⟩
  refine ends_bind (nextIn_aligned hc h₁) ?_
  rintro hi s₂ ⟨hhi, h₂⟩
  refine ends_bind (nextIn_aligned hc h₂) ?_
  rintro nlo s₃ ⟨hnlo, h₃⟩
  rw [if_neg (not_not.mpr ((complement_lo lo hi nlo).mpr (by rw [hnlo, hlo])))]
  refine ends_bind (nextIn_aligned hc h₃) ?_
  rintro nhi s₄ ⟨hnhi, h₄⟩
  rw [if_neg (not_not.mpr ((complement_hi lo hi nhi).mpr (by rw [hnhi, hhi])))]
  refine hnext r' _ s₄ rfl ?_ h₄
  rw [hlo, hhi, storedLen_ofNat hdata, BitVec.toNat_ofNat, Nat.mod_eq_of_lt (by omega)]

/-- **A stored block is copied** if its data fit. -/
theorem stored_returns (hc : c.Fits room) {pad v : List Bool} {data : List Byte}
    (hdata : data.length < 2 ^ 16) (hpad : pad.length < 8) (hv : v.length % 8 = 0)
    (h : Holds c room s (pad ++ (bitsOf (storedBytes data) ++ v)) o)
    (hroom : o.length + data.length ≤ room) {R : State → Prop} :
    Ends stored s (fun e s' => e = 0 ∧ Holds c room s' v (o ++ data)) R := by
  refine stored_spells hc hdata hpad hv h ?_
  rintro r n s' rfl hn hs
  refine ends_conseq (storedData_returns hc hs hn hroom) ?_ fun _ hL => hL
  exact fun e s'' hs' => ⟨hs'.1, hs'.2.holds⟩

/-- A stored block whose data do not fit. -/
theorem stored_full (hi : c.Inflates) {pad v : List Bool} {data : List Byte}
    (hdata : data.length < 2 ^ 16) (hpad : pad.length < 8) (hv : v.length % 8 = 0)
    (h : Holds c c.destlen.toNat s (pad ++ (bitsOf (storedBytes data) ++ v)) o)
    (hfull : c.destlen.toNat < o.length + data.length) {R : State → Prop} :
    Ends stored s (fun e s' => e = 1 ∧ Stopped c c.destlen.toNat s') R := by
  refine stored_spells hi.fits hdata hpad hv h ?_
  rintro r n s' rfl hn hs
  exact storedData_full hi hs hn hdata hfull

/-- The data of a stored block, whatever the input. -/
theorem storedData_ends (hi : c.Inflates) {r : List Byte} (h : Aligned c c.destlen.toNat s r o)
    {n : Word} (hn : n.toNat < 2 ^ 16) {L : State → Prop} :
    Ends (storedData n) s (fun e s' => Stopped c c.destlen.toNat s' ∧
      (e = 0 → ∃ data r', r = data ++ r' ∧ data.length = n.toNat ∧
        Aligned c c.destlen.toNat s' r' (o ++ data))) L := by
  have hin := input_gt_iff h (n := n) (.inl (by have := hi.sourcelen; omega))
  have hdestlen := hi.destlen
  have hroom := h.room
  have hn32 : n = BitVec.ofNat 32 n.toNat := by rw [BitVec.ofNat_toNat, BitVec.setWidth_eq]
  unfold storedData
  apply ends_bind_get
  by_cases hshort : r.length < n.toNat
  · rw [if_pos (hin.mpr hshort)]
    exact ends_pure ⟨h.stopped, fun he => absurd he (by norm_num)⟩
  rw [if_neg (hin.not.mpr hshort), h.out, if_pos hi.dest]
  have hout : s.outcnt + n > s.outlen ↔ c.destlen.toNat < o.length + n.toNat := by
    rw [← room_gt_iff h.toWrites (by omega), ← hn32]
  by_cases hfull : c.destlen.toNat < o.length + n.toNat
  · rw [if_pos (hout.mpr hfull)]
    exact ends_pure ⟨h.stopped, fun he => absurd he (by norm_num)⟩
  rw [if_neg (hout.not.mpr hfull)]
  have hlen : (r.take n.toNat).length = n.toNat := by
    rw [List.length_take, min_eq_left (Nat.not_lt.mp hshort)]
  rw [← List.take_append_drop n.toNat r] at h
  have hcopy := copyIn_ends hi.fits hi.dest h (by rw [hlen]; exact Nat.not_lt.mp hfull) (L := L)
  rw [hlen] at hcopy
  refine ends_bind hcopy fun _ s' hs => ends_pure ⟨hs.stopped, fun _ => ?_⟩
  exact ⟨_, _, (List.take_append_drop n.toNat r).symm, hlen, hs⟩

/-- Four bytes at the beginning. -/
theorem exists_four {r : List Byte} (h : 4 ≤ r.length) :
    ∃ b₀ b₁ b₂ b₃ r', r = b₀ :: b₁ :: b₂ :: b₃ :: r' := by
  match r, h with
  | b₀ :: b₁ :: b₂ :: b₃ :: r', _ => exact ⟨b₀, b₁, b₂, b₃, r', rfl⟩

/-- **Every run of `stored`** comes to an end, and what it has copied when it returns `0` is a
    stored block. -/
theorem stored_ends (hi : c.Inflates) (h : Holds c c.destlen.toNat s u o) {L : State → Prop} :
    Ends stored s (fun e s' => Stopped c c.destlen.toNat s' ∧
      (e = 0 → ∃ toks v o', BlockSpells ([false, false] ++ u) toks v ∧ expand toks o = some o' ∧
        Holds c c.destlen.toNat s' v o')) L := by
  have hc := hi.fits
  obtain ⟨pad, r, rfl, hpad, h₀⟩ := h.align
  have hin := input_gt_iff (n := 4) h₀ (.inl (by have := hi.sourcelen; simp; omega))
  unfold stored
  apply ends_bind_modify
  apply ends_bind_get
  by_cases hshort : r.length < 4
  · rw [if_pos (hin.mpr hshort)]
    exact ends_pure ⟨h₀.stopped, fun he => absurd he (by norm_num)⟩
  rw [if_neg (hin.not.mpr hshort)]
  obtain ⟨b₀, b₁, b₂, b₃, r, rfl⟩ := exists_four (Nat.not_lt.mp hshort)
  refine ends_bind (nextIn_aligned hc h₀) ?_
  rintro lo s₁ ⟨rfl, h₁⟩
  refine ends_bind (nextIn_aligned hc h₁) ?_
  rintro hi' s₂ ⟨rfl, h₂⟩
  refine ends_bind (nextIn_aligned hc h₂) ?_
  rintro nlo s₃ ⟨rfl, h₃⟩
  split_ifs with hlo
  · exact ends_pure ⟨h₃.stopped, fun he => absurd he (by norm_num)⟩
  refine ends_bind (nextIn_aligned hc h₃) ?_
  rintro nhi s₄ ⟨rfl, h₄⟩
  split_ifs with hhi
  · exact ends_pure ⟨h₄.stopped, fun he => absurd he (by norm_num)⟩
  have hlen := storedLen_toNat lo hi'
  have hlo' := lo.isLt
  have hhi' := hi'.isLt
  refine ends_conseq (storedData_ends hi h₄ (by omega)) ?_ fun _ hL => hL
  rintro e s' ⟨hstop, hzero⟩
  refine ⟨hstop, fun he => ?_⟩
  obtain ⟨data, r', rfl, hdata, hs⟩ := hzero he
  rw [not_not, complement_lo] at hlo
  rw [not_not, complement_hi] at hhi
  have hbytes : lo :: hi' :: nlo :: nhi :: (data ++ r') = storedBytes data ++ r' := by
    have hlo₂ : BitVec.ofNat 8 data.length = lo := by
      apply BitVec.eq_of_toNat_eq
      rw [BitVec.toNat_ofNat]
      omega
    have hhi₂ : BitVec.ofNat 8 (data.length / 256) = hi' := by
      apply BitVec.eq_of_toNat_eq
      rw [BitVec.toNat_ofNat]
      omega
    rw [storedBytes_eq, hlo₂, hhi₂, hlo, hhi]
    rfl
  rw [hbytes, bitsOf_append]
  exact ⟨_, _, _, .stored (by omega) hpad (by rw [bitsOf_length]; omega), expand_literals data o,
    hs.holds⟩

/-! ## Fixed blocks -/

/-- A table that `construct` makes of all lengths of a code. -/
theorem construct_table (lengths : List ℕ) (hle : ∀ l ∈ lengths, l ≤ maxBits)
    (hfits : used lengths maxBits ≤ 2 ^ maxBits) :
    ∃ err h, construct (emptyTable lengths.length) (lengths.map some) lengths.length =
      some (err, h) ∧ Table lengths h := by
  obtain ⟨err, h, heq, hcons⟩ := construct_spec (h := emptyTable lengths.length) hle
    (begins_map_some lengths) (emptyTable_count _) (emptyTable_symbol _).ge
  exact ⟨err, h, heq, hcons.table (Int.not_lt.mp (hcons.neg.not.mpr (Nat.not_lt.mpr hfits)))⟩

/-- The tables of `fixed` are those of the fixed codes. -/
theorem fixedTables_spec :
    ∃ lencode distcode, fixedTables = some (lencode, distcode) ∧ Table fixedLengths lencode ∧
      Table fixedDistLengths distcode := by
  obtain ⟨e₁, lencode, h₁, hL⟩ := construct_table fixedLengths
    (by decide +kernel) (by decide +kernel)
  obtain ⟨e₂, distcode, h₂, hD⟩ := construct_table fixedDistLengths
    (by decide +kernel) (by decide +kernel)
  refine ⟨lencode, distcode, ?_, hL, hD⟩
  rw [show fixedLengths.length = fixLCodes by decide +kernel] at h₁
  rw [show fixedDistLengths.length = maxDCodes by decide +kernel] at h₂
  rw [fixedTables, h₁, h₂]
  rfl

/-- **A fixed block** is decoded with the tables of the fixed codes. -/
theorem fixed_spells {Q : ℤ → State → Prop} {L : State → Prop}
    (hcodes : ∀ lencode distcode, Table fixedLengths lencode → Table fixedDistLengths distcode →
      Ends (codes lencode distcode) s Q L) :
    Ends fixed s Q L := by
  obtain ⟨lencode, distcode, htables, hL, hD⟩ := fixedTables_spec
  unfold fixed
  apply ends_bind_checked htables
  exact hcodes lencode distcode hL hD

/-- **Every run of `fixed`** comes to an end, and what it has decoded when it returns `0` is a fixed
    block. -/
theorem fixed_ends (hi : c.Inflates) (h : Holds c c.destlen.toNat s u o) :
    Ends fixed s (fun e s' => Stopped c c.destlen.toNat s' ∧
        (e = 0 → ∃ toks v o', BlockSpells ([true, false] ++ u) toks v ∧ expand toks o = some o' ∧
          Holds c c.destlen.toNat s' v o'))
      (Stopped c c.destlen.toNat) := by
  refine fixed_spells fun lencode distcode hL hD => ?_
  refine ends_conseq (codes_ends hi hL hD (by decide) h) ?_ fun _ hL => hL
  rintro e s' ⟨hstop, hzero⟩
  refine ⟨hstop, fun he => ?_⟩
  obtain ⟨toks, w, v, o', rfl, hspells, hexpand, hs⟩ := hzero he
  exact ⟨toks, v, o', .fixed hspells, hexpand, hs⟩

/-! ## Streams -/

/-- A block is at least its type. -/
theorem BlockSpells.length_lt {v rest : List Bool} {toks : List Token} (h : BlockSpells v toks rest) :
    rest.length < v.length := by
  cases h <;> simp only [List.length_append, List.length_cons, List.length_nil] <;> omega

/-- What holds of every function that decodes the block holds of the block. -/
theorem block_spells (hc : c.Fits room) {toks : List Token} {v rest : List Bool}
    (hblock : BlockSpells v toks rest) (h : Holds c room s v o) {Q : ℤ → State → Prop}
    {L L' : State → Prop}
    (hstored : ∀ pad data s', toks = data.map .literal → data.length < 2 ^ 16 → pad.length < 8 →
      rest.length % 8 = 0 → Holds c room s' (pad ++ (bitsOf (storedBytes data) ++ rest)) o →
      Ends stored s' Q L)
    (hcodes : ∀ ll dl lencode distcode w s', Spells ll dl toks w → Table ll lencode →
      Table dl distcode → Holds c room s' (w ++ rest) o → Ends (codes lencode distcode) s' Q L) :
    Ends (bits 2) s (fun type s' => Ends (block type) s' Q L) L' := by
  cases hblock with
  | stored hdata hpad hu =>
    refine ends_conseq (bits_returns hc h rfl) ?_ fun _ hL => hL
    rintro a s' ⟨rfl, hs⟩
    exact hstored _ _ s' rfl hdata hpad hu hs
  | fixed hspells =>
    refine ends_conseq (bits_returns hc h rfl) ?_ fun _ hL => hL
    rintro a s' ⟨rfl, hs⟩
    exact fixed_spells fun lencode distcode hLt hDt =>
      hcodes _ _ lencode distcode _ s' hspells hLt hDt hs
  | dynamic hnlen hndist hncode hvals hcomplete hls hL hD hspells =>
    refine ends_conseq (bits_returns hc h rfl) ?_ fun _ hL => hL
    rintro a s' ⟨rfl, hs⟩
    exact dynamic_spells hc hnlen hndist hncode hvals hcomplete hls hL hD hspells hs
      fun lencode distcode hLt hDt s'' hs' => hcodes _ _ lencode distcode _ s'' hspells hLt hDt hs'

/-- **A block is decoded** if its data fit. -/
theorem block_returns (hc : c.Fits room) {toks : List Token} {v rest : List Bool}
    (hblock : BlockSpells v toks rest) (h : Holds c room s v o) {o' : List Byte}
    (hexpand : expand toks o = some o') (hroom : o'.length ≤ room) {L L' : State → Prop} :
    Ends (bits 2) s (fun type s' =>
      Ends (block type) s' (fun e s'' => e = 0 ∧ Holds c room s'' rest o') L) L' := by
  refine block_spells hc hblock h ?_ ?_
  · rintro pad data s' rfl hdata hpad hrest hs
    rw [expand_literals, Option.some.injEq] at hexpand
    subst hexpand
    rw [List.length_append] at hroom
    exact stored_returns hc hdata hpad hrest hs hroom
  · intro ll dl lencode distcode w s' hspells hLt hDt hs
    exact codes_returns hc hLt hDt hspells hs hexpand hroom

/-- A block whose data do not fit. -/
theorem block_full (hi : c.Inflates) {toks : List Token} {v rest : List Bool}
    (hblock : BlockSpells v toks rest) (h : Holds c c.destlen.toNat s v o) {o' : List Byte}
    (hexpand : expand toks o = some o') (hfull : c.destlen.toNat < o'.length)
    {L L' : State → Prop} :
    Ends (bits 2) s (fun type s' =>
      Ends (block type) s' (fun e s'' => e = 1 ∧ Stopped c c.destlen.toNat s'') L) L' := by
  refine block_spells hi.fits hblock h ?_ ?_
  · rintro pad data s' rfl hdata hpad hrest hs
    rw [expand_literals, Option.some.injEq] at hexpand
    subst hexpand
    rw [List.length_append] at hfull
    exact stored_full hi hdata hpad hrest hs hfull
  · intro ll dl lencode distcode w s' hspells hLt hDt hs
    exact codes_full hi hLt hDt hspells hs hexpand hfull

/-- **Every block** comes to an end, and it has been one when its function returns `0`. -/
theorem block_ends (hi : c.Inflates) (h : Holds c c.destlen.toNat s u o) :
    Ends (bits 2) s (fun type s' => Ends (block type) s'
        (fun e s'' => Stopped c c.destlen.toNat s'' ∧
          (e = 0 → ∃ toks v o', BlockSpells u toks v ∧ expand toks o = some o' ∧
            Holds c c.destlen.toNat s'' v o'))
        (Stopped c c.destlen.toNat))
      (Stopped c c.destlen.toNat) := by
  refine ends_conseq (bits_splits hi.fits h 2) ?_ fun _ hL => hL
  rintro a s' ⟨x, v, rfl, hx, rfl, hs⟩
  obtain ⟨b₀, b₁, rfl⟩ := List.length_eq_two.mp hx
  cases b₀ <;> cases b₁
  · exact stored_ends hi hs
  · exact dynamic_ends hi hs
  · exact fixed_ends hi hs
  · exact ends_pure ⟨hs.stopped, fun he => absurd he (by norm_num)⟩

/-- **A stream is inflated** if its data fit. -/
theorem blocks_returns (hc : c.Fits room) {toks : List Token} {v rest : List Bool}
    (hstream : Stream v toks rest) (h : Holds c room s v o) {o' : List Byte}
    (hexpand : expand toks o = some o') (hroom : o'.length ≤ room) {fuel : ℕ}
    (hfuel : v.length < fuel) {R : State → Prop} :
    Ends (blocks fuel) s (fun e s' => e = 0 ∧ Holds c room s' rest o') R := by
  induction hstream generalizing s o fuel with
  | last hblock =>
    obtain ⟨fuel, rfl⟩ := Nat.exists_eq_add_of_le' (Nat.one_le_of_lt hfuel)
    unfold blocks
    refine ends_bind (bits_returns (w := [true]) hc h rfl) ?_
    rintro a s₁ ⟨rfl, h₁⟩
    refine ends_bind (block_returns (L := R) hc hblock h₁ hexpand hroom) fun type s₂ h₂ => ?_
    refine ends_bind h₂ ?_
    rintro e s₃ ⟨rfl, h₃⟩
    rw [if_neg (not_not.mpr rfl), if_pos (by decide)]
    exact ends_pure ⟨rfl, h₃⟩
  | more hblock _ ih =>
    obtain ⟨fuel, rfl⟩ := Nat.exists_eq_add_of_le' (Nat.one_le_of_lt hfuel)
    rw [expand_append] at hexpand
    obtain ⟨o₁, hexpand₁, hexpand⟩ := Option.bind_eq_some_iff.mp hexpand
    have hle := (expand_extends hexpand).length_le
    have hlt := hblock.length_lt
    rw [List.length_cons] at hfuel
    unfold blocks
    refine ends_bind (bits_returns (w := [false]) hc h rfl) ?_
    rintro a s₁ ⟨rfl, h₁⟩
    refine ends_bind (block_returns (L := R) hc hblock h₁ hexpand₁ (hle.trans hroom))
      fun type s₂ h₂ => ?_
    refine ends_bind h₂ ?_
    rintro e s₃ ⟨rfl, h₃⟩
    rw [if_neg (not_not.mpr rfl), if_neg (by decide)]
    exact ih h₃ hexpand (by omega)

/-- **A stream whose data do not fit** is noticed. -/
theorem blocks_full (hi : c.Inflates) {toks : List Token} {v rest : List Bool}
    (hstream : Stream v toks rest) (h : Holds c c.destlen.toNat s v o) {o' : List Byte}
    (hexpand : expand toks o = some o') (hfull : c.destlen.toNat < o'.length) {fuel : ℕ}
    (hfuel : v.length < fuel) {R : State → Prop} :
    Ends (blocks fuel) s (fun e s' => e = 1 ∧ Stopped c c.destlen.toNat s') R := by
  have hc := hi.fits
  induction hstream generalizing s o fuel with
  | last hblock =>
    obtain ⟨fuel, rfl⟩ := Nat.exists_eq_add_of_le' (Nat.one_le_of_lt hfuel)
    unfold blocks
    refine ends_bind (bits_returns (w := [true]) hc h rfl) ?_
    rintro a s₁ ⟨rfl, h₁⟩
    refine ends_bind (block_full (L := R) hi hblock h₁ hexpand hfull) fun type s₂ h₂ => ?_
    refine ends_bind h₂ ?_
    rintro e s₃ ⟨rfl, h₃⟩
    rw [if_pos (by norm_num)]
    exact ends_pure ⟨rfl, h₃⟩
  | more hblock _ ih =>
    obtain ⟨fuel, rfl⟩ := Nat.exists_eq_add_of_le' (Nat.one_le_of_lt hfuel)
    rw [expand_append] at hexpand
    obtain ⟨o₁, hexpand₁, hexpand⟩ := Option.bind_eq_some_iff.mp hexpand
    have hlt := hblock.length_lt
    rw [List.length_cons] at hfuel
    unfold blocks
    refine ends_bind (bits_returns (w := [false]) hc h rfl) ?_
    rintro a s₁ ⟨rfl, h₁⟩
    -- the data may stop to fit within this block or behind it
    by_cases hfit : o₁.length ≤ c.destlen.toNat
    · refine ends_bind (block_returns (L := R) hc hblock h₁ hexpand₁ hfit) fun type s₂ h₂ => ?_
      refine ends_bind h₂ ?_
      rintro e s₃ ⟨rfl, h₃⟩
      rw [if_neg (not_not.mpr rfl), if_neg (by decide)]
      exact ih h₃ hexpand (by omega)
    · refine ends_bind (block_full (L := R) hi hblock h₁ hexpand₁ (Nat.not_le.mp hfit))
        fun type s₂ h₂ => ?_
      refine ends_bind h₂ ?_
      rintro e s₃ ⟨rfl, h₃⟩
      rw [if_pos (by norm_num)]
      exact ends_pure ⟨rfl, h₃⟩

/-- **Every run of the loop** over the blocks comes to an end, and what it has inflated when it
    returns `0` is a stream. -/
theorem blocks_ends (hi : c.Inflates) (h : Holds c c.destlen.toNat s u o) {fuel : ℕ}
    (hfuel : u.length < fuel) :
    Ends (blocks fuel) s (fun e s' => Stopped c c.destlen.toNat s' ∧
        (e = 0 → ∃ toks v o', Stream u toks v ∧ expand toks o = some o' ∧
          Holds c c.destlen.toNat s' v o'))
      (Stopped c c.destlen.toNat) := by
  induction fuel generalizing s u o with
  | zero => omega
  | succ fuel ih =>
    unfold blocks
    refine ends_bind (bits_splits hi.fits h 1) ?_
    rintro last s₁ ⟨x, v, rfl, hx, rfl, h₁⟩
    obtain ⟨b, rfl⟩ := List.length_eq_one_iff.mp hx
    refine ends_bind (block_ends hi h₁) fun type s₂ h₂ => ?_
    refine ends_bind h₂ ?_
    rintro e s₃ ⟨hstop, hzero⟩
    by_cases he : e = 0
    swap
    · rw [if_pos he]
      exact ends_pure ⟨hstop, fun he' => absurd he' he⟩
    rw [if_neg (not_not.mpr he)]
    obtain ⟨toks, rest, o₁, hblock, hexpand, hs⟩ := hzero he
    cases b with
    | true =>
      rw [if_pos (by decide)]
      exact ends_pure ⟨hstop, fun _ => ⟨toks, rest, o₁, .last hblock, hexpand, hs⟩⟩
    | false =>
      rw [if_neg (by decide)]
      have hlt := hblock.length_lt
      rw [List.length_append, List.length_singleton] at hfuel
      refine ends_conseq (ih hs (by omega)) ?_ fun _ hL => hL
      rintro e' s₄ ⟨hstop', hdone⟩
      refine ⟨hstop', fun he' => ?_⟩
      obtain ⟨toks', v', o', hstream, hexpand', hs'⟩ := hdone he'
      exact ⟨_, v', o', .more hblock hstream, by
        rw [expand_append, hexpand, Option.bind_some, hexpand'], hs'⟩

end Blocks

end BBoot.Inflate
