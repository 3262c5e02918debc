import BBoot.Inflate.Reading

/-!
# Decoding a symbol

`Table lengths h` says that `h` holds the canonical code with the lengths
`lengths`. On such a table both versions of `decode` look for the codeword that
begins the unread bits.

Results:
* `decode_ends`, `decodeSlow_ends`: the symbol they return is the one whose
  codeword begins the input; they return `-10` if there are `15` bits and no
  codeword begins them, and leave if there are fewer.
* `decode_agrees`: the fast version and the plain one agree.
* `decode_returns`: decoding where the input begins with a codeword.
-/

namespace BBoot.Inflate

open PuffM Canonical

/-- The table of a canonical code. -/
structure Table (lengths : List ℕ) (h : Huffman) : Prop where
  le : ∀ l ∈ lengths, l ≤ maxBits
  fits : used lengths maxBits ≤ 2 ^ maxBits
  count : ∀ l ≤ maxBits, h.count.read l = some (lengths.count l)
  symbol : ∀ s l, 1 ≤ l → lengths[s]? = some l →
    h.symbol.read (slot lengths s l) = some s

/-- No codeword begins the bits. -/
def NoCodeword (lengths : List ℕ) (u : List Bool) : Prop :=
  ∀ s w, codeword lengths s = some w → ¬ w <+: u

section Decode

variable {c : Call} {room : ℕ} {s : State} {u : List Bool} {o : List Byte} {lengths : List ℕ}
  {h : Huffman}

/-- The table has the symbol of the codeword that was found. -/
theorem Table.found (ht : Table lengths h) {l r : ℕ} (hf : Found lengths u l r) :
    ∃ sym, h.symbol.read (index lengths l + r) = some sym ∧
      codeword lengths sym = some (u.take l) := by
  obtain ⟨sym, hs, hr, hw⟩ := hf.codeword
  exact ⟨sym, hr ▸ ht.symbol sym l hf.pos hs, hw⟩

/-- No codeword begins bits of which all lengths are past. -/
theorem Table.noCodeword (ht : Table lengths h) {l : ℕ} (hpast : Past lengths u l)
    (hl : u.length < l ∨ maxBits < l) : NoCodeword lengths u := by
  intro sym w hw hu
  obtain ⟨k, hs, -, hf⟩ := found_of_codeword ht.fits ht.le hw hu
  have hle := hf.le
  have hmax := ht.le k (List.mem_of_getElem? hs)
  exact hf.not_past (by omega) hpast

/-- What one bit tells: the codeword is found or it is longer. -/
theorem past_step {l : ℕ} (hpast : Past lengths u l) (hl : l ≤ u.length) (hpos : 1 ≤ l) {code : ℕ}
    (hcode : code = codeValue (u.take l)) :
    ((code : ℤ) - lengths.count l < first lengths l →
        Found lengths u l (code - first lengths l)) ∧
      (¬ (code : ℤ) - lengths.count l < first lengths l → Past lengths u (l + 1)) := by
  have hused : used lengths l = first lengths l + lengths.count l := by
    rw [used, ofLength_pos hpos]
  constructor
  · intro hlt
    rw [hcode]
    exact hpast.found hl (by omega)
  · intro hge
    exact hpast.succ (by omega)

theorem index_succ {l : ℕ} (hl : 1 ≤ l) :
    index lengths (l + 1) = index lengths l + lengths.count l := by
  rw [index, ofLength_pos hl]

theorem first_succ {l : ℕ} (hl : 1 ≤ l) :
    first lengths (l + 1) = (first lengths l + lengths.count l) <<< 1 := by
  rw [first, ofLength_pos hl, Nat.shiftLeft_eq, Nat.mul_comm]

/-- The next bit below the code read so far. -/
theorem code_or (u : List Bool) {k : ℕ} (hk : k < u.length) :
    codeValue (u.take k) <<< 1 ||| u[k].toNat = codeValue (u.take (k + 1)) := by
  rw [codeValue_take_succ hk, ← Nat.shiftLeft_add_eq_or_of_lt (Bool.toNat_lt _), Nat.shiftLeft_eq,
    Nat.mul_comm]

theorem getElem_of_drop {k : ℕ} {b : Bool} {v : List Bool} (hu : u.drop k = b :: v) :
    ∃ hk : k < u.length, u[k] = b ∧ u.drop (k + 1) = v := by
  have hk : k < u.length := by
    by_contra hge
    rw [List.drop_eq_nil_of_le (by omega)] at hu
    simp at hu
  rw [List.drop_eq_getElem_cons hk, List.cons.injEq] at hu
  exact ⟨hk, hu⟩

/-! ## What a decoder returns -/

variable (c room u o lengths) in
/-- The value of `decode` and the state it leaves: a symbol whose codeword is taken off the
    input, or `-10` after as many bits as a codeword can have. -/
inductive Decoded : ℤ → State → Prop
  | symbol {sym l : ℕ} {s' : State} (hw : codeword lengths sym = some (u.take l))
      (hl : l ≤ u.length) (hs : Holds c room s' (u.drop l) o) : Decoded sym s'
  | invalid {s' : State} (hno : NoCodeword lengths u) (hu : maxBits ≤ u.length)
      (hs : Writes c room s' o)
      (hin : s'.incnt.toNat = c.sourcelen.toNat - (u.length - maxBits) / 8) : Decoded (-10) s'

variable (c room u o lengths) in
/-- `decode` has left: there are fewer bits than a codeword can have, and none is there. -/
structure Starved (s' : State) : Prop where
  noCodeword : NoCodeword lengths u
  short : u.length < maxBits
  writes : Writes c room s' o

/-! ## The plain version -/

/-- **`decodeSlow`** looks for the codeword that begins the input. -/
theorem decodeSlowLoop_ends (hc : c.Fits room) (ht : Table lengths h) {n k : ℕ}
    (hs : Holds c room s (u.drop k) o) (hpast : Past lengths u (k + 1)) (hk : k ≤ u.length)
    (hn : k + n = maxBits) :
    Ends (decodeSlowLoop h n (k + 1) (codeValue (u.take k) <<< 1) (first lengths (k + 1))
        (index lengths (k + 1))) s (Decoded c room u o lengths) (Starved c room u o lengths) := by
  induction n generalizing s k with
  | zero =>
    rw [Nat.add_zero] at hn
    subst hn
    apply ends_pure
    refine .invalid (ht.noCodeword hpast (.inr (Nat.lt_succ_self _))) hk hs.toWrites ?_
    have hlen := hs.length
    have hcnt := hs.bitcnt_lt
    have hle : s.incnt.toNat ≤ c.sourcelen.toNat := hs.incnt_le
    rw [List.length_drop] at hlen
    omega
  | succ n ih =>
    unfold decodeSlowLoop
    refine ends_bind (ends_conseq (bits_ends hc hs 1) (fun _ _ hQ => hQ) ?_) ?_
    · rintro s' ⟨hlt, hw⟩
      rw [List.length_drop] at hlt
      exact ⟨ht.noCodeword hpast (.inl (by omega)), by omega, hw⟩
    rintro a s' ⟨ha, hlen, hs'⟩
    rw [List.length_drop] at hlen
    have hlt : k < u.length := by omega
    have hcode : codeValue (u.take k) <<< 1 ||| a = codeValue (u.take (k + 1)) := by
      rw [ha, List.drop_eq_getElem_cons hlt, List.take_succ_cons, List.take_zero, ofBits, ofBits,
        ← code_or u hlt]
      rfl
    rw [List.drop_drop] at hs'
    apply ends_bind_checked (ht.count (k + 1) (by omega))
    rw [hcode]
    obtain ⟨hyes, hno⟩ := past_step hpast hlt (by omega) rfl
    split_ifs with hif
    · obtain ⟨sym, hread, hw⟩ := ht.found (hyes hif)
      apply ends_bind_checked hread
      exact ends_pure (.symbol hw hlt hs')
    · rw [← first_succ (by omega), ← index_succ (by omega)]
      exact ih hs' (hno hif) hlt (by omega)

theorem decodeSlow_ends (hc : c.Fits room) (ht : Table lengths h) (hs : Holds c room s u o) :
    Ends (decodeSlow h) s (Decoded c room u o lengths) (Starved c room u o lengths) :=
  decodeSlowLoop_ends (k := 0) hc ht hs (past_one u) (Nat.zero_le _) (Nat.zero_add _)

/-! ## The fast version -/

variable (c s u lengths) in
/-- The variables of `decode` after `k` bits, when `n` bits are in its buffer. -/
structure DecodeAt (v : DecodeVars) (k n : ℕ) : Prop where
  len : v.len = k + 1
  past : Past lengths u (k + 1)
  code : v.code = codeValue (u.take k) <<< 1
  first : v.first = first lengths (k + 1)
  index : v.index = index lengths (k + 1)
  le : k ≤ u.length
  bits : u.drop k = toBits n v.bitbuf ++ bitsOf (c.rest s.incnt)
  bitbuf_lt : v.bitbuf < 2 ^ n
  -- `bitcnt` is that of before, so it tells where in a byte the bits begin
  aligned : (n + k) % 8 = s.bitcnt

/-- The loop over the bits of the buffer. -/
theorem decodeBits_ends (ht : Table lengths h) (hs : Writes c room s o) {v : DecodeVars}
    {left k n : ℕ} (hv : DecodeAt c s u lengths v k n) (hn : n ≤ 8) (hleft : left ≤ n)
    (hk : k + left ≤ maxBits) {L : State → Prop} :
    Ends (decodeBits h left v) s (fun r s' => match r with
      | .inl v' => s' = s ∧ DecodeAt c s u lengths v' (k + left) (n - left)
      | .inr sym => Decoded c room u o lengths sym s') L := by
  induction left generalizing v k n with
  | zero => exact ends_pure ⟨rfl, hv⟩
  | succ left ih =>
    obtain ⟨n, rfl⟩ := Nat.exists_eq_add_of_le' (Nat.one_le_of_lt hleft)
    have hbits := hv.bits
    rw [toBits, List.cons_append] at hbits
    obtain ⟨hlt, hbit, hrest⟩ := getElem_of_drop hbits
    have hcode : v.code ||| (v.bitbuf &&& 1) = codeValue (u.take (k + 1)) := by
      rw [hv.code, ← code_or u hlt, hbit, Nat.and_one_is_mod]
      rcases Nat.mod_two_eq_zero_or_one v.bitbuf with h0 | h1
      · rw [h0]
        rfl
      · rw [h1]
        rfl
    have hbuf : v.bitbuf >>> 1 < 2 ^ n := by
      have := hv.bitbuf_lt
      rw [Nat.pow_succ] at this
      rw [Nat.shiftRight_eq_div_pow]
      omega
    unfold decodeBits
    rw [hv.len]
    apply ends_bind_checked (ht.count (k + 1) (by omega))
    rw [hcode, hv.first, hv.index]
    obtain ⟨hyes, hno⟩ := past_step hv.past hlt (by omega) rfl
    split_ifs with hif
    · obtain ⟨sym, hread, hw⟩ := ht.found (hyes hif)
      apply ends_bind_modify
      apply ends_bind_checked hread
      apply ends_pure
      have hcnt : (((s.bitcnt : ℤ) - (k + 1 : ℕ)) % 8).toNat = n := by
        have := hv.aligned
        omega
      refine .symbol hw hlt ⟨⟨hs.out, hs.outlen, hs.inp, hs.inlen, hs.incnt_le, hs.mem, hs.outcnt,
        hs.room⟩, ?_, ?_, ?_⟩
      · show (((s.bitcnt : ℤ) - (k + 1 : ℕ)) % 8).toNat < 8
        omega
      · show v.bitbuf >>> 1 < 2 ^ (((s.bitcnt : ℤ) - (k + 1 : ℕ)) % 8).toNat
        rwa [hcnt]
      · show _ = toBits (((s.bitcnt : ℤ) - (k + 1 : ℕ)) % 8).toNat (v.bitbuf >>> 1) ++ _
        rw [hcnt]
        exact hrest
    · rw [show k + (left + 1) = k + 1 + left by ring, show n + 1 - (left + 1) = n - left by omega]
      refine ih ⟨rfl, hno hif, rfl, (first_succ (by omega)).symm, (index_succ (by omega)).symm, hlt,
        hrest, hbuf, ?_⟩ (by omega) (by omega) (by omega)
      have := hv.aligned
      omega

/-- The outer loop: a byte is loaded when the buffer is used up. -/
theorem decodeLoop_ends (hc : c.Fits room) (ht : Table lengths h) (hs : Writes c room s o)
    {v : DecodeVars} {fuel left k n : ℕ} (hv : DecodeAt c s u lengths v k n) (hleft : left ≤ n)
    (hn : n < left + 8) (hn8 : n ≤ 8) (hall : left = n ∨ k + left = maxBits)
    (hk : k + left ≤ maxBits) (hfuel : maxBits + 1 ≤ fuel + k + left) :
    Ends (decodeLoop h fuel left v) s (Decoded c room u o lengths)
      (Starved c room u o lengths) := by
  induction fuel generalizing s v left k n with
  | zero => omega
  | succ fuel ih =>
    unfold decodeLoop
    refine ends_bind (decodeBits_ends ht hs hv hn8 hleft hk) ?_
    rintro (v' | sym) s' hr
    · obtain ⟨heq, hv'⟩ := hr
      dsimp only
      rw [heq, hv'.len]
      by_cases h0 : maxBits + 1 - (k + left + 1) = 0
      · rw [if_pos h0]
        apply ends_pure
        have hk' : k + left = maxBits := by omega
        rw [hk'] at hv'
        refine .invalid (ht.noCodeword hv'.past (.inr (Nat.lt_succ_self _))) hv'.le hs ?_
        have hlen := congrArg List.length hv'.bits
        rw [List.length_drop, List.length_append, toBits_length, bitsOf_length,
          Call.rest_length] at hlen
        have hle : s.incnt.toNat ≤ c.sourcelen.toNat := hs.incnt_le
        omega
      rw [if_neg h0]
      apply ends_bind_get
      have hn0 : n - left = 0 := by omega
      by_cases hend : s.incnt = s.inlen
      · rw [if_pos hend]
        have hbits := hv'.bits
        rw [Call.rest_end (by rw [hend, hs.inlen]), hn0] at hbits
        have hlen := congrArg List.length hbits
        rw [List.length_drop] at hlen
        apply ends_longjmp
        refine ⟨ht.noCodeword hv'.past (.inl ?_), ?_, hs⟩
        · exact Nat.lt_succ_of_le (Nat.le_of_sub_eq_zero hlen)
        · have := Nat.le_of_sub_eq_zero hlen
          omega
      · rw [if_neg hend]
        have hlt : s.incnt < c.sourcelen := by
          have := hs.incnt_le
          rw [hs.inlen] at hend
          bv_omega
        refine ends_bind (nextIn_ends hs hc hlt) ?_
        rintro b s' ⟨rfl, hrest⟩
        have hbits := hv'.bits
        rw [hn0, hrest, bitsOf_cons] at hbits
        have haligned := hv'.aligned
        refine ih (s := { s with incnt := s.incnt + 1 }) (hs.incnt_succ hlt s.bitcnt) (n := 8)
          ⟨rfl, hv'.past, hv'.code, hv'.first, hv'.index, hv'.le, hbits, b.isLt, ?_⟩
          ?_ ?_ le_rfl ?_ ?_ ?_
        · show (8 + (k + left)) % 8 = s.bitcnt
          omega
        all_goals split_ifs <;> omega
    · exact ends_pure hr

/-- **`decode`** looks for the codeword that begins the input. -/
theorem decode_ends (hc : c.Fits room) (ht : Table lengths h) (hs : Holds c room s u o) :
    Ends (decode h) s (Decoded c room u o lengths) (Starved c room u o lengths) := by
  have hcnt := hs.bitcnt_lt
  have hmax : maxBits = 15 := rfl
  unfold decode
  apply ends_bind_get
  refine decodeLoop_ends (k := 0) (n := s.bitcnt) hc ht hs.toWrites
    ⟨rfl, past_one u, rfl, rfl, rfl, Nat.zero_le _, hs.unread, hs.bitbuf_lt, ?_⟩ le_rfl ?_ ?_
    (.inl rfl) ?_ ?_
  · exact Nat.mod_eq_of_lt hcnt
  all_goals omega

/-- Decoding where the input begins with a codeword. -/
theorem decode_returns (hc : c.Fits room) (ht : Table lengths h) {sym : ℕ} {w v : List Bool}
    (hw : codeword lengths sym = some w) (hs : Holds c room s (w ++ v) o) {L : State → Prop} :
    Ends (decode h) s (fun a s' => a = sym ∧ Holds c room s' v o) L := by
  refine ends_conseq (decode_ends hc ht hs) ?_ ?_
  · rintro a s' (@⟨sym', l, _, hw', hl, hs'⟩ | ⟨hno, -, -, -⟩)
    · have hsym := codeword_prefix_unique ht.fits ht.le hw hw' (List.prefix_append w v)
        (List.take_prefix _ _)
      subst hsym
      have htake : w = (w ++ v).take l := Option.some.inj (hw.symm.trans hw')
      have hlen : w.length = l := by rw [htake, List.length_take, min_eq_left hl]
      rw [List.drop_left' hlen] at hs'
      exact ⟨rfl, hs'⟩
    · exact absurd (List.prefix_append w v) (hno sym w hw)
  · rintro s' ⟨hno, -, -⟩
    exact absurd (List.prefix_append w v) (hno sym w hw)

/-! ## Both versions -/

/-- The codeword that begins the bits and the rest determine each other. -/
theorem Table.codeword_unique (ht : Table lengths h) {sym sym' : ℕ} {w w' : List Bool}
    (hw : codeword lengths sym = some w) (hw' : codeword lengths sym' = some w') (hu : w <+: u)
    (hu' : w' <+: u) : sym = sym' ∧ w = w' := by
  obtain rfl := codeword_prefix_unique ht.fits ht.le hw hw' hu hu'
  exact ⟨rfl, Option.some.inj (hw.symm.trans hw')⟩

/-- A symbol is returned exactly if its codeword begins the bits. -/
theorem Decoded.eq_iff (ht : Table lengths h) {a : ℤ} {s' : State}
    (hd : Decoded c room u o lengths a s') (sym : ℕ) :
    a = sym ↔ ∃ w, codeword lengths sym = some w ∧ w <+: u := by
  cases hd with
  | symbol hw hl hs =>
    constructor
    · intro heq
      obtain rfl := Int.ofNat.inj heq
      exact ⟨_, hw, List.take_prefix _ _⟩
    · rintro ⟨w, hw', hu⟩
      rw [(ht.codeword_unique hw hw' (List.take_prefix _ _) hu).1]
  | invalid hno _ _ _ =>
    refine iff_of_false (fun heq => by omega) ?_
    rintro ⟨w, hw, hu⟩
    exact hno _ w hw hu

/-- Two runs on the same bits have decoded the same. -/
theorem Decoded.unique (ht : Table lengths h) {a a' : ℤ} {s₁ s₂ : State}
    (h₁ : Decoded c room u o lengths a s₁) (h₂ : Decoded c room u o lengths a' s₂) :
    a = a' ∧ s₁.mem = s₂.mem ∧ s₁.outcnt = s₂.outcnt ∧ s₁.incnt = s₂.incnt ∧ (0 ≤ a → s₁ = s₂) := by
  cases h₁ with
  | @symbol sym l _ hw hl hs =>
    have ha := (h₂.eq_iff ht sym).mpr ⟨_, hw, List.take_prefix _ _⟩
    cases h₂ with
    | @symbol sym' l' _ hw' hl' hs' =>
      have htake := (ht.codeword_unique hw hw' (List.take_prefix _ _) (List.take_prefix _ _)).2
      have hlen := congrArg List.length htake
      rw [List.length_take, List.length_take, min_eq_left hl, min_eq_left hl'] at hlen
      subst hlen
      obtain rfl := hs.unique hs'
      exact ⟨ha.symm, rfl, rfl, rfl, fun _ => rfl⟩
    | invalid hno _ _ _ => omega
  | invalid hno hu hs hin =>
    cases h₂ with
    | symbol hw' hl' hs' => exact absurd (List.take_prefix _ _) (hno _ _ hw')
    | invalid _ _ hs' hin' =>
      exact ⟨rfl, hs.mem.trans hs'.mem.symm, hs.outcnt.trans hs'.outcnt.symm,
        BitVec.eq_of_toNat_eq (hin.trans hin'.symm), fun h => absurd h (by norm_num)⟩

/-- **The fast decoder agrees with the plain one**: it returns the same value from the same bits,
    or leaves when the plain one leaves. -/
theorem decode_agrees (hc : c.Fits room) (ht : Table lengths h) (hs : Holds c room s u o) :
    (decode h s).1 = (decodeSlow h s).1 ∧ (decode h s).2.mem = (decodeSlow h s).2.mem ∧
      (decode h s).2.outcnt = (decodeSlow h s).2.outcnt ∧
      (∀ sym : ℕ, (decode h s).1 = .ok ↑sym → (decode h s).2 = (decodeSlow h s).2) := by
  obtain ⟨a, s₁, h₁, hd⟩ | ⟨s₁, h₁, hd⟩ := (decode_ends hc ht hs).cases <;>
    obtain ⟨a', s₂, h₂, hd'⟩ | ⟨s₂, h₂, hd'⟩ := (decodeSlow_ends hc ht hs).cases <;> rw [h₁, h₂]
  · obtain ⟨rfl, hmem, hout, -, heq⟩ := hd.unique ht hd'
    refine ⟨rfl, hmem, hout, fun sym hsym => heq ?_⟩
    rw [Except.ok.inj hsym]
    exact Int.natCast_nonneg sym
  · cases hd with
    | symbol hw _ _ => exact absurd (List.take_prefix _ _) (hd'.noCodeword _ _ hw)
    | invalid _ hu _ _ => exact absurd hd'.short (Nat.not_lt.mpr hu)
  · cases hd' with
    | symbol hw _ _ => exact absurd (List.take_prefix _ _) (hd.noCodeword _ _ hw)
    | invalid _ hu _ _ => exact absurd hd.short (Nat.not_lt.mpr hu)
  · exact ⟨rfl, hd.writes.mem.trans hd'.writes.mem.symm,
      hd.writes.outcnt.trans hd'.writes.outcnt.symm, fun sym hsym => by simp at hsym⟩

end Decode

end BBoot.Inflate
