import BBoot.Inflate.Format

/-!
# Decoding the tokens of a block

`codes` decodes tokens and writes what they stand for until the end-of-block symbol.
One direction follows the bits of given tokens, the other follows the loop and
collects the tokens it has decoded.

Results:
* `codes_returns`: where the input begins with the bits of tokens whose expansion
  fits, `codes` returns `0` and has written it.
* `codes_full`: where the expansion does not fit, `codes` returns `1`.
* `codes_ends`: for every input `codes` comes to an end inside its buffers, and if
  it returns `0`, the input began with the bits of tokens whose expansion was
  written.
-/

namespace BBoot.Inflate

open PuffM Canonical

section Codes

variable {c : Call} {room : ℕ} {s : State} {u : List Bool} {o : List Byte}

/-! ## Output of a token -/

/-- Counting without writing, as in scanning mode. -/
theorem Holds.count (h : Holds c room s u o) (h0 : c.dest = 0) {o' : List Byte}
    (ho : o'.length ≤ room) {n : Word} (hn : n = BitVec.ofNat 32 o'.length) :
    Holds c room { s with outcnt := n } u o' := by
  refine ⟨⟨h.out, h.outlen, h.inp, h.inlen, h.incnt_le, ?_, hn, ho⟩, h.bitcnt_lt, h.bitbuf_lt, h.unread⟩
  rw [h.mem, Call.after, Call.after, if_pos h0, if_pos h0]

theorem ofNat_add_length (o : List Byte) (n : ℕ) :
    BitVec.ofNat 32 o.length + BitVec.ofNat 32 n = BitVec.ofNat 32 (o.length + n) :=
  (BitVec.ofNat_add _ _).symm

/-- A literal for which there is room. -/
theorem literal_returns (hc : c.Fits room) (h : Holds c room s u o) (ho : o.length < room) (b : Byte)
    {L : State → Prop} :
    Ends (literal b.toNat) s (fun e s' => e = 0 ∧ Holds c room s' u (o ++ [b])) L := by
  have hcnt := h.outcnt_toNat hc
  unfold literal
  apply ends_bind_get
  rw [h.out]
  by_cases h0 : c.dest = 0
  · rw [if_neg (not_not.mpr h0)]
    apply ends_bind_modify
    apply ends_pure
    refine ⟨rfl, h.count h0 (by simpa using ho) ?_⟩
    rw [h.outcnt, List.length_append, List.length_singleton, ofNat_succ]
  · have hlen := hc.destlen h0
    have hne : s.outcnt ≠ s.outlen := by
      rw [h.outlen]
      intro heq
      rw [heq] at hcnt
      omega
    rw [if_pos h0, if_neg hne, BitVec.ofNat_toNat, BitVec.setWidth_eq]
    refine ends_bind (putOut_ends hc h0 h ho b) fun _ s' hs => ?_
    exact ends_pure ⟨rfl, hs⟩

/-- A copy for which there is room. -/
theorem copyBack_ends (hc : c.Fits room) (h0 : c.dest ≠ 0) {dist n : ℕ} (h : Holds c room s u o)
    (hpos : 1 ≤ dist) (hdist : dist ≤ o.length) (ho : o.length + n ≤ room) {L : State → Prop} :
    Ends (copyBack dist n) s (fun _ s' => Holds c room s' u (copyMatch dist n o)) L := by
  induction n generalizing s o with
  | zero => exact ends_pure h
  | succ n ih =>
    unfold copyBack
    refine ends_bind (backOut_ends hc h0 h.toWrites hpos hdist) ?_
    rintro b s' ⟨rfl, rfl⟩
    refine ends_bind (putOut_ends hc h0 h (by omega) _) fun _ s' hs => ?_
    exact ih hs (by rw [List.length_append]; omega) (by simp; omega)

/-! ## Lengths and distances -/

/-- Whether a distance reaches back too far. -/
theorem distance_gt_iff (hc : c.Fits room) (h : Writes c room s o) {dist : ℕ} (hdist : dist < 2 ^ 32) :
    BitVec.ofNat 32 dist > s.outcnt ↔ o.length < dist := by
  show s.outcnt.toNat < (BitVec.ofNat 32 dist).toNat ↔ _
  rw [h.outcnt_toNat hc, BitVec.toNat_ofNat, Nat.mod_eq_of_lt hdist]

/-- Whether there is no room for `n` more bytes. -/
theorem room_gt_iff (h : Writes c room s o) {n : ℕ}
    (hn : o.length + n < 2 ^ 32) :
    s.outcnt + BitVec.ofNat 32 n > s.outlen ↔ c.destlen.toNat < o.length + n := by
  show s.outlen.toNat < (s.outcnt + BitVec.ofNat 32 n).toNat ↔ _
  rw [h.outlen, h.outcnt, ofNat_add_length, BitVec.toNat_ofNat, Nat.mod_eq_of_lt hn]

/-- A copy for which there is room. -/
theorem copy_returns (hc : c.Fits room) {len dist : ℕ} (h : Holds c room s u o) (hpos : 1 ≤ dist)
    (hmax : dist ≤ 32768) (hback : dist ≤ o.length) (hroom : o.length + len ≤ room)
    {L : State → Prop} :
    Ends (copy len dist) s (fun e s' => e = 0 ∧ Holds c room s' u (copyMatch dist len o)) L := by
  have hlt := hc.room_lt
  unfold copy
  apply ends_bind_get
  rw [if_neg ((distance_gt_iff hc h.toWrites (by omega)).not.mpr (by omega)), h.out]
  by_cases h0 : c.dest = 0
  · rw [if_neg (not_not.mpr h0)]
    apply ends_bind_modify
    apply ends_pure
    refine ⟨rfl, h.count h0 (by rw [copyMatch_length]; exact hroom) ?_⟩
    rw [h.outcnt, ofNat_add_length, copyMatch_length]
  · have hlen := hc.destlen h0
    rw [if_pos h0, if_neg ((room_gt_iff h.toWrites (by omega)).not.mpr (by omega))]
    refine ends_bind (copyBack_ends hc h0 h hpos hback hroom) fun _ s' hs => ?_
    exact ends_pure ⟨rfl, hs⟩

/-- A length and distance pair is decoded, and copied from back there. -/
theorem lengthDistance_spells (hc : c.Fits room) {D : List ℕ} {distcode : Huffman}
    (hD : Table D distcode) {i len dist : ℕ} {v v' : List Bool} (hcopy : CopySpells D i len dist v)
    {symbol : ℕ} (hsymbol : symbol = 257 + i) (h : Holds c room s (v ++ v') o)
    {Q : ℤ → State → Prop} {L : State → Prop}
    (hnext : ∀ s', Holds c room s' v' o → Ends (copy len dist) s' Q L) :
    Ends (lengthDistance distcode symbol) s Q L := by
  obtain ⟨hi, -, hpos, hmax⟩ := hcopy.bounds
  obtain ⟨hlen, hx, hw, hdist, hy⟩ := hcopy
  rw [List.append_assoc, List.append_assoc] at h
  unfold lengthDistance
  dsimp only
  rw [show symbol - 257 = i by omega, if_neg (by omega)]
  apply ends_bind_checked hlen
  apply ends_bind_checked hx
  refine ends_bind (bits_returns hc h rfl) ?_
  rintro a s₁ ⟨rfl, h₁⟩
  refine ends_bind (decode_returns hc hD hw h₁) ?_
  rintro a s₂ ⟨rfl, h₂⟩
  rw [if_neg (by omega), Int.toNat_natCast]
  apply ends_bind_checked hdist
  apply ends_bind_checked hy
  refine ends_bind (bits_returns hc h₂ rfl) ?_
  rintro a s₃ ⟨rfl, h₃⟩
  exact hnext s₃ h₃

/-- **Tokens that fit are decoded**: `codes` expands them up to the end-of-block symbol. -/
theorem codesLoop_returns (hc : c.Fits room) {L D : List ℕ} {lencode distcode : Huffman}
    (hL : Table L lencode) (hD : Table D distcode) {toks : List Token} {w v : List Bool}
    (hspells : Spells L D toks w) {o' : List Byte} (h : Holds c room s (w ++ v) o)
    (hexpand : expand toks o = some o') (hroom : o'.length ≤ room) {fuel : ℕ}
    (hfuel : toks.length < fuel) {R : State → Prop} :
    Ends (codesLoop lencode distcode fuel) s (fun e s' => e = 0 ∧ Holds c room s' v o') R := by
  induction hspells generalizing s o fuel with
  | done hw =>
    obtain ⟨fuel, rfl⟩ := Nat.exists_eq_add_of_le' (Nat.one_le_of_lt hfuel)
    obtain rfl := Option.some.inj hexpand
    unfold codesLoop
    refine ends_bind (decode_returns hc hL hw h) ?_
    rintro a s' ⟨rfl, hs⟩
    rw [if_neg (by norm_num), if_neg (by norm_num), if_neg (by norm_num)]
    exact ends_pure ⟨rfl, hs⟩
  | @literal b w u toks hw _ ih =>
    obtain ⟨fuel, rfl⟩ := Nat.exists_eq_add_of_le' (Nat.one_le_of_lt hfuel)
    rw [expand_cons, Token.apply, Option.bind_some] at hexpand
    have hb := b.isLt
    have hle := (expand_extends hexpand).length_le
    rw [List.length_append, List.length_singleton] at hle
    rw [List.append_assoc] at h
    unfold codesLoop
    refine ends_bind (decode_returns hc hL hw h) ?_
    rintro a s' ⟨rfl, hs⟩
    rw [if_neg (by omega), if_pos (by omega), Int.toNat_natCast]
    refine ends_bind (literal_returns hc hs (by omega) b) ?_
    rintro e s'' ⟨rfl, hs'⟩
    rw [if_neg (not_not.mpr rfl)]
    exact ih hs' hexpand (by simpa using hfuel)
  | @copy i len dist w v' u toks hw hcopy _ ih =>
    obtain ⟨fuel, rfl⟩ := Nat.exists_eq_add_of_le' (Nat.one_le_of_lt hfuel)
    have hi := hcopy.bounds.1
    obtain ⟨o₁, happly, hexpand⟩ := Option.bind_eq_some_iff.mp hexpand
    obtain ⟨hback, rfl⟩ := Token.apply_copy happly
    have hle := (expand_extends hexpand).length_le
    rw [copyMatch_length] at hle
    rw [List.append_assoc, List.append_assoc] at h
    obtain ⟨symbol, hsymbol⟩ : ∃ symbol, symbol = 257 + i := ⟨_, rfl⟩
    rw [← hsymbol] at hw
    unfold codesLoop
    refine ends_bind (decode_returns hc hL hw h) ?_
    rintro a s' ⟨rfl, hs⟩
    rw [if_neg (by omega), if_neg (by omega), if_pos (by omega), Int.toNat_natCast]
    have hpos := hcopy.bounds.2.2
    refine ends_bind (lengthDistance_spells hc hD hcopy hsymbol hs fun s₁ h₁ =>
      copy_returns hc h₁ hpos.1 hpos.2 hback (hle.trans hroom)) ?_
    rintro e s'' ⟨rfl, hs'⟩
    rw [if_neg (not_not.mpr rfl)]
    exact ih hs' hexpand (by simpa using hfuel)

/-! ## Every run -/

/-- A literal, whether there is room or not. -/
theorem literal_ends (hi : c.Inflates) (h : Holds c c.destlen.toNat s u o) (symbol : ℕ)
    {L : State → Prop} :
    Ends (literal symbol) s (fun e s' => Stopped c c.destlen.toNat s' ∧
      (e = 0 → Holds c c.destlen.toNat s' u (o ++ [BitVec.ofNat 8 symbol]))) L := by
  have hcnt := h.outcnt_toNat hi.fits
  have hroom := h.room
  unfold literal
  apply ends_bind_get
  rw [h.out, if_pos hi.dest]
  split_ifs with hfull
  · exact ends_pure ⟨h.stopped, fun he => absurd he (by norm_num)⟩
  · rw [h.outlen] at hfull
    have hlt : o.length < c.destlen.toNat := by
      have := BitVec.toNat_ne.mp hfull
      omega
    refine ends_bind (putOut_ends hi.fits hi.dest h hlt _) fun _ s' hs => ?_
    exact ends_pure ⟨hs.stopped, fun _ => hs⟩

/-- A copy, whether it reaches back too far and whether there is room or not. -/
theorem copy_ends (hi : c.Inflates) {len dist : ℕ} (h : Holds c c.destlen.toNat s u o)
    (hlen : len ≤ 258) (hpos : 1 ≤ dist) (hmax : dist ≤ 32768) {L : State → Prop} :
    Ends (copy len dist) s (fun e s' => Stopped c c.destlen.toNat s' ∧
      (e = 0 → dist ≤ o.length ∧ Holds c c.destlen.toNat s' u (copyMatch dist len o))) L := by
  have hc := hi.fits
  have hroom := h.room
  have hdestlen := hi.destlen
  unfold copy
  apply ends_bind_get
  by_cases hfar : o.length < dist
  · rw [if_pos ((distance_gt_iff hc h.toWrites (by omega)).mpr hfar)]
    exact ends_pure ⟨h.stopped, fun he => absurd he (by norm_num)⟩
  rw [if_neg ((distance_gt_iff hc h.toWrites (by omega)).not.mpr hfar), h.out, if_pos hi.dest]
  by_cases hfull : c.destlen.toNat < o.length + len
  · rw [if_pos ((room_gt_iff h.toWrites (by omega)).mpr hfull)]
    exact ends_pure ⟨h.stopped, fun he => absurd he (by norm_num)⟩
  rw [if_neg ((room_gt_iff h.toWrites (by omega)).not.mpr hfull)]
  refine ends_bind (copyBack_ends hc hi.dest h hpos (Nat.not_lt.mp hfar)
    (Nat.not_lt.mp hfull)) fun _ s' hs => ?_
  exact ends_pure ⟨hs.stopped, fun _ => ⟨Nat.not_lt.mp hfar, hs⟩⟩

/-- A length and distance pair, whatever the input. -/
theorem lengthDistance_ends (hi : c.Inflates) {D : List ℕ} {distcode : Huffman}
    (hD : Table D distcode) (hlen : D.length ≤ maxDCodes) {symbol : ℕ} (hsymbol : 257 ≤ symbol)
    (h : Holds c c.destlen.toNat s u o) :
    Ends (lengthDistance distcode symbol) s (fun e s' => Stopped c c.destlen.toNat s' ∧
        (e = 0 → ∃ i len dist v v', symbol = 257 + i ∧ CopySpells D i len dist v ∧ u = v ++ v' ∧
          dist ≤ o.length ∧ Holds c c.destlen.toNat s' v' (copyMatch dist len o)))
      (Stopped c c.destlen.toNat) := by
  have hc := hi.fits
  unfold lengthDistance
  dsimp only
  obtain ⟨i, rfl⟩ := Nat.exists_eq_add_of_le hsymbol
  obtain ⟨k, hk⟩ : ∃ k, k = 257 + i := ⟨_, rfl⟩
  rw [← hk, show k - 257 = i by omega]
  by_cases hbad : i ≥ 29
  · rw [if_pos hbad]
    exact ends_pure ⟨h.stopped, fun he => absurd he (by norm_num)⟩
  rw [if_neg hbad]
  have hi29 : i < 29 := Nat.not_le.mp hbad
  obtain ⟨len, hlens⟩ : ∃ len, lens[i]? = some len := ⟨_, List.getElem?_eq_getElem hi29⟩
  obtain ⟨n, hlext⟩ : ∃ n, lext[i]? = some n := ⟨_, List.getElem?_eq_getElem hi29⟩
  apply ends_bind_checked hlens
  apply ends_bind_checked hlext
  refine ends_bind (ends_conseq (bits_ends hc h n) (fun _ _ hQ => hQ) fun _ hL => hL.2.stopped) ?_
  rintro a s₁ ⟨rfl, hx, h₁⟩
  refine ends_bind (ends_conseq (decode_ends hc hD h₁) (fun _ _ hQ => hQ)
    fun _ hL => hL.writes.stopped) ?_
  rintro a s₂ (@⟨j, l, _, hw, hl, h₂⟩ | ⟨-, -, h₂, -⟩)
  · rw [if_neg (by omega), Int.toNat_natCast]
    have hj30 : j < 30 := (codeword_lt_length hw).trans_le hlen
    obtain ⟨dist, hdists⟩ : ∃ dist, dists[j]? = some dist := ⟨_, List.getElem?_eq_getElem hj30⟩
    obtain ⟨m, hdext⟩ : ∃ m, dext[j]? = some m := ⟨_, List.getElem?_eq_getElem hj30⟩
    apply ends_bind_checked hdists
    apply ends_bind_checked hdext
    refine ends_bind (ends_conseq (bits_ends hc h₂ m) (fun _ _ hQ => hQ)
      fun _ hL => hL.2.stopped) ?_
    rintro a s₃ ⟨rfl, hy, h₃⟩
    -- the bits that were taken are those of a length and distance pair
    have hcopy := CopySpells.mk (x := u.take n) (y := ((u.drop n).drop l).take m) hlens
      (by rw [List.length_take, min_eq_left hx, hlext]) hw hdists
      (by rw [List.length_take, min_eq_left hy, hdext])
    obtain ⟨-, hlen258, hpos, hmax⟩ := hcopy.bounds
    have hsplit : u = u.take n ++ ((u.drop n).take l ++ ((u.drop n).drop l).take m) ++
        ((u.drop n).drop l).drop m := by
      rw [List.append_assoc, List.append_assoc, List.take_append_drop, List.take_append_drop,
        List.take_append_drop]
    refine ends_conseq (copy_ends hi h₃ hlen258 hpos hmax) ?_ fun _ hL => hL
    rintro e s' ⟨hstop, hzero⟩
    refine ⟨hstop, fun he => ?_⟩
    obtain ⟨hback, hs⟩ := hzero he
    exact ⟨i, _, _, _, _, hk, hcopy, hsplit, hback, hs⟩
  · rw [if_pos (by norm_num)]
    exact ends_pure ⟨h₂.stopped, fun he => absurd he (by norm_num)⟩

/-- **Every run of `codes`** comes to an end, and what it has decoded when it returns `0` are
    tokens. -/
theorem codesLoop_ends (hi : c.Inflates) {L D : List ℕ} {lencode distcode : Huffman}
    (hL : Table L lencode) (hD : Table D distcode) (hlen : D.length ≤ maxDCodes) {fuel : ℕ}
    (hfuel : u.length < fuel) (h : Holds c c.destlen.toNat s u o) :
    Ends (codesLoop lencode distcode fuel) s (fun e s' => Stopped c c.destlen.toNat s' ∧
        (e = 0 → ∃ toks w v o', u = w ++ v ∧ Spells L D toks w ∧ expand toks o = some o' ∧
          Holds c c.destlen.toNat s' v o'))
      (Stopped c c.destlen.toNat) := by
  induction fuel generalizing s u o with
  | zero => omega
  | succ fuel ih =>
    unfold codesLoop
    refine ends_bind (ends_conseq (decode_ends hi.fits hL h) (fun _ _ hQ => hQ)
      fun _ hL => hL.writes.stopped) ?_
    rintro a s₁ (@⟨sym, l, _, hw, hl, h₁⟩ | ⟨-, -, h₁, -⟩)
    · have hsplit := List.take_append_drop l u
      have hshort : (u.drop l).length < fuel := by
        have hpos := List.length_pos_of_ne_nil (codeword_ne_nil hw)
        rw [List.length_take] at hpos
        rw [List.length_drop]
        omega
      rw [if_neg (by omega), Int.toNat_natCast]
      rcases Nat.lt_trichotomy sym 256 with hlt | heq | hgt
      · rw [if_pos (by exact_mod_cast hlt)]
        refine ends_bind (literal_ends hi h₁ sym) ?_
        rintro e s₂ ⟨hstop, hzero⟩
        by_cases he : e = 0
        · rw [if_neg (not_not.mpr he)]
          refine ends_conseq (ih hshort (hzero he)) ?_ fun _ hL => hL
          rintro e' s₃ ⟨hstop', hdone⟩
          refine ⟨hstop', fun he' => ?_⟩
          obtain ⟨toks, w, v, o', hu, hspells, hexpand, hs⟩ := hdone he'
          have hb : (BitVec.ofNat 8 sym : Byte).toNat = sym := by
            rw [BitVec.toNat_ofNat, Nat.mod_eq_of_lt hlt]
          refine ⟨.literal (BitVec.ofNat 8 sym) :: toks, u.take l ++ w, v, o', ?_,
            .literal (by rwa [hb]) hspells, hexpand, hs⟩
          rw [List.append_assoc, ← hu, hsplit]
        · rw [if_pos he]
          exact ends_pure ⟨hstop, fun he' => absurd he' he⟩
      · subst heq
        rw [if_neg (by norm_num), if_neg (by norm_num)]
        exact ends_pure ⟨h₁.stopped, fun _ => ⟨[], _, _, o, hsplit.symm, .done hw, rfl, h₁⟩⟩
      · rw [if_neg (by omega), if_pos (by exact_mod_cast hgt)]
        refine ends_bind (lengthDistance_ends hi hD hlen hgt h₁) ?_
        rintro e s₂ ⟨hstop, hzero⟩
        by_cases he : e = 0
        · rw [if_neg (not_not.mpr he)]
          obtain ⟨i, len, dist, v, v', rfl, hcopy, hv, hback, h₂⟩ := hzero he
          have hshort' : v'.length < fuel := by
            rw [hv, List.length_append] at hshort
            omega
          refine ends_conseq (ih hshort' h₂) ?_ fun _ hL => hL
          rintro e' s₃ ⟨hstop', hdone⟩
          refine ⟨hstop', fun he' => ?_⟩
          obtain ⟨toks, w, v'', o', hu, hspells, hexpand, hs⟩ := hdone he'
          refine ⟨.copy len dist :: toks, u.take l ++ (v ++ w), v'', o', ?_,
            .copy hw hcopy hspells, ?_, hs⟩
          · rw [List.append_assoc, List.append_assoc, ← hu, ← hv, hsplit]
          · rw [expand_cons, Token.apply, if_pos hback, Option.bind_some, hexpand]
        · rw [if_pos he]
          exact ends_pure ⟨hstop, fun he' => absurd he' he⟩
    · rw [if_pos (by norm_num)]
      exact ends_pure ⟨h₁.stopped, fun he => absurd he (by norm_num)⟩

/-! ## Tokens that do not fit -/

/-- A literal for which there is no room. -/
theorem literal_full (hi : c.Inflates) (h : Holds c c.destlen.toNat s u o)
    (ho : o.length = c.destlen.toNat) (symbol : ℕ) {L : State → Prop} :
    Ends (literal symbol) s (fun e s' => e = 1 ∧ Stopped c c.destlen.toNat s') L := by
  unfold literal
  apply ends_bind_get
  have hfull : s.outcnt = s.outlen := by
    rw [h.outlen]
    exact BitVec.eq_of_toNat_eq ((h.outcnt_toNat hi.fits).trans ho)
  rw [h.out, if_pos hi.dest, if_pos hfull]
  exact ends_pure ⟨rfl, h.stopped⟩

/-- A copy for which there is no room. -/
theorem copy_full (hi : c.Inflates) {len dist : ℕ} (h : Holds c c.destlen.toNat s u o)
    (hlen : len ≤ 258) (hmax : dist ≤ 32768) (hback : dist ≤ o.length)
    (hfull : c.destlen.toNat < o.length + len) {L : State → Prop} :
    Ends (copy len dist) s (fun e s' => e = 1 ∧ Stopped c c.destlen.toNat s') L := by
  have hroom := h.room
  have hdestlen := hi.destlen
  unfold copy
  apply ends_bind_get
  rw [if_neg ((distance_gt_iff hi.fits h.toWrites (by omega)).not.mpr (by omega)), h.out,
    if_pos hi.dest, if_pos ((room_gt_iff h.toWrites (by omega)).mpr hfull)]
  exact ends_pure ⟨rfl, h.stopped⟩

/-- **Tokens that do not fit** are noticed at the first byte there is no room for. -/
theorem codesLoop_full (hi : c.Inflates) {L D : List ℕ} {lencode distcode : Huffman}
    (hL : Table L lencode) (hD : Table D distcode) {toks : List Token} {w v : List Bool}
    (hspells : Spells L D toks w) {o' : List Byte} (h : Holds c c.destlen.toNat s (w ++ v) o)
    (hexpand : expand toks o = some o') (hfull : c.destlen.toNat < o'.length) {fuel : ℕ}
    (hfuel : toks.length < fuel) {R : State → Prop} :
    Ends (codesLoop lencode distcode fuel) s
      (fun e s' => e = 1 ∧ Stopped c c.destlen.toNat s') R := by
  have hc := hi.fits
  induction hspells generalizing s o fuel with
  | done hw =>
    have hroom := h.room
    rw [expand_nil, Option.some.injEq] at hexpand
    rw [hexpand] at hroom
    omega
  | @literal b w u toks hw _ ih =>
    obtain ⟨fuel, rfl⟩ := Nat.exists_eq_add_of_le' (Nat.one_le_of_lt hfuel)
    rw [expand_cons, Token.apply, Option.bind_some] at hexpand
    have hb := b.isLt
    rw [List.append_assoc] at h
    unfold codesLoop
    refine ends_bind (decode_returns hc hL hw h) ?_
    rintro a s' ⟨rfl, hs⟩
    rw [if_neg (by omega), if_pos (by omega), Int.toNat_natCast]
    rcases hs.room.lt_or_eq with hlt | heq
    · refine ends_bind (literal_returns hc hs hlt b) ?_
      rintro e s'' ⟨rfl, hs'⟩
      rw [if_neg (not_not.mpr rfl)]
      exact ih hs' hexpand (by simpa using hfuel)
    · refine ends_bind (literal_full hi hs heq _) ?_
      rintro e s'' ⟨rfl, hs'⟩
      rw [if_pos (by norm_num)]
      exact ends_pure ⟨rfl, hs'⟩
  | @copy i len dist w v' u toks hw hcopy _ ih =>
    obtain ⟨fuel, rfl⟩ := Nat.exists_eq_add_of_le' (Nat.one_le_of_lt hfuel)
    obtain ⟨hi29, hlen, hpos, hmax⟩ := hcopy.bounds
    obtain ⟨o₁, happly, hexpand⟩ := Option.bind_eq_some_iff.mp hexpand
    obtain ⟨hback, rfl⟩ := Token.apply_copy happly
    rw [List.append_assoc, List.append_assoc] at h
    obtain ⟨symbol, hsymbol⟩ : ∃ symbol, symbol = 257 + i := ⟨_, rfl⟩
    rw [← hsymbol] at hw
    unfold codesLoop
    refine ends_bind (decode_returns hc hL hw h) ?_
    rintro a s' ⟨rfl, hs⟩
    rw [if_neg (by omega), if_neg (by omega), if_pos (by omega), Int.toNat_natCast]
    by_cases hfit : o.length + len ≤ c.destlen.toNat
    · refine ends_bind (lengthDistance_spells hc hD hcopy hsymbol hs fun s₁ h₁ =>
        copy_returns hc h₁ hpos hmax hback hfit) ?_
      rintro e s'' ⟨rfl, hs'⟩
      rw [if_neg (not_not.mpr rfl)]
      exact ih hs' hexpand (by simpa using hfuel)
    · refine ends_bind (lengthDistance_spells hc hD hcopy hsymbol hs fun s₁ h₁ =>
        copy_full hi h₁ hlen hmax hback (Nat.not_le.mp hfit)) ?_
      rintro e s'' ⟨rfl, hs'⟩
      rw [if_pos (by norm_num)]
      exact ends_pure ⟨rfl, hs'⟩

/-! ## The passes of the loop -/

/-- Every token takes a bit, and so does the end-of-block symbol. -/
theorem Spells.length_lt {L D : List ℕ} {toks : List Token} {w : List Bool} (h : Spells L D toks w) :
    toks.length < w.length := by
  induction h with
  | done hw => exact List.length_pos_of_ne_nil (codeword_ne_nil hw)
  | literal hw _ ih =>
    have := List.length_pos_of_ne_nil (codeword_ne_nil hw)
    rw [List.length_cons, List.length_append]
    omega
  | copy hw _ _ ih =>
    have := List.length_pos_of_ne_nil (codeword_ne_nil hw)
    rw [List.length_cons, List.length_append, List.length_append]
    omega

/-- The passes of the loops suffice for all bits. -/
theorem Holds.length_lt (h : Holds c room s u o) : u.length < 8 * c.sourcelen.toNat + 8 := by
  have := h.length
  have := h.bitcnt_lt
  omega

theorem codes_returns (hc : c.Fits room) {L D : List ℕ} {lencode distcode : Huffman}
    (hL : Table L lencode) (hD : Table D distcode) {toks : List Token} {w v : List Bool}
    (hspells : Spells L D toks w) {o' : List Byte} (h : Holds c room s (w ++ v) o)
    (hexpand : expand toks o = some o') (hroom : o'.length ≤ room) {R : State → Prop} :
    Ends (codes lencode distcode) s (fun e s' => e = 0 ∧ Holds c room s' v o') R := by
  have hlt := hspells.length_lt
  have hlen := h.length_lt
  rw [List.length_append] at hlen
  unfold codes
  apply ends_bind_get
  exact codesLoop_returns hc hL hD hspells h hexpand hroom (by rw [h.inlen]; omega)

theorem codes_full (hi : c.Inflates) {L D : List ℕ} {lencode distcode : Huffman}
    (hL : Table L lencode) (hD : Table D distcode) {toks : List Token} {w v : List Bool}
    (hspells : Spells L D toks w) {o' : List Byte} (h : Holds c c.destlen.toNat s (w ++ v) o)
    (hexpand : expand toks o = some o') (hfull : c.destlen.toNat < o'.length) {R : State → Prop} :
    Ends (codes lencode distcode) s (fun e s' => e = 1 ∧ Stopped c c.destlen.toNat s') R := by
  have hlt := hspells.length_lt
  have hlen := h.length_lt
  rw [List.length_append] at hlen
  unfold codes
  apply ends_bind_get
  exact codesLoop_full hi hL hD hspells h hexpand hfull (by rw [h.inlen]; omega)

theorem codes_ends (hi : c.Inflates) {L D : List ℕ} {lencode distcode : Huffman}
    (hL : Table L lencode) (hD : Table D distcode) (hlen : D.length ≤ maxDCodes)
    (h : Holds c c.destlen.toNat s u o) :
    Ends (codes lencode distcode) s (fun e s' => Stopped c c.destlen.toNat s' ∧
        (e = 0 → ∃ toks w v o', u = w ++ v ∧ Spells L D toks w ∧ expand toks o = some o' ∧
          Holds c c.destlen.toNat s' v o'))
      (Stopped c c.destlen.toNat) := by
  unfold codes
  apply ends_bind_get
  exact codesLoop_ends hi hL hD hlen (by rw [h.inlen]; exact h.length_lt) h

end Codes

end BBoot.Inflate
