import BBoot.Inflate.Result

/-!
# More input, and other places

Two calls whose inputs begin alike are run side by side. They go the same way until
the shorter input ends, and what they write is the same although their buffers are
in different places. `Alike cut x x'` says this of two programs: they end in the same
way in states that are `Paired`, unless the shorter input has ended, in which case
the first program has stopped or returned a value in `cut`.

Results:
* `puff_extend`: bytes behind the input change the result only if it is `2`, and where
  the input and the buffer are does not matter.
* `puff_truncated`: a stream that is cut short is never accepted, the result is `2`.
-/

namespace BBoot.Inflate

open PuffM BBoot.Zip

/-- The call `c'` has the input of `c`, perhaps with more behind it, and a buffer of the same
    size. -/
structure Extends (c c' : Call) : Prop where
  fits : c.Fits c.destlen.toNat
  fits' : c'.Fits c.destlen.toNat
  dest : c.dest ≠ 0
  dest' : c'.dest ≠ 0
  destlen : c'.destlen = c.destlen
  sourcelen : c.sourcelen ≤ c'.sourcelen
  same : ∀ k < c.sourcelen, c'.mem (c'.source + k) = c.mem (c.source + k)

/-- Two states that stand at the same place and have written the same. -/
structure Paired (c c' : Call) (s s' : State) : Prop where
  writes : ∃ o, Writes c c.destlen.toNat s o ∧ Writes c' c.destlen.toNat s' o
  incnt : s'.incnt = s.incnt
  bitbuf : s'.bitbuf = s.bitbuf
  bitcnt : s'.bitcnt = s.bitcnt

/-- The outcomes of two runs: the same, or the shorter input has ended. -/
inductive Follows (c c' : Call) {α : Type} (cut : α → Prop) :
    Except Stop α × State → Except Stop α × State → Prop
  | same {r : Except Stop α} {s s' : State} (h : Paired c c' s s') : Follows c c' cut (r, s) (r, s')
  | stopped {e : Stop} {s : State} {y : Except Stop α × State} (hlt : c.sourcelen < c'.sourcelen) :
      Follows c c' cut (.error e, s) y
  | cut {a : α} {s : State} {y : Except Stop α × State} (hlt : c.sourcelen < c'.sourcelen)
      (ha : cut a) : Follows c c' cut (.ok a, s) y

/-- No value says that the input has ended. -/
def never {α : Type} : α → Prop := fun _ => False

/-- Two programs go the same way. -/
def Alike (c c' : Call) {α : Type} (cut : α → Prop) (x x' : PuffM α) : Prop :=
  ∀ s s', Paired c c' s s' → Follows c c' cut (x s) (x' s')

section Extend

variable {c c' : Call} {s s' : State} {α β : Type} {cut : α → Prop}

/-! ## Rules -/

theorem alike_pure (a : α) : Alike c c' cut (pure a) (pure a) := fun _ _ h => .same h

theorem alike_stop (e : Stop) : Alike c c' cut (stop e : PuffM α) (stop e) := fun _ _ h => .same h

theorem alike_checked (a : Option α) : Alike c c' cut (checked a) (checked a) := by
  cases a with
  | none => exact alike_stop _
  | some a => exact alike_pure a

theorem alike_modify {f f' : State → State}
    (h : ∀ s s', Paired c c' s s' → Paired c c' (f s) (f' s')) {cut : Unit → Prop} :
    Alike c c' cut (modify f) (modify f') := fun s s' hs => .same (h s s' hs)

theorem follows_bind {x x' : PuffM α} {f f' : α → PuffM β} {cut : β → Prop}
    (h : Follows c c' never (x s) (x' s'))
    (hf : ∀ a t t', Paired c c' t t' → Follows c c' cut (f a t) (f' a t')) :
    Follows c c' cut ((x >>= f) s) ((x' >>= f') s') := by
  show Follows c c' cut (PuffM.bind x f s) (PuffM.bind x' f' s')
  unfold PuffM.bind
  generalize x s = y at h
  generalize x' s' = y' at h
  cases h with
  | same hs =>
    rename_i r t t'
    cases r with
    | ok a => exact hf a t t' hs
    | error e => exact .same hs
  | stopped hlt => exact .stopped hlt
  | cut _ ha => exact ha.elim

/-- The rule for sequences. -/
theorem alike_bind {x x' : PuffM α} {f f' : α → PuffM β} {cut : β → Prop}
    (h : Alike c c' never x x') (hf : ∀ a, Alike c c' cut (f a) (f' a)) :
    Alike c c' cut (x >>= f) (x' >>= f') := fun s s' hs => follows_bind (h s s' hs) fun a => hf a

/-- Sequences that begin with a look at the state. -/
theorem follows_get {f f' : State → PuffM α} (h : Follows c c' cut (f s s) (f' s' s')) :
    Follows c c' cut ((get >>= f) s) ((get >>= f') s') := h

theorem alike_get {f f' : State → PuffM α}
    (h : ∀ s s', Paired c c' s s' → Follows c c' cut (f s s) (f' s' s')) :
    Alike c c' cut (get >>= f) (get >>= f') := h

theorem Alike.mono {x x' : PuffM α} (h : Alike c c' never x x') : Alike c c' cut x x' := by
  intro s s' hs
  have hrun := h s s' hs
  generalize x s = y at hrun ⊢
  generalize x' s' = y' at hrun ⊢
  cases hrun with
  | same ht => exact .same ht
  | stopped hlt => exact .stopped hlt
  | cut _ ha => exact ha.elim

/-! ## Input and output -/

/-- Either both inputs have ended, or only the shorter one, or none. -/
theorem Paired.atEnd (he : Extends c c') (h : Paired c c' s s') :
    (s.incnt = s.inlen ∧ s'.incnt = s'.inlen ∧ c.sourcelen = c'.sourcelen) ∨
      (s.incnt = s.inlen ∧ c.sourcelen < c'.sourcelen) ∨
      (s.incnt ≠ s.inlen ∧ s'.incnt ≠ s'.inlen ∧ s.incnt < c.sourcelen) := by
  obtain ⟨o, hs, hs'⟩ := h.writes
  have hle := hs.incnt_le
  have hlen := he.sourcelen
  rw [h.incnt, hs.inlen, hs'.inlen]
  bv_omega

theorem nextIn_alike (he : Extends c c') : Alike c c' never nextIn nextIn := by
  refine alike_get fun s s' h => ?_
  obtain ⟨o, hs, hs'⟩ := h.writes
  have hlen := he.sourcelen
  by_cases hin : s.incnt < c.sourcelen
  · have hin' : s.incnt < c'.sourcelen := by bv_omega
    have hbyte : s'.mem (s'.inp + s'.incnt) = s.mem (s.inp + s.incnt) := by
      rw [h.incnt, hs.input he.fits hin, hs'.input he.fits' hin', he.same _ hin]
    rw [if_pos (by rw [hs.inlen]; exact hin), if_pos (by rw [hs'.inlen, h.incnt]; exact hin'), hbyte]
    refine .same ⟨⟨o, hs.incnt_succ hin s.bitcnt, ?_⟩, congrArg (· + 1) h.incnt, h.bitbuf, h.bitcnt⟩
    exact hs'.incnt_succ (by rw [h.incnt]; exact hin') s'.bitcnt
  · rw [if_neg (by rw [hs.inlen]; exact hin)]
    by_cases heq : c.sourcelen = c'.sourcelen
    · rw [if_neg (by rw [hs'.inlen, h.incnt, ← heq]; exact hin)]
      exact .same h
    · exact .stopped (by bv_omega)

theorem putOut_alike (he : Extends c c') (b : Byte) : Alike c c' never (putOut b) (putOut b) := by
  refine alike_get fun s s' h => ?_
  obtain ⟨o, hs, hs'⟩ := h.writes
  have hcnt : s'.outcnt = s.outcnt := hs'.outcnt.trans hs.outcnt.symm
  have hlen : s'.outlen = s.outlen := by rw [hs'.outlen, hs.outlen, he.destlen]
  rw [hcnt, hlen]
  by_cases hlt : s.outcnt < s.outlen
  · have hroom : o.length < c.destlen.toNat := by
      rw [← hs.outcnt_toNat he.fits, ← hs.outlen]
      exact hlt
    rw [if_pos hlt]
    refine .same ⟨⟨o ++ [b], ?_, ?_⟩, h.incnt, h.bitbuf, h.bitcnt⟩
    · exact hs.put he.fits he.dest hroom b
    · exact hs'.put he.fits' he.dest' hroom b
  · rw [if_neg hlt]
    exact .same h

theorem backOut_alike (he : Extends c c') (dist : ℕ) :
    Alike c c' never (backOut dist) (backOut dist) := by
  refine alike_get fun s s' h => ?_
  obtain ⟨o, hs, hs'⟩ := h.writes
  have hcnt : s'.outcnt = s.outcnt := hs'.outcnt.trans hs.outcnt.symm
  rw [hcnt]
  by_cases hlt : s.outcnt - BitVec.ofNat 32 dist < s.outcnt
  · rw [if_pos hlt, if_pos hlt, hs.output he.fits he.dest hlt,
      hs'.output he.fits' he.dest' (by rw [hcnt]; exact hlt)]
    exact .same h
  · rw [if_neg hlt, if_neg hlt]
    exact .same h

/-- The same bits in both buffers. -/
theorem Paired.buffer (h : Paired c c' s s') {b b' n n' : ℕ} (hb : b' = b) (hn : n' = n) :
    Paired c c' { s with bitbuf := b, bitcnt := n } { s' with bitbuf := b', bitcnt := n' } := by
  obtain ⟨o, hs, hs'⟩ := h.writes
  exact ⟨⟨o, ⟨hs.out, hs.outlen, hs.inp, hs.inlen, hs.incnt_le, hs.mem, hs.outcnt, hs.room⟩,
    ⟨hs'.out, hs'.outlen, hs'.inp, hs'.inlen, hs'.incnt_le, hs'.mem, hs'.outcnt, hs'.room⟩⟩,
    h.incnt, hb, hn⟩

theorem bitsLoop_alike (he : Extends c c') (need fuel val : ℕ) :
    Alike c c' never (bitsLoop need fuel val) (bitsLoop need fuel val) := by
  induction fuel generalizing val with
  | zero => exact alike_stop _
  | succ fuel ih =>
    unfold bitsLoop
    refine alike_get fun s s' h => ?_
    rw [h.bitcnt]
    by_cases hneed : s.bitcnt < need
    · rw [if_pos hneed, if_pos hneed]
      obtain ⟨hend, hend', -⟩ | ⟨hend, hlt⟩ | ⟨hin, hin', -⟩ := h.atEnd he
      · rw [if_pos hend, if_pos hend']
        exact .same h
      · rw [if_pos hend]
        exact .stopped hlt
      · rw [if_neg hin, if_neg hin']
        refine follows_bind (nextIn_alike he s s' h) fun b t t' ht => ?_
        refine follows_bind (alike_modify ?_ t t' ht) fun _ => ih _
        exact fun s s' h => h.buffer h.bitbuf (congrArg (· + 8) h.bitcnt)
    · rw [if_neg hneed, if_neg hneed]
      exact .same h

theorem bits_alike (he : Extends c c') (need : ℕ) : Alike c c' never (bits need) (bits need) := by
  unfold bits
  refine alike_get fun s s' h => ?_
  rw [h.bitbuf]
  refine follows_bind (bitsLoop_alike he need _ _ s s' h) fun val => ?_
  refine alike_bind (alike_modify ?_) fun _ => alike_pure _
  exact fun s s' h => h.buffer rfl (congrArg (· - need) h.bitcnt)

/-! ## Decoding -/

theorem decodeBits_alike (h : Huffman) (left : ℕ) (v : DecodeVars) :
    Alike c c' never (decodeBits h left v) (decodeBits h left v) := by
  induction left generalizing v with
  | zero => exact alike_pure _
  | succ left ih =>
    unfold decodeBits
    refine alike_bind (alike_checked _) fun count => ?_
    split_ifs
    · refine alike_bind (alike_modify ?_) fun _ => alike_bind (alike_checked _) fun _ => alike_pure _
      intro s s' hs
      exact hs.buffer rfl (by rw [hs.bitcnt])
    · exact ih _

theorem decodeLoop_alike (he : Extends c c') (h : Huffman) (fuel left : ℕ) (v : DecodeVars) :
    Alike c c' never (decodeLoop h fuel left v) (decodeLoop h fuel left v) := by
  induction fuel generalizing left v with
  | zero => exact alike_stop _
  | succ fuel ih =>
    unfold decodeLoop
    refine alike_bind (decodeBits_alike h left v) fun r => ?_
    cases r with
    | inr symbol => exact alike_pure _
    | inl v =>
      dsimp only
      by_cases h0 : maxBits + 1 - v.len = 0
      · rw [if_pos h0]
        exact alike_pure _
      rw [if_neg h0]
      refine alike_get fun s s' hs => ?_
      obtain ⟨hend, hend', -⟩ | ⟨hend, hlt⟩ | ⟨hin, hin', -⟩ := hs.atEnd he
      · rw [if_pos hend, if_pos hend']
        exact .same hs
      · rw [if_pos hend]
        exact .stopped hlt
      · rw [if_neg hin, if_neg hin']
        exact follows_bind (nextIn_alike he s s' hs) fun b => ih _ _

theorem decode_alike (he : Extends c c') (h : Huffman) :
    Alike c c' never (decode h) (decode h) := by
  unfold decode
  refine alike_get fun s s' hs => ?_
  rw [hs.bitcnt, hs.bitbuf]
  exact decodeLoop_alike he h _ _ _ s s' hs

/-- The counters and ends of both buffers. -/
theorem Paired.out (he : Extends c c') (h : Paired c c' s s') :
    s'.outcnt = s.outcnt ∧ s'.outlen = s.outlen ∧ s.out ≠ 0 ∧ s'.out ≠ 0 := by
  obtain ⟨o, hs, hs'⟩ := h.writes
  refine ⟨hs'.outcnt.trans hs.outcnt.symm, ?_, ?_, ?_⟩
  · rw [hs'.outlen, hs.outlen, he.destlen]
  · rw [hs.out]
    exact he.dest
  · rw [hs'.out]
    exact he.dest'

theorem literal_alike (he : Extends c c') (symbol : ℕ) :
    Alike c c' never (literal symbol) (literal symbol) := by
  unfold literal
  refine alike_get fun s s' h => ?_
  obtain ⟨hcnt, hlen, h0, h0'⟩ := h.out he
  rw [if_pos h0, if_pos h0', hcnt, hlen]
  by_cases hfull : s.outcnt = s.outlen
  · rw [if_pos hfull]
    exact .same h
  · rw [if_neg hfull]
    exact alike_bind (putOut_alike he _) (fun _ => alike_pure _) s s' h

theorem copyBack_alike (he : Extends c c') (dist n : ℕ) :
    Alike c c' never (copyBack dist n) (copyBack dist n) := by
  induction n with
  | zero => exact alike_pure _
  | succ n ih =>
    unfold copyBack
    exact alike_bind (backOut_alike he dist) fun b => alike_bind (putOut_alike he b) fun _ => ih

theorem copy_alike (he : Extends c c') (len dist : ℕ) :
    Alike c c' never (copy len dist) (copy len dist) := by
  unfold copy
  refine alike_get fun s s' h => ?_
  obtain ⟨hcnt, hlen, h0, h0'⟩ := h.out he
  rw [if_pos h0, if_pos h0', hcnt, hlen]
  split_ifs
  · exact .same h
  · exact .same h
  · exact alike_bind (copyBack_alike he dist len) (fun _ => alike_pure _) s s' h

theorem lengthDistance_alike (he : Extends c c') (distcode : Huffman) (symbol : ℕ) :
    Alike c c' never (lengthDistance distcode symbol) (lengthDistance distcode symbol) := by
  unfold lengthDistance
  dsimp only
  split_ifs
  · exact alike_pure _
  refine alike_bind (alike_checked _) fun len => alike_bind (alike_checked _) fun ext => ?_
  refine alike_bind (bits_alike he ext) fun x => alike_bind (decode_alike he distcode) fun symbol => ?_
  split_ifs
  · exact alike_pure _
  refine alike_bind (alike_checked _) fun dist => alike_bind (alike_checked _) fun ext => ?_
  exact alike_bind (bits_alike he ext) fun y => copy_alike he _ _

/-- The loop of the longer input may take more passes. -/
def Passes (c c' : Call) (fuel fuel' : ℕ) : Prop :=
  fuel = fuel' ∨ c.sourcelen < c'.sourcelen ∧ fuel ≤ fuel'

theorem Passes.succ {fuel fuel' : ℕ} (h : Passes c c' (fuel + 1) fuel') :
    ∃ n, fuel' = n + 1 ∧ Passes c c' fuel n := by
  obtain rfl | ⟨hlt, hle⟩ := h
  · exact ⟨fuel, rfl, .inl rfl⟩
  · obtain ⟨n, rfl⟩ := Nat.exists_eq_add_one.mpr (Nat.zero_lt_of_lt hle)
    exact ⟨n, rfl, .inr ⟨hlt, Nat.le_of_succ_le_succ hle⟩⟩

theorem codesLoop_alike (he : Extends c c') (lencode distcode : Huffman) {fuel fuel' : ℕ}
    (hfuel : Passes c c' fuel fuel') :
    Alike c c' never (codesLoop lencode distcode fuel) (codesLoop lencode distcode fuel') := by
  induction fuel generalizing fuel' with
  | zero =>
    obtain rfl | ⟨hlt, -⟩ := hfuel
    · exact alike_stop _
    · exact fun s s' _ => .stopped hlt
  | succ fuel ih =>
    obtain ⟨fuel', rfl, hrest⟩ := hfuel.succ
    unfold codesLoop
    refine alike_bind (decode_alike he lencode) fun symbol => ?_
    split_ifs
    · exact alike_pure _
    · refine alike_bind (literal_alike he _) fun err => ?_
      split_ifs
      · exact alike_pure _
      · exact ih hrest
    · refine alike_bind (lengthDistance_alike he distcode _) fun err => ?_
      split_ifs
      · exact alike_pure _
      · exact ih hrest
    · exact alike_pure _

/-- The bounds on the passes that the input gives. -/
theorem Extends.passes (he : Extends c c') :
    Passes c c' (8 * c.sourcelen.toNat + 8) (8 * c'.sourcelen.toNat + 8) := by
  have hle : c.sourcelen.toNat ≤ c'.sourcelen.toNat := he.sourcelen
  by_cases heq : c.sourcelen = c'.sourcelen
  · exact .inl (by rw [heq])
  · exact .inr ⟨by bv_omega, by omega⟩

theorem codes_alike (he : Extends c c') (lencode distcode : Huffman) :
    Alike c c' never (codes lencode distcode) (codes lencode distcode) := by
  unfold codes
  refine alike_get fun s s' h => ?_
  obtain ⟨o, hs, hs'⟩ := h.writes
  rw [hs.inlen, hs'.inlen]
  exact codesLoop_alike he lencode distcode he.passes s s' h

/-! ## Blocks -/

theorem readCodeLengths_alike (he : Extends c c') (indices : List ℕ) (lengths : Shorts) :
    Alike c c' never (readCodeLengths indices lengths) (readCodeLengths indices lengths) := by
  induction indices generalizing lengths with
  | nil => exact alike_pure _
  | cons index indices ih =>
    unfold readCodeLengths
    refine alike_bind (bits_alike he 3) fun len => alike_bind (alike_checked _) fun i => ?_
    exact alike_bind (alike_checked _) fun lengths => ih lengths

theorem repeatCount_alike (he : Extends c c') (symbol : ℤ) :
    Alike c c' never (repeatCount symbol) (repeatCount symbol) := by
  unfold repeatCount
  split_ifs <;> exact alike_bind (bits_alike he _) fun n => alike_pure _

theorem readLengths_alike (he : Extends c c') (lencode : Huffman) (total fuel index : ℕ)
    (lengths : Shorts) :
    Alike c c' never (readLengths lencode total fuel index lengths)
      (readLengths lencode total fuel index lengths) := by
  induction fuel generalizing index lengths with
  | zero => exact alike_stop _
  | succ fuel ih =>
    unfold readLengths
    split_ifs
    · refine alike_bind (decode_alike he lencode) fun symbol => ?_
      split_ifs
      · exact alike_pure _
      · exact alike_bind (alike_checked _) fun lengths => ih _ lengths
      · exact alike_pure _
      · refine alike_bind (alike_checked _) fun len => ?_
        refine alike_bind (repeatCount_alike he symbol) fun count => ?_
        split_ifs
        · exact alike_pure _
        · exact alike_bind (alike_checked _) fun lengths => ih _ lengths
    · exact alike_pure _

theorem badCode_alike (err : ℤ) (n : ℕ) (h : Huffman) :
    Alike c c' never (badCode err n h) (badCode err n h) :=
  alike_bind (alike_checked _) fun _ => alike_bind (alike_checked _) fun _ => alike_pure _

theorem dynamicCodes_alike (he : Extends c c') (lencode : Huffman) (nlen ndist : ℕ)
    (lengths : Shorts) :
    Alike c c' never (dynamicCodes lencode nlen ndist lengths)
      (dynamicCodes lencode nlen ndist lengths) := by
  unfold dynamicCodes
  refine alike_bind (alike_checked _) fun l => ?_
  split_ifs
  · exact alike_pure _
  refine alike_bind (alike_checked _) fun r => alike_bind (badCode_alike _ _ _) fun bad => ?_
  split_ifs
  · exact alike_pure _
  refine alike_bind (alike_checked _) fun r' => alike_bind (badCode_alike _ _ _) fun bad => ?_
  split_ifs
  · exact alike_pure _
  · exact codes_alike he _ _

theorem dynamic_alike (he : Extends c c') : Alike c c' never dynamic dynamic := by
  unfold dynamic
  refine alike_bind (bits_alike he 5) fun nlen => alike_bind (bits_alike he 5) fun ndist => ?_
  refine alike_bind (bits_alike he 4) fun ncode => ?_
  dsimp only
  split_ifs
  · exact alike_pure _
  refine alike_bind (readCodeLengths_alike he _ _) fun lengths => ?_
  refine alike_bind (alike_checked _) fun lengths => alike_bind (alike_checked _) fun r => ?_
  split_ifs
  · exact alike_pure _
  refine alike_bind (readLengths_alike he _ _ _ _ _) fun r => ?_
  cases r with
  | inl err => exact alike_pure _
  | inr lengths => exact dynamicCodes_alike he _ _ _ _

theorem fixed_alike (he : Extends c c') : Alike c c' never fixed fixed :=
  alike_bind (alike_checked _) fun _ => codes_alike he _ _

/-- The values that say that the input has ended. -/
def inputEnded (e : ℤ) : Prop := e = 2

theorem copyIn_alike (he : Extends c c') (n : ℕ) : Alike c c' never (copyIn n) (copyIn n) := by
  induction n with
  | zero => exact alike_pure _
  | succ n ih =>
    unfold copyIn
    exact alike_bind (nextIn_alike he) fun b => alike_bind (putOut_alike he b) fun _ => ih

/-- A check that `n` more bytes are there fails for the shorter input or passes for both. -/
theorem follows_check (he : Extends c c') (h : Paired c c' s s') (n : Word) {x x' : PuffM ℤ}
    (hx : Follows c c' inputEnded (x s) (x' s')) :
    Follows c c' inputEnded ((if s.incnt + n > s.inlen then pure 2 else x) s)
      ((if s'.incnt + n > s'.inlen then pure 2 else x') s') := by
  obtain ⟨o, hs, hs'⟩ := h.writes
  have hlen := he.sourcelen
  rw [h.incnt, hs.inlen, hs'.inlen]
  by_cases hin' : s.incnt + n > c'.sourcelen
  · rw [if_pos hin', if_pos (show s.incnt + n > c.sourcelen from Nat.lt_of_le_of_lt hlen hin')]
    exact .same h
  rw [if_neg hin']
  by_cases hin : s.incnt + n > c.sourcelen
  · rw [if_pos hin]
    exact .cut (Nat.lt_of_lt_of_le hin (BitVec.not_lt.mp hin')) rfl
  · rw [if_neg hin]
    exact hx

theorem storedData_alike (he : Extends c c') (len : Word) :
    Alike c c' inputEnded (storedData len) (storedData len) := by
  unfold storedData
  refine alike_get fun s s' h => follows_check he h len ?_
  obtain ⟨hcnt, hlen, h0, h0'⟩ := h.out he
  rw [if_pos h0, if_pos h0', hcnt, hlen]
  split_ifs
  · exact .same h
  · exact alike_bind (copyIn_alike he _) (fun _ => alike_pure _) s s' h

theorem stored_alike (he : Extends c c') : Alike c c' inputEnded stored stored := by
  unfold stored
  refine alike_bind (alike_modify fun s s' h => h.buffer rfl rfl) fun _ => ?_
  refine alike_get fun s s' h => follows_check he h 4 ?_
  refine follows_bind (nextIn_alike he s s' h) fun lo => alike_bind (nextIn_alike he) fun hi => ?_
  refine alike_bind (nextIn_alike he) fun nlo => ?_
  split_ifs
  · exact alike_pure _
  refine alike_bind (nextIn_alike he) fun nhi => ?_
  split_ifs
  · exact alike_pure _
  · exact storedData_alike he _

theorem block_alike (he : Extends c c') (type : ℕ) :
    Alike c c' inputEnded (block type) (block type) := by
  unfold block
  split_ifs
  · exact stored_alike he
  · exact (fixed_alike he).mono
  · exact (dynamic_alike he).mono
  · exact alike_pure _

/-- The rule for an error that is passed on. -/
theorem alike_bind_error {x x' : PuffM ℤ} (h : Alike c c' inputEnded x x') {f f' : PuffM ℤ}
    (hf : Alike c c' inputEnded f f') :
    Alike c c' inputEnded (x >>= fun e => if e ≠ 0 then pure e else f)
      (x' >>= fun e => if e ≠ 0 then pure e else f') := by
  intro s s' hs
  have hrun := h s s' hs
  show Follows c c' inputEnded (PuffM.bind x _ s) (PuffM.bind x' _ s')
  unfold PuffM.bind
  generalize x s = y at hrun
  generalize x' s' = y' at hrun
  cases hrun with
  | same ht =>
    rename_i r t t'
    cases r with
    | error e => exact .same ht
    | ok e =>
      dsimp only
      split_ifs
      · exact .same ht
      · exact hf t t' ht
  | stopped hlt => exact .stopped hlt
  | cut hlt ha =>
    rename_i e t
    obtain rfl : e = 2 := ha
    exact .cut hlt rfl

theorem blocks_alike (he : Extends c c') {fuel fuel' : ℕ} (hfuel : Passes c c' fuel fuel') :
    Alike c c' inputEnded (blocks fuel) (blocks fuel') := by
  induction fuel generalizing fuel' with
  | zero =>
    obtain rfl | ⟨hlt, -⟩ := hfuel
    · exact alike_stop _
    · exact fun s s' _ => .stopped hlt
  | succ fuel ih =>
    obtain ⟨fuel', rfl, hrest⟩ := hfuel.succ
    unfold blocks
    refine alike_bind (bits_alike he 1) fun last => alike_bind (bits_alike he 2) fun type => ?_
    refine alike_bind_error (block_alike he type) ?_
    split_ifs
    · exact alike_pure _
    · exact ih hrest

/-! ## Calls -/

theorem paired_start : Paired c c' c.start c'.start :=
  ⟨⟨[], (c.holds_start _).toWrites, (c'.holds_start _).toWrites⟩, rfl, rfl, rfl⟩

/-- What the outcomes of the blocks say about the results. -/
theorem Paired.result (he : Extends c c') {r : Except Stop ℤ}
    (h : puffBlocks c.mem c.dest c.destlen c.source c.sourcelen = (r, s))
    (h' : puffBlocks c'.mem c'.dest c'.destlen c'.source c'.sourcelen = (r, s'))
    (hs : Paired c c' s s') :
    c'.result.err = c.result.err ∧ c'.result.out = c.result.out ∧
      (c.result.err ≤ 0 → c'.result.destlen = c.result.destlen ∧
        c'.result.sourcelen = c.result.sourcelen) := by
  obtain ⟨o, hw, hw'⟩ := hs.writes
  cases herr : puffErr r with
  | none =>
    have hres : c.result = ⟨2, [], c.destlen, c.sourcelen⟩ := by
      simp only [Call.result, puff, puff?, h, herr, Option.bind_eq_bind, Option.bind_none,
        Option.getD_none]
    have hres' : c'.result = ⟨2, [], c'.destlen, c'.sourcelen⟩ := by
      simp only [Call.result, puff, puff?, h', herr, Option.bind_eq_bind, Option.bind_none,
        Option.getD_none]
    rw [hres, hres']
    exact ⟨rfl, rfl, fun h => absurd h (by norm_num)⟩
  | some e =>
    have hres := Call.puff?_eq he.fits h herr hw
    have hres' := Call.puff?_eq he.fits' h' herr hw'
    rw [if_neg he.dest] at hres
    rw [if_neg he.dest', hs.incnt, hw'.outcnt, ← hw.outcnt] at hres'
    rw [Call.result_eq hres, Call.result_eq hres']
    by_cases hle : e ≤ 0
    · rw [if_pos hle, if_pos hle]
      exact ⟨rfl, rfl, fun _ => ⟨rfl, rfl⟩⟩
    · rw [if_neg hle, if_neg hle]
      exact ⟨rfl, rfl, fun h => absurd h hle⟩

/-- The two runs of a call and one that extends it. -/
theorem Extends.follows (he : Extends c c') :
    Follows c c' inputEnded (puffBlocks c.mem c.dest c.destlen c.source c.sourcelen)
      (puffBlocks c'.mem c'.dest c'.destlen c'.source c'.sourcelen) :=
  blocks_alike he he.passes c.start c'.start paired_start

/-- Two calls with the same input and buffers of the same size. -/
theorem Extends.same_result (he : Extends c c') (hlen : c'.sourcelen = c.sourcelen) :
    c'.result.err = c.result.err ∧ c'.result.out = c.result.out ∧
      (c.result.err ≤ 0 → c'.result.destlen = c.result.destlen ∧
        c'.result.sourcelen = c.result.sourcelen) := by
  have hrun := he.follows
  generalize hy : puffBlocks c.mem _ _ _ _ = y at hrun
  generalize hy' : puffBlocks c'.mem _ _ _ _ = y' at hrun
  have hnot : ¬ c.sourcelen < c'.sourcelen := by
    rw [hlen]
    exact Nat.lt_irrefl _
  cases hrun with
  | same hs => exact hs.result he hy hy'
  | stopped hlt => exact absurd hlt hnot
  | cut hlt _ => exact absurd hlt hnot

/-- Two calls of which the shorter one does not run out of input. -/
theorem Extends.longer_result (he : Extends c c') (hi : c.Inflates) (herr : c.result.err ≠ 2) :
    c'.result.err = c.result.err ∧ c'.result.out = c.result.out ∧
      (c.result.err ≤ 0 → c'.result.destlen = c.result.destlen ∧
        c'.result.sourcelen = c.result.sourcelen) := by
  obtain ⟨r, e, s, o, hends, hr, hw, -⟩ := Call.ends hi
  have hrun := he.follows
  have hres := Call.puff?_eq he.fits hends hr hw
  have htwo : e ≠ 2 := by
    rintro rfl
    rw [if_neg (by norm_num)] at hres
    rw [Call.result_eq hres] at herr
    exact herr rfl
  rw [hends] at hrun
  generalize hy' : puffBlocks c'.mem _ _ _ _ = y' at hrun
  cases hrun with
  | same hs => exact hs.result he hends hy'
  | @stopped e' _ _ _ =>
    cases e' with
    | longjmp => exact absurd (Option.some.inj hr).symm htwo
    | undefined => exact absurd hr (by simp [puffErr])
    | endless => exact absurd hr (by simp [puffErr])
  | @cut a _ _ _ ha =>
    obtain rfl : a = 2 := ha
    exact absurd (Option.some.inj hr).symm htwo

/-- **Bytes behind the input and the places of the buffers do not matter**: as long as the input
    suffices, the result is the same with more behind it and elsewhere in memory. For inputs of
    the same length it is the same in all cases. -/
theorem puff_extend (hi : c.Inflates) (he : Extends c c')
    (h : c.result.err ≠ 2 ∨ c'.sourcelen = c.sourcelen) :
    c'.result.err = c.result.err ∧ c'.result.out = c.result.out ∧
      (c.result.err ≤ 0 → c'.result.destlen = c.result.destlen ∧
        c'.result.sourcelen = c.result.sourcelen) := by
  obtain herr | hlen := h
  · exact he.longer_result hi herr
  · exact he.same_result hlen

/-- `letters` elsewhere, and with a byte behind its stream. -/
def lettersMoved : Call := ⟨memOf 0x4000 [0x4b, 0x84, 0x03, 0x00, 0xff], 0x100, 16, 0x4000, 5⟩

theorem letters_extends : Extends letters lettersMoved where
  fits := letters_inflates.fits
  fits' := ⟨by decide, by decide, fun _ => by decide, fun _ => by decide, fun _ => .inr (by decide)⟩
  dest := by decide
  dest' := by decide
  destlen := rfl
  sourcelen := by decide
  same := by
    intro k hk
    have hlt : k.toNat < 4 := hk
    have hall : ∀ i < 4, lettersMoved.mem (lettersMoved.source + BitVec.ofNat 32 i) =
        letters.mem (letters.source + BitVec.ofNat 32 i) := by decide
    simpa using hall k.toNat hlt

theorem puff_extend_letters : lettersMoved.result.err = 0 := by
  have herr : letters.result.err = 0 :=
    (puff_returns letters_inflates.fits (by decide) letters_deflated (by decide)).1
  rw [(puff_extend letters_inflates letters_extends (.inl (by rw [herr]; decide))).1, herr]

/-- The same call with less of the input. -/
def Call.truncate (c : Call) (n : Word) : Call := { c with sourcelen := n }

theorem Call.Inflates.truncate (hi : c.Inflates) {n : Word} (hn : n ≤ c.sourcelen) :
    (c.truncate n).Inflates ∧ Extends (c.truncate n) c := by
  have hle : n.toNat ≤ c.sourcelen.toNat := hn
  have hsource := hi.fits.source
  have hsourcelen := hi.sourcelen
  have hfits : (c.truncate n).Fits c.destlen.toNat := by
    refine ⟨hi.fits.room_lt, ?_, hi.fits.destlen, hi.fits.dest, fun h0 => ?_⟩
    · show c.source.toNat + n.toNat ≤ 2 ^ 32
      omega
    · exact (hi.fits.apart h0).mono ⟨le_rfl, le_rfl⟩ ⟨le_rfl, Nat.add_le_add_left hle _⟩
  refine ⟨⟨hfits, hi.dest, hi.destlen, ?_⟩, ⟨hfits, hi.fits, hi.dest, hi.dest, rfl, hn, fun _ _ => rfl⟩⟩
  show n.toNat + 2 ^ 16 ≤ 2 ^ 32
  omega

theorem Call.truncate_src {n : Word} (hn : n ≤ c.sourcelen) :
    (c.truncate n).src = c.src.take n.toNat := by
  have hle : n.toNat ≤ c.sourcelen.toNat := hn
  show readBytes c.mem c.source n.toNat = (readBytes c.mem c.source c.sourcelen.toNat).take n.toNat
  obtain ⟨k, hk⟩ := Nat.exists_eq_add_of_le hle
  rw [hk, readBytes_add, List.take_left' (readBytes_length ..)]

/-- **A stream that is cut short is never accepted**: where `puff` inflates a stream, it returns
    `2` on every part of the input that ends before the stream does, and the same on every part
    that does not. -/
theorem puff_truncated (hi : c.Inflates) (herr : c.result.err = 0) {n : Word}
    (hn : n ≤ c.sourcelen) :
    (n < c.result.sourcelen → (c.truncate n).result.err = 2) ∧
      (c.result.sourcelen ≤ n → (c.truncate n).result.err = 0 ∧
        (c.truncate n).result.out = c.result.out ∧
        (c.truncate n).result.sourcelen = c.result.sourcelen) := by
  obtain ⟨hi', he⟩ := hi.truncate hn
  have hr := Call.returns hi
  constructor
  · intro hlt
    by_contra htwo
    obtain ⟨herr', -, hlens⟩ := he.longer_result hi' htwo
    have hle0 : (c.truncate n).result.err ≤ 0 := by rw [← herr', herr]
    have hused := ((Call.returns hi').lengths hle0).2
    rw [← (hlens hle0).2] at hused
    exact absurd hused (Nat.not_le.mpr hlt)
  · intro hle
    have hdeflated := (hr.deflated herr).take hle (by rw [Call.src, readBytes_length]; exact hn)
    rw [← Call.truncate_src hn] at hdeflated
    obtain ⟨herr', hout, hused⟩ := puff_returns hi'.fits hi'.dest hdeflated hr.out_le
    exact ⟨herr', hout, BitVec.eq_of_toNat_eq hused⟩

theorem puff_truncated_letters : (letters.truncate 2).result.err = 2 := by
  obtain ⟨herr, -, hused⟩ :=
    puff_returns letters_inflates.fits (by decide) letters_deflated (by decide)
  refine (puff_truncated letters_inflates herr (by decide)).1 ?_
  rw [BitVec.lt_def, hused]
  decide

end Extend

end BBoot.Inflate
