import BBoot.Inflate.Blocks
import BBoot.Inflate.Encode

/-!
# What `puff` returns

`Call.ends` collects what is known of the blocks: they end, with an error or with the
data of a stream, and have written only to the buffer. Everything here follows from
it and from `blocks_returns`.

Results:
* `puff_safe`: for every input and buffer `puff` ends inside its two buffers, and all
  that it changes are bytes of the buffer.
* `puff_iff`: it returns `0` exactly for streams whose data fit, and has written
  these.
* `puff_full`: it returns `1` for streams whose data do not fit.
* `puff_scan`: scanning tells how large the buffer has to be.
* `puff_deflateFixed`: it restores the expansion of tokens that were encoded.
-/

namespace BBoot.Inflate

open PuffM Canonical BBoot.Zip

/-- The bytes of the input. -/
def Call.src (c : Call) : List Byte := readBytes c.mem c.source c.sourcelen.toNat

/-- What the call returns. -/
def Call.result (c : Call) : PuffResult := puff c.mem c.dest c.destlen c.source c.sourcelen

/-- The memory that the call leaves. -/
def Call.memory (c : Call) : Mem := (puffBlocks c.mem c.dest c.destlen c.source c.sourcelen).2.mem

section Result

variable {c : Call} {room : ℕ} {s : State} {o : List Byte}

/-! ## From the blocks to the result -/

/-- What is returned for the error `e`. -/
theorem Call.puff?_eq (hc : c.Fits room) {r : Except Stop ℤ} {e : ℤ}
    (h : puffBlocks c.mem c.dest c.destlen c.source c.sourcelen = (r, s)) (he : puffErr r = some e)
    (hs : Writes c room s o) :
    puff? c.mem c.dest c.destlen c.source c.sourcelen =
      some (if e ≤ 0 then ⟨e, if c.dest = 0 then [] else o, s.outcnt, s.incnt⟩
        else ⟨e, if c.dest = 0 then [] else o, c.destlen, c.sourcelen⟩) := by
  have hout : (if c.dest = 0 then [] else readBytes s.mem c.dest s.outcnt.toNat) =
      if c.dest = 0 then [] else o := by
    by_cases h0 : c.dest = 0
    · rw [if_pos h0, if_pos h0]
    · rw [if_neg h0, if_neg h0, hs.mem, Call.after, if_neg h0, hs.outcnt_toNat hc,
        readBytes_writeBytes _ _ (hs.room.trans hc.room_lt.le)]
  unfold puff?
  simp only [h, he, Option.bind_eq_bind, Option.bind_some, hout]
  split_ifs <;> rfl

theorem Call.result_eq {r : PuffResult}
    (h : puff? c.mem c.dest c.destlen c.source c.sourcelen = some r) : c.result = r := by
  rw [Call.result, puff, h, Option.getD_some]

theorem Call.input_lt (c : Call) : c.input.length < 8 * c.sourcelen.toNat + 8 := by
  rw [Call.input, bitsOf_length, readBytes_length]
  exact Nat.lt_add_of_pos_right (by norm_num)

/-- How many bytes are read when `rest` is left. -/
theorem Holds.used {rest : List Bool} (h : Holds c room s rest o) :
    s.incnt.toNat = c.sourcelen.toNat - rest.length / 8 := by
  have hlen := h.length
  have hcnt := h.bitcnt_lt
  have hle : s.incnt.toNat ≤ c.sourcelen.toNat := h.incnt_le
  omega

/-! ## Every call -/

/-- Every call ends, with an error or with the data of a stream. -/
theorem Call.ends (hi : c.Inflates) :
    ∃ r e s o, puffBlocks c.mem c.dest c.destlen c.source c.sourcelen = (r, s) ∧
      puffErr r = some e ∧ Writes c c.destlen.toNat s o ∧
      (e = 0 → ∃ toks rest, Stream c.input toks rest ∧ expand toks [] = some o ∧
        Holds c c.destlen.toNat s rest o) := by
  obtain ⟨e, s, hrun, ⟨o, hs⟩, hzero⟩ | ⟨s, hrun, o, hs⟩ :=
    (blocks_ends hi (c.holds_start _) c.input_lt).cases
  · by_cases he : e = 0
    · obtain ⟨toks, rest, o', hstream, hexpand, hs'⟩ := hzero he
      exact ⟨_, e, s, o', hrun, rfl, hs'.toWrites, fun _ => ⟨toks, rest, hstream, hexpand, hs'⟩⟩
    · exact ⟨_, e, s, o, hrun, rfl, hs, fun h => absurd h he⟩
  · exact ⟨_, 2, s, o, hrun, rfl, hs, fun h => absurd h (by norm_num)⟩

/-- What every call returns and leaves. -/
structure Call.Returns (c : Call) : Prop where
  defined : puff? c.mem c.dest c.destlen c.source c.sourcelen = some c.result
  memory : c.memory = writeBytes c.mem c.dest c.result.out
  out_le : c.result.out.length ≤ c.destlen.toNat
  lengths : c.result.err ≤ 0 →
    c.result.destlen.toNat = c.result.out.length ∧ c.result.sourcelen ≤ c.sourcelen
  unchanged : 0 < c.result.err → c.result.destlen = c.destlen ∧ c.result.sourcelen = c.sourcelen
  deflated : c.result.err = 0 → Deflated c.src c.result.out c.result.sourcelen.toNat

theorem Call.returns (hi : c.Inflates) : c.Returns := by
  have hc := hi.fits
  obtain ⟨r, e, s, o, hrun, he, hs, hzero⟩ := Call.ends hi
  have hres := Call.puff?_eq hc hrun he hs
  have hmem : c.memory = writeBytes c.mem c.dest o := by
    rw [Call.memory, hrun, hs.mem, Call.after, if_neg hi.dest]
  rw [if_neg hi.dest] at hres
  by_cases hle : e ≤ 0
  · rw [if_pos hle] at hres
    have heq := Call.result_eq hres
    refine ⟨heq ▸ hres, heq ▸ hmem, heq ▸ hs.room, ?_, ?_, ?_⟩ <;> rw [heq]
    · exact fun _ => ⟨hs.outcnt_toNat hc, hs.incnt_le⟩
    · exact fun h => absurd h (not_lt.mpr hle)
    · intro h0
      obtain ⟨toks, rest, hstream, hexpand, hs'⟩ := hzero h0
      exact ⟨toks, rest, hstream, hexpand, by rw [hs'.used, Call.src, readBytes_length]⟩
  · rw [if_neg hle] at hres
    have heq := Call.result_eq hres
    refine ⟨heq ▸ hres, heq ▸ hmem, heq ▸ hs.room, ?_, ?_, ?_⟩ <;> rw [heq]
    · exact fun h => absurd h hle
    · exact fun _ => ⟨rfl, rfl⟩
    · exact fun h0 => absurd h0.le hle

/-- Ten times the same letter, a literal and a copy of nine bytes, and a buffer of 16 bytes. -/
def letters : Call := ⟨memOf 0x100 [0x4b, 0x84, 0x03, 0x00], 0x200, 16, 0x100, 4⟩

theorem letters_inflates : letters.Inflates where
  fits := ⟨by decide, by decide, fun _ => by decide, fun _ => by decide, fun _ => .inr (by decide)⟩
  dest := by decide
  destlen := by decide
  sourcelen := by decide

theorem letters_encoded :
    deflateFixed [.literal 97, .copy 9 1] = some [0x4b, 0x84, 0x03, 0x00] := by decide +kernel

theorem letters_expand : expand [.literal 97, .copy 9 1] [] = some (List.replicate 10 97) := by
  decide

theorem letters_deflated : Deflated letters.src (List.replicate 10 97) 4 :=
  deflateFixed_deflated letters_encoded letters_expand []

/-- A stream whose data fit is inflated. -/
theorem puff_returns (hc : c.Fits c.destlen.toNat) (h0 : c.dest ≠ 0) {data : List Byte} {used : ℕ}
    (hsrc : Deflated c.src data used) (hfit : data.length ≤ c.destlen.toNat) :
    c.result.err = 0 ∧ c.result.out = data ∧ c.result.sourcelen.toNat = used := by
  obtain ⟨toks, rest, hstream, hexpand, rfl⟩ := hsrc
  obtain ⟨e, s, hrun, rfl, hs⟩ :=
    (blocks_returns hc hstream (c.holds_start _) hexpand hfit c.input_lt).returns
  have hres := Call.puff?_eq hc hrun rfl hs.toWrites
  rw [if_neg h0, if_pos le_rfl] at hres
  rw [Call.result_eq hres]
  exact ⟨rfl, rfl, by rw [hs.used, Call.src, readBytes_length]⟩

/-- **`puff` returns `0` exactly for streams whose data fit**, and then it has written the data
    and tells where the stream ends. -/
theorem puff_iff (hi : c.Inflates) (data : List Byte) (used : ℕ) :
    (c.result.err = 0 ∧ c.result.out = data ∧ c.result.sourcelen.toNat = used) ↔
      Deflated c.src data used ∧ data.length ≤ c.destlen.toNat := by
  constructor
  · rintro ⟨herr, rfl, rfl⟩
    exact ⟨(Call.returns hi).deflated herr, (Call.returns hi).out_le⟩
  · rintro ⟨hsrc, hfit⟩
    exact puff_returns hi.fits hi.dest hsrc hfit

theorem puff_iff_letters :
    letters.result.err = 0 ∧ letters.result.out = List.replicate 10 97 ∧
      letters.result.sourcelen.toNat = 4 :=
  (puff_iff letters_inflates _ 4).mpr ⟨letters_deflated, by decide⟩

/-- **`puff` returns `1` for streams whose data do not fit**, and leaves the lengths alone. -/
theorem puff_full (hi : c.Inflates) {data : List Byte} {used : ℕ} (hsrc : Deflated c.src data used)
    (hfull : c.destlen.toNat < data.length) :
    c.result.err = 1 ∧ c.result.destlen = c.destlen ∧ c.result.sourcelen = c.sourcelen := by
  obtain ⟨toks, rest, hstream, hexpand, rfl⟩ := hsrc
  obtain ⟨e, s, hrun, rfl, o, hs⟩ :=
    (blocks_full hi hstream (c.holds_start _) hexpand hfull c.input_lt).returns
  have hres := Call.puff?_eq hi.fits hrun rfl hs
  rw [if_neg (by norm_num : ¬ (1 : ℤ) ≤ 0)] at hres
  rw [Call.result_eq hres]
  exact ⟨rfl, rfl, rfl⟩

theorem puff_full_letters : ({ letters with destlen := 9 } : Call).result.err = 1 :=
  (puff_full (c := { letters with destlen := 9 })
    ⟨⟨by decide, by decide, fun _ => by decide, fun _ => by decide, fun _ => .inr (by decide)⟩,
      by decide, by decide, by decide⟩ letters_deflated (by decide)).1

/-- **Scanning tells how large the buffer has to be**: without a buffer `puff` returns the length
    of the data and of the stream, and leaves memory alone. -/
theorem puff_scan {c : Call} (h0 : c.dest = 0)
    (hsource : c.source.toNat + c.sourcelen.toNat ≤ 2 ^ 32) {data : List Byte} {used : ℕ}
    (hsrc : Deflated c.src data used) (hdata : data.length < 2 ^ 32) :
    c.result.err = 0 ∧ c.result.out = [] ∧ c.result.destlen.toNat = data.length ∧
      c.result.sourcelen.toNat = used ∧ c.memory = c.mem := by
  have hc : c.Fits data.length := ⟨hdata, hsource, fun h => absurd h0 h, fun h => absurd h0 h,
    fun h => absurd h0 h⟩
  obtain ⟨toks, rest, hstream, hexpand, rfl⟩ := hsrc
  obtain ⟨e, s, hrun, rfl, hs⟩ :=
    (blocks_returns hc hstream (c.holds_start _) hexpand le_rfl c.input_lt).returns
  have hres := Call.puff?_eq hc hrun rfl hs.toWrites
  rw [if_pos h0, if_pos le_rfl] at hres
  rw [Call.result_eq hres]
  refine ⟨rfl, rfl, hs.outcnt_toNat hc, by rw [hs.used, Call.src, readBytes_length], ?_⟩
  rw [Call.memory, show puffBlocks _ _ _ _ _ = (.ok 0, s) from hrun, hs.mem, Call.after, if_pos h0]

theorem puff_scan_letters : ({ letters with dest := 0 } : Call).result.destlen.toNat = 10 :=
  (puff_scan (c := { letters with dest := 0 }) rfl (by decide) letters_deflated (by decide)).2.2.1

/-- **`puff` undoes encoding**: every sequence of valid tokens that expands to some data has a
    stream, and `puff` restores the data from it, wherever the stream is and whatever follows. -/
theorem puff_deflateFixed {toks : List Token} (hvalid : ∀ t ∈ toks, t.Valid) {data : List Byte}
    (hexpand : expand toks [] = some data) :
    ∃ src, deflateFixed toks = some src ∧ ∀ (c : Call) (extra : List Byte), c.Inflates →
      c.src = src ++ extra → data.length ≤ c.destlen.toNat →
        c.result.err = 0 ∧ c.result.out = data ∧ c.result.sourcelen.toNat = src.length ∧
          c.memory = writeBytes c.mem c.dest data := by
  obtain ⟨src, hsrc⟩ := deflateFixed_isSome hvalid
  refine ⟨src, hsrc, fun c extra hi hc hfit => ?_⟩
  obtain ⟨herr, hout, hused⟩ := puff_returns hi.fits hi.dest
    (hc ▸ deflateFixed_deflated hsrc hexpand extra) hfit
  exact ⟨herr, hout, hused, hout ▸ (Call.returns hi).memory⟩

theorem puff_deflateFixed_letters : letters.result.out = List.replicate 10 97 := by
  obtain ⟨src, hsrc, hall⟩ := puff_deflateFixed (by simp [Token.Valid]) letters_expand
  obtain rfl := Option.some.inj (hsrc.symm.trans letters_encoded)
  exact (hall letters [] letters_inflates (by decide) (by decide)).2.1

end Result

end BBoot.Inflate
