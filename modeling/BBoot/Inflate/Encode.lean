import BBoot.Inflate.Format

/-!
# Encoding tokens

An encoder for what `puff` decodes: tokens under the fixed codes, in one block. It is
not part of the program; it gives streams to every token sequence, so that what is
proved of `puff` on streams is about all of them.

Results:
* `tokensBits_spells`: the encoder writes bits of the format, under any codes.
* `deflateFixed_isSome`: it encodes all lengths from 3 to 258 and distances from 1 to
  32768.
* `deflateFixed_deflated`: what it returns is a stream for the expansion of the tokens.
-/

namespace BBoot.Inflate

open Canonical

/-! ## The encoder -/

/-- The index of the base and the extra bits that make up `n`. -/
def spelling (base ext : List ℕ) (n : ℕ) : Option (ℕ × List Bool) :=
  ((List.range base.length).find? fun i =>
      base.getD i 0 ≤ n ∧ n < base.getD i 0 + 2 ^ ext.getD i 0).map fun i =>
    (i, toBits (ext.getD i 0) (n - base.getD i 0))

/-- The bits of a token. -/
def tokenBits (L D : List ℕ) : Token → Option (List Bool)
  | .literal b => codeword L b.toNat
  | .copy len dist => do
    let (i, x) ← spelling lens lext len
    let (j, y) ← spelling dists dext dist
    pure ((← codeword L (257 + i)) ++ (x ++ ((← codeword D j) ++ y)))

/-- The bits of tokens and of the end-of-block symbol. -/
def tokensBits (L D : List ℕ) : List Token → Option (List Bool)
  | [] => codeword L 256
  | t :: toks => do pure ((← tokenBits L D t) ++ (← tokensBits L D toks))

/-- A stream of one block with the fixed codes. -/
def deflateFixed (toks : List Token) : Option (List Byte) := do
  let w ← tokensBits fixedLengths fixedDistLengths toks
  pure (packBytes ((w.length + 3 + 7) / 8) (true :: true :: false :: w))

/-- A token that the format has bits for. -/
def Token.Valid : Token → Prop
  | .literal _ => True
  | .copy len dist => (3 ≤ len ∧ len ≤ 258) ∧ 1 ≤ dist ∧ dist ≤ 32768

/-! ## What it writes -/

theorem spelling_eq_some {base ext : List ℕ} (hlen : base.length = ext.length) {n i : ℕ}
    {x : List Bool} (h : spelling base ext n = some (i, x)) :
    ∃ b, base[i]? = some b ∧ ext[i]? = some x.length ∧ b + ofBits x = n := by
  obtain ⟨j, hfind, hj⟩ := Option.map_eq_some_iff.mp h
  rw [Prod.mk.injEq] at hj
  obtain ⟨rfl, rfl⟩ := hj
  have hmem := List.mem_of_find?_eq_some hfind
  have hrange := List.find?_some hfind
  rw [List.mem_range] at hmem
  rw [decide_eq_true_eq] at hrange
  have hext : j < ext.length := hlen ▸ hmem
  refine ⟨base[j], List.getElem?_eq_getElem hmem, ?_, ?_⟩
  · rw [toBits_length, List.getElem?_eq_getElem hext, List.getD_eq_getElem _ _ hext]
  · rw [List.getD_eq_getElem _ _ hmem] at hrange ⊢
    rw [ofBits_toBits, Nat.mod_eq_of_lt (by omega), Nat.add_sub_cancel' hrange.1]

theorem spelling_isSome {base ext : List ℕ} {n i b : ℕ} {x : List Bool} (hb : base[i]? = some b)
    (hx : ext[i]? = some x.length) (hn : b + ofBits x = n) :
    ∃ j y, spelling base ext n = some (j, y) := by
  obtain ⟨hi, hget⟩ := List.getElem?_eq_some_iff.mp hb
  obtain ⟨hi', hget'⟩ := List.getElem?_eq_some_iff.mp hx
  have hlt := ofBits_lt x
  have hsome : ((List.range base.length).find? fun i =>
      base.getD i 0 ≤ n ∧ n < base.getD i 0 + 2 ^ ext.getD i 0).isSome := by
    rw [List.find?_isSome]
    refine ⟨i, List.mem_range.mpr hi, ?_⟩
    rw [decide_eq_true_eq, List.getD_eq_getElem _ _ hi, List.getD_eq_getElem _ _ hi', hget, hget']
    omega
  obtain ⟨j, hj⟩ := Option.isSome_iff_exists.mp hsome
  exact ⟨_, _, by rw [spelling, hj, Option.map_some]⟩

theorem lens_length : lens.length = lext.length := rfl

theorem dists_length : dists.length = dext.length := rfl

/-- **The encoder writes what the format describes**, under any two codes. -/
theorem tokensBits_spells {L D : List ℕ} {toks : List Token} {w : List Bool}
    (h : tokensBits L D toks = some w) : Spells L D toks w := by
  induction toks generalizing w with
  | nil => exact .done h
  | cons t toks ih =>
    obtain ⟨v, ht, h⟩ := Option.bind_eq_some_iff.mp h
    obtain ⟨u, htoks, h⟩ := Option.bind_eq_some_iff.mp h
    obtain rfl := Option.some.inj h
    cases t with
    | literal b => exact .literal ht (ih htoks)
    | copy len dist =>
      obtain ⟨⟨i, x⟩, hlen, ht⟩ := Option.bind_eq_some_iff.mp ht
      obtain ⟨⟨j, y⟩, hdist, ht⟩ := Option.bind_eq_some_iff.mp ht
      obtain ⟨a, ha, ht⟩ := Option.bind_eq_some_iff.mp ht
      obtain ⟨b, hb, ht⟩ := Option.bind_eq_some_iff.mp ht
      obtain rfl := Option.some.inj ht
      obtain ⟨l, hl, hx, rfl⟩ := spelling_eq_some lens_length hlen
      obtain ⟨d, hd, hy, rfl⟩ := spelling_eq_some dists_length hdist
      rw [List.append_assoc]
      exact .copy ha (.mk hl hx hb hd hy) (ih htoks)

/-- A symbol of nonzero length has a codeword. -/
theorem codeword_isSome {lengths : List ℕ} {s : ℕ} (hs : s < lengths.length)
    (hpos : ∀ l ∈ lengths, 1 ≤ l) : ∃ w, codeword lengths s = some w :=
  ⟨_, codeword_eq_some.mpr ⟨_, hpos _ (List.getElem_mem hs), List.getElem?_eq_getElem hs, rfl⟩⟩

/-- **Every valid token** has bits under the fixed codes. -/
theorem deflateFixed_isSome {toks : List Token} (hvalid : ∀ t ∈ toks, t.Valid) :
    ∃ src, deflateFixed toks = some src := by
  have hL : ∀ s < 288, ∃ w, codeword fixedLengths s = some w := fun s hs =>
    codeword_isSome (by rwa [show fixedLengths.length = 288 by decide +kernel]) (by decide +kernel)
  have hD : ∀ s < 30, ∃ w, codeword fixedDistLengths s = some w := fun s hs =>
    codeword_isSome (by rwa [show fixedDistLengths.length = 30 by decide +kernel])
      (by decide +kernel)
  have htoks : ∃ w, tokensBits fixedLengths fixedDistLengths toks = some w := by
    induction toks with
    | nil => exact hL 256 (by norm_num)
    | cons t toks ih =>
      obtain ⟨ht, hvalid⟩ := List.forall_mem_cons.mp hvalid
      obtain ⟨u, hu⟩ := ih hvalid
      have hbits : ∃ v, tokenBits fixedLengths fixedDistLengths t = some v := by
        cases t with
        | literal b => exact hL b.toNat (b.isLt.trans (by norm_num))
        | copy len dist =>
          obtain ⟨i, l, x, hl, hx, hlen⟩ := exists_length ht.1.1 ht.1.2
          obtain ⟨j, d, y, hd, hy, hdist⟩ := exists_distance ht.2.1 ht.2.2
          obtain ⟨i', x', hi⟩ := spelling_isSome hl hx hlen
          obtain ⟨j', y', hj⟩ := spelling_isSome hd hy hdist
          obtain ⟨l', hl', -, -⟩ := spelling_eq_some lens_length hi
          obtain ⟨d', hd', -, -⟩ := spelling_eq_some dists_length hj
          have hi29 : i' < 29 := (List.getElem?_eq_some_iff.mp hl').1
          have hj30 : j' < 30 := (List.getElem?_eq_some_iff.mp hd').1
          obtain ⟨a, ha⟩ := hL (257 + i') (by omega)
          obtain ⟨b, hb⟩ := hD j' hj30
          refine ⟨a ++ (x' ++ (b ++ y')), ?_⟩
          simp only [tokenBits, hi, hj, ha, hb, Option.bind_eq_bind, Option.bind_some]
          rfl
      obtain ⟨v, hv⟩ := hbits
      refine ⟨v ++ u, ?_⟩
      rw [tokensBits, hv, hu]
      rfl
  obtain ⟨w, hw⟩ := htoks
  exact ⟨_, by rw [deflateFixed, hw]; rfl⟩

/-- What the encoder returns is a stream, whatever stands behind it. -/
theorem deflateFixed_deflated {toks : List Token} {src data : List Byte}
    (h : deflateFixed toks = some src) (hexpand : expand toks [] = some data) (extra : List Byte) :
    Deflated (src ++ extra) data src.length := by
  obtain ⟨w, hw, h⟩ := Option.bind_eq_some_iff.mp h
  obtain rfl := Option.some.inj h
  have hspells := tokensBits_spells hw
  have hbits : bitsOf (packBytes ((w.length + 3 + 7) / 8) (true :: true :: false :: w)) =
      true :: true :: false :: w ++ List.replicate (8 * ((w.length + 3 + 7) / 8) -
        (w.length + 3)) false :=
    bitsOf_packBytes (by simp only [List.length_cons]; omega)
  have hlen := packBytes_length ((w.length + 3 + 7) / 8) (true :: true :: false :: w)
  refine ⟨toks, List.replicate (8 * ((w.length + 3 + 7) / 8) - (w.length + 3)) false ++ bitsOf extra,
    ?_, hexpand, ?_⟩
  · rw [bitsOf_append, hbits, List.append_assoc]
    exact .last (.fixed hspells)
  · rw [List.length_append, List.length_append, List.length_replicate, bitsOf_length, hlen]
    omega

end BBoot.Inflate
