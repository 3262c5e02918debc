import BBoot.Inflate.Construct

/-!
# The deflate format

What `zip/puff.c` describes in its format notes, as relations between bits and what
they stand for. A stream is a sequence of blocks, each of which stands for a
sequence of tokens: bytes, and copies from further back. Expanding the tokens gives
the data.

The bits of a token, of a code description and of a block are related to these by
`Spells`, `SpellsLengths` and `BlockSpells`. Lengths and distances can be spelled in
more than one way, and so can code descriptions.

Results:
* `copyMatch_getElem?`: a copy repeats the last `dist` bytes.
* `exists_length`, `exists_distance`: every length from 3 to 258 and every distance
  from 1 to 32768 has a spelling.
* `SpellsLengths.bounds`: the lengths of a description are at most `15`.
* `Deflated.take`: the bytes behind a stream do not belong to it.
-/

namespace BBoot.Inflate

open Canonical

/-! ## Tokens -/

/-- A byte, or `len` bytes that stand `dist` bytes back. -/
inductive Token
  | literal (b : Byte)
  | copy (len dist : ℕ)
deriving DecidableEq, Repr

/-- The output after `n` bytes were copied from `dist` bytes back. -/
def copyMatch (dist : ℕ) : ℕ → List Byte → List Byte
  | 0, o => o
  | n + 1, o => copyMatch dist n (o ++ [o.getD (o.length - dist) 0])

/-- The output after a token, if it does not reach back too far. -/
def Token.apply (o : List Byte) : Token → Option (List Byte)
  | .literal b => some (o ++ [b])
  | .copy len dist => if dist ≤ o.length then some (copyMatch dist len o) else none

theorem Token.apply_copy {len dist : ℕ} {o o' : List Byte}
    (h : Token.apply o (.copy len dist) = some o') :
    dist ≤ o.length ∧ copyMatch dist len o = o' := by
  rw [Token.apply] at h
  split_ifs at h with hdist
  exact ⟨hdist, Option.some.inj h⟩

/-- The output after some tokens. -/
def expand (toks : List Token) (o : List Byte) : Option (List Byte) := toks.foldlM Token.apply o

@[simp] theorem expand_nil (o : List Byte) : expand [] o = some o := rfl

theorem expand_cons (t : Token) (toks : List Token) (o : List Byte) :
    expand (t :: toks) o = (t.apply o).bind (expand toks) := rfl

theorem expand_append (toks toks' : List Token) (o : List Byte) :
    expand (toks ++ toks') o = (expand toks o).bind (expand toks') := List.foldlM_append

theorem expand_literals (data o : List Byte) : expand (data.map .literal) o = some (o ++ data) := by
  induction data generalizing o with
  | nil => simp
  | cons b data ih =>
    rw [List.map_cons, expand_cons, Token.apply, Option.bind_some, ih, List.append_assoc]
    rfl

@[simp] theorem copyMatch_length (dist n : ℕ) (o : List Byte) :
    (copyMatch dist n o).length = o.length + n := by
  induction n generalizing o with
  | zero => rfl
  | succ n ih =>
    rw [copyMatch, ih, List.length_append, List.length_singleton]
    ring

theorem prefix_copyMatch (dist n : ℕ) (o : List Byte) : o <+: copyMatch dist n o := by
  induction n generalizing o with
  | zero => exact List.prefix_rfl
  | succ n ih => exact (List.prefix_append _ _).trans (ih _)

/-- Expanding adds to the output. -/
theorem expand_extends {toks : List Token} {o o' : List Byte} (h : expand toks o = some o') :
    o <+: o' := by
  induction toks generalizing o with
  | nil =>
    obtain rfl := Option.some.inj h
    exact List.prefix_rfl
  | cons t toks ih =>
    rw [expand_cons] at h
    obtain ⟨o₁, ht, h⟩ := Option.bind_eq_some_iff.mp h
    refine List.IsPrefix.trans ?_ (ih h)
    cases t with
    | literal b =>
      obtain rfl := Option.some.inj ht
      exact List.prefix_append _ _
    | copy len dist =>
      obtain ⟨-, rfl⟩ := Token.apply_copy ht
      exact prefix_copyMatch _ _ _

/-- **A copy repeats the last `dist` bytes**, also if it is longer than they are. -/
theorem copyMatch_getElem? {dist : ℕ} {o : List Byte} (hpos : 1 ≤ dist) (hdist : dist ≤ o.length)
    {n i : ℕ} (hi : i < n) :
    (copyMatch dist n o)[o.length + i]? = o[o.length - dist + i % dist]? := by
  -- every byte equals the one `dist` before it
  have hback : ∀ n o, dist ≤ o.length → ∀ k, o.length ≤ k → k < o.length + n →
      (copyMatch dist n o)[k]? = (copyMatch dist n o)[k - dist]? := by
    intro n
    induction n with
    | zero =>
      intro o _ k hk hlt
      omega
    | succ n ih =>
      intro o ho k hk hlt
      rw [copyMatch]
      by_cases heq : k = o.length
      · obtain ⟨v, hv⟩ := prefix_copyMatch dist n (o ++ [o.getD (o.length - dist) 0])
        rw [heq, ← hv, List.append_assoc, List.getElem?_append_right le_rfl, Nat.sub_self,
          List.singleton_append, List.getElem?_cons_zero, List.getElem?_append_left (by omega),
          List.getElem?_eq_getElem (by omega), List.getD_eq_getElem _ _ (by omega)]
      · refine ih _ ?_ k ?_ ?_ <;> rw [List.length_append, List.length_singleton] <;> omega
  induction i using Nat.strong_induction_on with
  | _ i ih =>
    rw [hback n o hdist _ (Nat.le_add_right _ _) (by omega)]
    by_cases hlt : i < dist
    · obtain ⟨v, hv⟩ := prefix_copyMatch dist n o
      rw [Nat.mod_eq_of_lt hlt, ← hv, List.getElem?_append_left (by omega),
        show o.length + i - dist = o.length - dist + i by omega]
    · rw [show o.length + i - dist = o.length + (i - dist) by omega, ih (i - dist) (by omega) (by omega),
        Nat.mod_eq_sub_mod (Nat.not_lt.mp hlt)]

/-- The bits behind the symbol of a length: its extra bits, a distance symbol under the code
    with the lengths `D`, and the extra bits of the distance. -/
inductive CopySpells (D : List ℕ) (i : ℕ) : ℕ → ℕ → List Bool → Prop
  | mk {j len dist : ℕ} {x w y : List Bool} (hlen : lens[i]? = some len)
      (hx : lext[i]? = some x.length) (hw : codeword D j = some w) (hdist : dists[j]? = some dist)
      (hy : dext[j]? = some y.length) :
      CopySpells D i (len + ofBits x) (dist + ofBits y) (x ++ (w ++ y))

/-- The bits of tokens and of the end-of-block symbol behind them, under codes with the
    lengths `L` for literals and lengths and `D` for distances. -/
inductive Spells (L D : List ℕ) : List Token → List Bool → Prop
  | done {w : List Bool} (hw : codeword L 256 = some w) : Spells L D [] w
  | literal {b : Byte} {w u : List Bool} {toks : List Token} (hw : codeword L b.toNat = some w)
      (h : Spells L D toks u) : Spells L D (.literal b :: toks) (w ++ u)
  | copy {i len dist : ℕ} {w v u : List Bool} {toks : List Token}
      (hw : codeword L (257 + i) = some w) (hcopy : CopySpells D i len dist v)
      (h : Spells L D toks u) : Spells L D (.copy len dist :: toks) (w ++ (v ++ u))

theorem length_bounds {i len : ℕ} {x : List Bool} (hlen : lens[i]? = some len)
    (hx : lext[i]? = some x.length) : i < 29 ∧ len + ofBits x ≤ 258 := by
  have hall : ∀ i < 29, ∀ len ∈ lens[i]?, ∀ n ∈ lext[i]?, len + 2 ^ n ≤ 259 := by decide
  obtain ⟨hi, -⟩ := List.getElem?_eq_some_iff.mp hlen
  have hle := hall i hi len hlen _ hx
  have hlt := ofBits_lt x
  exact ⟨hi, by omega⟩

theorem distance_bounds {j dist : ℕ} {y : List Bool} (hdist : dists[j]? = some dist)
    (hy : dext[j]? = some y.length) : 1 ≤ dist ∧ dist + ofBits y ≤ 32768 := by
  have hall : ∀ j < 30, ∀ dist ∈ dists[j]?, ∀ n ∈ dext[j]?, 1 ≤ dist ∧ dist + 2 ^ n ≤ 32769 := by
    decide
  obtain ⟨hj, -⟩ := List.getElem?_eq_some_iff.mp hdist
  obtain ⟨hpos, hle⟩ := hall j hj dist hdist _ hy
  have hlt := ofBits_lt y
  exact ⟨hpos, by omega⟩

/-- Lengths and distances that are spelled are in range. -/
theorem CopySpells.bounds {D : List ℕ} {i len dist : ℕ} {v : List Bool}
    (h : CopySpells D i len dist v) : i < 29 ∧ len ≤ 258 ∧ 1 ≤ dist ∧ dist ≤ 32768 := by
  obtain ⟨hlen, hx, -, hdist, hy⟩ := h
  have hl := length_bounds hlen hx
  have hd := distance_bounds hdist hy
  exact ⟨hl.1, hl.2, by omega, hd.2⟩

/-- A number between a base and what its extra bits reach. -/
theorem extra_bits {base ext : List ℕ} {i n : ℕ} (hbase : i < base.length) (hext : i < ext.length)
    (hle : base.getD i 0 ≤ n) (hlt : n < base.getD i 0 + 2 ^ ext.getD i 0) :
    ∃ (b : ℕ) (x : List Bool), base[i]? = some b ∧ ext[i]? = some x.length ∧ b + ofBits x = n := by
  rw [List.getD_eq_getElem _ _ hbase] at hle hlt
  rw [List.getD_eq_getElem _ _ hext] at hlt
  refine ⟨base[i], toBits ext[i] (n - base[i]), List.getElem?_eq_getElem hbase, ?_, ?_⟩
  · rw [toBits_length, List.getElem?_eq_getElem hext]
  · rw [ofBits_toBits, Nat.mod_eq_of_lt (by omega), Nat.add_sub_cancel' hle]

/-- Every length has a spelling. -/
theorem exists_length {n : ℕ} (h : 3 ≤ n) (hn : n ≤ 258) :
    ∃ (i len : ℕ) (x : List Bool), lens[i]? = some len ∧ lext[i]? = some x.length ∧
      len + ofBits x = n := by
  have hcover : ∀ n ≤ 258, 3 ≤ n → ∃ i < 29, lens.getD i 0 ≤ n ∧
      n < lens.getD i 0 + 2 ^ lext.getD i 0 := by decide +kernel
  obtain ⟨i, hi, hle, hlt⟩ := hcover n hn h
  exact ⟨i, extra_bits hi hi hle hlt⟩

/-- Every distance has a spelling. -/
theorem exists_distance {n : ℕ} (h : 1 ≤ n) (hn : n ≤ 32768) :
    ∃ (j dist : ℕ) (y : List Bool), dists[j]? = some dist ∧ dext[j]? = some y.length ∧
      dist + ofBits y = n := by
  -- the next base follows the last distance that the extra bits reach
  have hnext : ∀ j < 29, dists.getD (j + 1) 0 = dists.getD j 0 + 2 ^ dext.getD j 0 := by decide
  have hcover : ∀ j < 30, n < dists.getD j 0 + 2 ^ dext.getD j 0 →
      ∃ j < 30, dists.getD j 0 ≤ n ∧ n < dists.getD j 0 + 2 ^ dext.getD j 0 := by
    intro j hj
    induction j with
    | zero => exact fun hlt => ⟨0, hj, h, hlt⟩
    | succ j ih =>
      intro hlt
      by_cases hle : dists.getD (j + 1) 0 ≤ n
      · exact ⟨j + 1, hj, hle, hlt⟩
      · rw [hnext j (by omega)] at hle
        exact ih (by omega) (Nat.not_le.mp hle)
  obtain ⟨j, hj, hle, hlt⟩ := hcover 29 (by norm_num)
    (hn.trans_lt (show (32768 : ℕ) < 24577 + 2 ^ 13 by norm_num))
  exact ⟨j, extra_bits hj hj hle hlt⟩

/-! ## Code descriptions -/

/-- The lengths that a repeat symbol with the extra bits `x` adds to `ls`: the last one three to
    six times again, or three to ten or eleven to 138 zeros. -/
inductive Repeats (ls : List ℕ) : ℕ → List Bool → List ℕ → Prop
  | last {l : ℕ} {x : List Bool} (hl : ls.getLast? = some l) (hx : x.length = 2) :
      Repeats ls 16 x (List.replicate (3 + ofBits x) l)
  | zeros {x : List Bool} (hx : x.length = 3) :
      Repeats ls 17 x (List.replicate (3 + ofBits x) 0)
  | manyZeros {x : List Bool} (hx : x.length = 7) :
      Repeats ls 18 x (List.replicate (11 + ofBits x) 0)

/-- The bits that make the lengths `ls` into `total` lengths, under a code with the lengths
    `C`. -/
inductive SpellsLengths (C : List ℕ) (total : ℕ) : List ℕ → List Bool → List ℕ → Prop
  | done {ls : List ℕ} (h : ls.length = total) : SpellsLengths C total ls [] ls
  | length {l : ℕ} {w u : List Bool} {ls ls' : List ℕ} (hl : l < 16) (hw : codeword C l = some w)
      (h : SpellsLengths C total (ls ++ [l]) u ls') : SpellsLengths C total ls (w ++ u) ls'
  | repeated {sym : ℕ} {w x u : List Bool} {ls new ls' : List ℕ} (hw : codeword C sym = some w)
      (hnew : Repeats ls sym x new) (h : SpellsLengths C total (ls ++ new) u ls') :
      SpellsLengths C total ls (w ++ (x ++ u)) ls'

theorem append_le {ls : List ℕ} {l : ℕ} (hls : ∀ l ∈ ls, l ≤ maxBits) (hl : l < 16) :
    ∀ l' ∈ ls ++ [l], l' ≤ maxBits := by
  intro l' hmem
  rcases List.mem_append.mp hmem with h | h
  · exact hls l' h
  · rw [List.mem_singleton.mp h]
    exact Nat.le_of_lt_succ hl

theorem Repeats.le {ls new : List ℕ} {sym : ℕ} {x : List Bool} (h : Repeats ls sym x new)
    (hls : ∀ l ∈ ls, l ≤ maxBits) : ∀ l ∈ new, l ≤ maxBits := by
  intro l hl
  cases h with
  | last hlast _ =>
    rw [List.eq_of_mem_replicate hl]
    exact hls _ (List.mem_of_getLast? hlast)
  | zeros _ =>
    rw [List.eq_of_mem_replicate hl]
    exact Nat.zero_le _
  | manyZeros _ =>
    rw [List.eq_of_mem_replicate hl]
    exact Nat.zero_le _

theorem Repeats.length_pos {ls new : List ℕ} {sym : ℕ} {x : List Bool} (h : Repeats ls sym x new) :
    0 < new.length := by
  cases h <;> rw [List.length_replicate] <;> omega

/-- A description adds to the lengths until there are `total`, all of them at most `15`. -/
theorem SpellsLengths.bounds {C : List ℕ} {total : ℕ} {ls ls' : List ℕ} {u : List Bool}
    (h : SpellsLengths C total ls u ls') (hls : ∀ l ∈ ls, l ≤ maxBits) :
    ls <+: ls' ∧ ls'.length = total ∧ ∀ l ∈ ls', l ≤ maxBits := by
  induction h with
  | done h => exact ⟨List.prefix_rfl, h, hls⟩
  | length hl _ _ ih =>
    obtain ⟨hpre, hrest⟩ := ih (append_le hls hl)
    exact ⟨(List.prefix_append _ _).trans hpre, hrest⟩
  | repeated _ hnew _ ih =>
    obtain ⟨hpre, hrest⟩ := ih (List.forall_mem_append.mpr ⟨hls, hnew.le hls⟩)
    exact ⟨(List.prefix_append _ _).trans hpre, hrest⟩

/-- The lengths of a code length code of which `vals` are transmitted, in the order of
    `order`; the missing ones are zero. -/
def codeLengths (vals : List ℕ) : List ℕ :=
  (List.range 19).map fun sym => vals.getD (order.idxOf sym) 0

/-- Their bits, three for each. -/
def codeLengthBits (vals : List ℕ) : List Bool := vals.flatMap fun v => toBits 3 v

/-- A code that a block may use: complete, without any codes, or a single code of one bit. -/
def Usable (lengths : List ℕ) : Prop :=
  NoCodes lengths ∨ Complete lengths ∨ (∀ l ∈ lengths, l ≤ 1) ∧ lengths.count 1 = 1

/-! ## Blocks -/

/-- The bytes of a stored block: the length, its complement, the data. -/
def storedBytes (data : List Byte) : List Byte :=
  let lo := BitVec.ofNat 8 data.length
  let hi := BitVec.ofNat 8 (data.length / 256)
  [lo, hi, ~~~lo, ~~~hi] ++ data

/-- The bits of a block from its type on, its tokens, and the bits behind it. -/
inductive BlockSpells : List Bool → List Token → List Bool → Prop
  | stored {pad u : List Bool} {data : List Byte} (hdata : data.length < 2 ^ 16)
      (hpad : pad.length < 8) (hu : u.length % 8 = 0) :
      BlockSpells ([false, false] ++ (pad ++ (bitsOf (storedBytes data) ++ u)))
        (data.map .literal) u
  | fixed {w u : List Bool} {toks : List Token} (h : Spells fixedLengths fixedDistLengths toks w) :
      BlockSpells ([true, false] ++ (w ++ u)) toks u
  | dynamic {nlen ndist : ℕ} {vals ls : List ℕ} {v w u : List Bool} {toks : List Token}
      (hnlen : 257 ≤ nlen ∧ nlen ≤ maxLCodes) (hndist : 1 ≤ ndist ∧ ndist ≤ maxDCodes)
      (hncode : 4 ≤ vals.length ∧ vals.length ≤ 19) (hvals : ∀ l ∈ vals, l < 8)
      (hcomplete : Complete (codeLengths vals))
      (hls : SpellsLengths (codeLengths vals) (nlen + ndist) [] v ls)
      (hL : Usable (ls.take nlen)) (hD : Usable (ls.drop nlen))
      (h : Spells (ls.take nlen) (ls.drop nlen) toks w) :
      BlockSpells ([false, true] ++ (toBits 5 (nlen - 257) ++ (toBits 5 (ndist - 1) ++
        (toBits 4 (vals.length - 4) ++ (codeLengthBits vals ++ (v ++ (w ++ u))))))) toks u

/-- The bits of a stream, its tokens, and the bits behind it. -/
inductive Stream : List Bool → List Token → List Bool → Prop
  | last {v u : List Bool} {toks : List Token} (h : BlockSpells v toks u) : Stream (true :: v) toks u
  | more {v v' u : List Bool} {toks toks' : List Token} (h : BlockSpells v toks v')
      (h' : Stream v' toks' u) : Stream (false :: v) (toks ++ toks') u

/-- The bytes `src` begin with a stream for `data`, of which `used` bytes are read. -/
def Deflated (src data : List Byte) (used : ℕ) : Prop :=
  ∃ toks rest, Stream (bitsOf src) toks rest ∧ expand toks [] = some data ∧
    used = src.length - rest.length / 8

/-- The bits of a block do not depend on what is behind it, except for where bytes begin. -/
theorem BlockSpells.behind {v rest : List Bool} {toks : List Token} (h : BlockSpells v toks rest) :
    ∃ w, v = w ++ rest ∧ ∀ rest', rest'.length % 8 = rest.length % 8 →
      BlockSpells (w ++ rest') toks rest' := by
  cases h with
  | @stored pad _ data hdata hpad hu =>
    refine ⟨[false, false] ++ (pad ++ bitsOf (storedBytes data)), by simp, fun rest' hrest => ?_⟩
    rw [List.append_assoc, List.append_assoc]
    exact .stored hdata hpad (hrest.trans hu)
  | @fixed w _ _ h =>
    refine ⟨[true, false] ++ w, by simp, fun rest' _ => ?_⟩
    rw [List.append_assoc]
    exact .fixed h
  | @dynamic nlen ndist vals ls v w _ _ hnlen hndist hncode hvals hcomplete hls hL hD h =>
    refine ⟨[false, true] ++ (toBits 5 (nlen - 257) ++ (toBits 5 (ndist - 1) ++
      (toBits 4 (vals.length - 4) ++ (codeLengthBits vals ++ (v ++ w))))), ?_, fun rest' _ => ?_⟩
    · simp only [List.append_assoc]
    · simp only [List.append_assoc]
      exact .dynamic hnlen hndist hncode hvals hcomplete hls hL hD h

theorem Stream.behind {v rest : List Bool} {toks : List Token} (h : Stream v toks rest) :
    ∃ w, v = w ++ rest ∧ ∀ rest', rest'.length % 8 = rest.length % 8 →
      Stream (w ++ rest') toks rest' := by
  induction h with
  | last h =>
    obtain ⟨w, rfl, hw⟩ := h.behind
    exact ⟨true :: w, rfl, fun rest' hrest => .last (hw rest' hrest)⟩
  | @more v v' u _ _ h _ ih =>
    obtain ⟨w, rfl, hw⟩ := h.behind
    obtain ⟨w', rfl, hw'⟩ := ih
    refine ⟨false :: (w ++ w'), by simp, fun rest' hrest => ?_⟩
    rw [List.cons_append, List.append_assoc]
    refine .more (hw _ ?_) (hw' rest' hrest)
    rw [List.length_append, List.length_append, Nat.add_mod, hrest, ← Nat.add_mod]

/-- A stream is one without the bytes behind it. -/
theorem Deflated.take {src data : List Byte} {used n : ℕ} (h : Deflated src data used)
    (hn : used ≤ n) (hlen : n ≤ src.length) : Deflated (src.take n) data used := by
  obtain ⟨toks, rest, hstream, hexpand, rfl⟩ := h
  obtain ⟨w, hw, hbehind⟩ := hstream.behind
  have hbits := congrArg List.length hw
  rw [bitsOf_length, List.length_append] at hbits
  have hdrop : 8 * (src.length - n) ≤ rest.length := by omega
  -- what is left of the bits behind the stream
  have hsplit : bitsOf (src.take n) = w ++ rest.take (rest.length - 8 * (src.length - n)) := by
    have hcut : (bitsOf (src.take n) ++ bitsOf (src.drop n)) = w ++ rest := by
      rw [← bitsOf_append, List.take_append_drop, hw]
    have hcut' := congrArg (List.take (8 * n)) hcut
    rw [List.take_left' (by rw [bitsOf_length, List.length_take, min_eq_left hlen])] at hcut'
    rw [hcut', List.take_append, List.take_of_length_le (by omega)]
    congr 2
    omega
  have hrest : (rest.take (rest.length - 8 * (src.length - n))).length =
      rest.length - 8 * (src.length - n) := by
    rw [List.length_take, min_eq_left (Nat.sub_le _ _)]
  refine ⟨toks, _, hsplit ▸ hbehind _ (by omega), hexpand, ?_⟩
  rw [List.length_take, min_eq_left hlen, hrest]
  omega

end BBoot.Inflate
