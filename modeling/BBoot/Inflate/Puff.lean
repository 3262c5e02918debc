import BBoot.Common.Store
import BBoot.Zip.Reader

/-!
# `zip/puff.c`

`puff` inflates a deflate stream. Its functions work on `struct state`, which
holds the input, the output and a buffer of at most seven bits, and leave by
`longjmp` when the input ends. Here they are programs in `PuffM`: a program ends
with a value or with the reason why it stops, and with the state it stopped in.

Memory is read and written as the source does, one byte at a time, so nothing is
assumed about where the two buffers are. An access outside of them, and one to an
array element that does not exist or was never written, stops with `undefined`.

`decode` is the version that is compiled, `decodeSlow` the one under `SLOW`. Loops
take a bound on their passes, which is part of the definition; a loop that would
exceed it stops with `endless`.
-/

namespace BBoot.Inflate

open BBoot.Zip

/-! ## Constants (lines 91–95) -/

/-- `MAXBITS`: the bits in a code at most. -/
def maxBits : ℕ := 15

/-- `MAXLCODES`: the number of literal and length codes at most. -/
def maxLCodes : ℕ := 286

/-- `MAXDCODES`: the number of distance codes at most. -/
def maxDCodes : ℕ := 30

/-- `MAXCODES`. -/
def maxCodes : ℕ := maxLCodes + maxDCodes

/-- `FIXLCODES`: the number of fixed literal and length codes. -/
def fixLCodes : ℕ := 288

/-! ## State -/

/-- `struct state` (lines 98–113) without `env`, and memory. `inp` is `in`. -/
structure State where
  mem : Mem
  out : Word
  outlen : Word
  outcnt : Word
  inp : Word
  inlen : Word
  incnt : Word
  bitbuf : ℕ
  bitcnt : ℕ

/-- Why a program does not end with a value. -/
inductive Stop
  | longjmp
  | undefined
  | endless
deriving DecidableEq, Repr

/-- A program on the state. -/
def PuffM (α : Type) : Type := State → Except Stop α × State

namespace PuffM

variable {α β : Type}

/-- One program after another. -/
def bind (x : PuffM α) (f : α → PuffM β) : PuffM β := fun s =>
  match x s with
  | (.ok a, s') => f a s'
  | (.error e, s') => (.error e, s')

instance : Monad PuffM where
  pure a := fun s => (.ok a, s)
  bind := PuffM.bind

/-- The state. -/
def get : PuffM State := fun s => (.ok s, s)

/-- Change the state. -/
def modify (f : State → State) : PuffM Unit := fun s => (.ok (), f s)

/-- Stop. -/
def stop (e : Stop) : PuffM α := fun s => (.error e, s)

/-- The value of an access to an array. -/
def checked : Option α → PuffM α
  | some a => pure a
  | none => stop .undefined

end PuffM

open PuffM

/-! ## Input and output -/

/-- `s->in[s->incnt++]`. -/
def nextIn : PuffM Byte := do
  let s ← get
  if s.incnt < s.inlen then do
    modify fun s => { s with incnt := s.incnt + 1 }
    pure (s.mem (s.inp + s.incnt))
  else stop .undefined

/-- `s->out[s->outcnt++] = b`. -/
def putOut (b : Byte) : PuffM Unit := do
  let s ← get
  if s.outcnt < s.outlen then
    modify fun s =>
      { s with mem := writeBytes s.mem (s.out + s.outcnt) [b], outcnt := s.outcnt + 1 }
  else stop .undefined

/-- `s->out[s->outcnt - dist]`. -/
def backOut (dist : ℕ) : PuffM Byte := do
  let s ← get
  if s.outcnt - BitVec.ofNat 32 dist < s.outcnt then
    pure (s.mem (s.out + (s.outcnt - BitVec.ofNat 32 dist)))
  else stop .undefined

/-- The loop of `bits` (lines 132–137). -/
def bitsLoop (need : ℕ) : ℕ → ℕ → PuffM ℕ
  | 0, _ => stop .endless
  | fuel + 1, val => do
    let s ← get
    if s.bitcnt < need then
      if s.incnt = s.inlen then stop .longjmp
      else do
        let b ← nextIn
        modify fun s => { s with bitcnt := s.bitcnt + 8 }
        bitsLoop need fuel (val ||| b.toNat <<< s.bitcnt)
    else pure val

/-- `bits` (lines 126–145). -/
def bits (need : ℕ) : PuffM ℕ := do
  let s ← get
  let val ← bitsLoop need (need + 1) s.bitbuf
  modify fun s => { s with bitbuf := val >>> need, bitcnt := s.bitcnt - need }
  pure (val &&& (1 <<< need - 1))

/-- The loop that copies a stored block (lines 187–188). -/
def copyIn : ℕ → PuffM Unit
  | 0 => pure ()
  | len + 1 => do
    putOut (← nextIn)
    copyIn len

/-- The length of a stored block from its two bytes (lines 175–176). -/
def storedLen (lo hi : Byte) : Word := lo.setWidth 32 ||| hi.setWidth 32 <<< 8

/-- The data of a stored block (lines 182–196). -/
def storedData (len : Word) : PuffM ℤ := do
  let s ← get
  if s.incnt + len > s.inlen then pure 2
  else if s.out ≠ 0 then
    if s.outcnt + len > s.outlen then pure 1
    else do
      copyIn len.toNat
      pure 0
  else do
    modify fun s => { s with outcnt := s.outcnt + len, incnt := s.incnt + len }
    pure 0

/-- `stored` (lines 164–197). -/
def stored : PuffM ℤ := do
  modify fun s => { s with bitbuf := 0, bitcnt := 0 }
  let s ← get
  if s.incnt + 4 > s.inlen then pure 2
  else do
    let lo ← nextIn
    let hi ← nextIn
    let nlo ← nextIn
    if nlo.setWidth 32 ≠ ~~~(storedLen lo hi) &&& 0xff then pure (-2)
    else do
      let nhi ← nextIn
      if nhi.setWidth 32 ≠ ~~~(storedLen lo hi) >>> 8 &&& 0xff then pure (-2)
      else storedData (storedLen lo hi)

/-! ## Tables -/

/-- An array of `short`; an element is `none` until it is written. -/
abbrev Shorts := List (Option ℕ)

/-- `a[i]`. -/
def Shorts.read (a : Shorts) (i : ℕ) : Option ℕ := a[i]?.join

/-- `a[i] = v`. -/
def Shorts.write (a : Shorts) (i v : ℕ) : Option Shorts :=
  if i < a.length then some (a.set i (some v)) else none

/-- `struct huffman` (lines 206–209). -/
structure Huffman where
  count : Shorts
  symbol : Shorts

/-- A table for `n` symbols before the first `construct`. -/
def emptyTable (n : ℕ) : Huffman :=
  ⟨List.replicate (maxBits + 1) none, List.replicate n none⟩

/-- The loop of the `decode` under `SLOW` (lines 244–253). -/
def decodeSlowLoop (h : Huffman) : ℕ → ℕ → ℕ → ℕ → ℕ → PuffM ℤ
  | 0, _, _, _, _ => pure (-10)
  | n + 1, len, code, first, index => do
    let code := code ||| (← bits 1)
    let count ← checked (h.count.read len)
    if (code : ℤ) - count < first then do
      let symbol ← checked (h.symbol.read (index + (code - first)))
      pure symbol
    else
      decodeSlowLoop h n (len + 1) (code <<< 1) ((first + count) <<< 1) (index + count)

/-- The `decode` under `SLOW` (lines 235–255). -/
def decodeSlow (h : Huffman) : PuffM ℤ := decodeSlowLoop h maxBits 1 0 0 0

/-- The local variables of `decode`; `next` is `h->count + len`. -/
structure DecodeVars where
  bitbuf : ℕ
  len : ℕ
  code : ℕ
  first : ℕ
  index : ℕ

/-- The loop `while (left--)` of `decode` (lines 280–294): the symbol it returns or the
    variables with which it ends. -/
def decodeBits (h : Huffman) : ℕ → DecodeVars → PuffM (DecodeVars ⊕ ℕ)
  | 0, v => pure (.inl v)
  | left + 1, v => do
    let code := v.code ||| (v.bitbuf &&& 1)
    let bitbuf := v.bitbuf >>> 1
    let count ← checked (h.count.read v.len)
    if (code : ℤ) - count < v.first then do
      -- `& 7` of a negative number is its remainder
      modify fun s =>
        { s with bitbuf := bitbuf, bitcnt := (((s.bitcnt : ℤ) - v.len) % 8).toNat }
      let symbol ← checked (h.symbol.read (v.index + (code - v.first)))
      pure (.inr symbol)
    else
      decodeBits h left
        { bitbuf := bitbuf, len := v.len + 1, code := code <<< 1,
          first := (v.first + count) <<< 1, index := v.index + count }

/-- The outer loop of `decode` (lines 279–303). -/
def decodeLoop (h : Huffman) : ℕ → ℕ → DecodeVars → PuffM ℤ
  | 0, _, _ => stop .endless
  | fuel + 1, left, v => do
    match ← decodeBits h left v with
    | .inr symbol => pure symbol
    | .inl v =>
      let left := maxBits + 1 - v.len
      if left = 0 then pure (-10)
      else do
        let s ← get
        if s.incnt = s.inlen then stop .longjmp
        else do
          let b ← nextIn
          decodeLoop h fuel (if left > 8 then 8 else left) { v with bitbuf := b.toNat }

/-- `decode` (lines 263–305). -/
def decode (h : Huffman) : PuffM ℤ := do
  let s ← get
  decodeLoop h (maxBits + 1) s.bitcnt
    { bitbuf := s.bitbuf, len := 1, code := 0, first := 0, index := 0 }

/-- The loop of `construct` that counts the lengths (lines 350–351). -/
def countLengths (length : Shorts) (n : ℕ) (count : Shorts) : Option Shorts :=
  (List.range n).foldlM (fun count symbol => do
    let len ← length.read symbol
    count.write len ((← count.read len) + 1)) count

/-- The loop of `construct` that checks for an over-subscribed set (lines 357–362). -/
def checkLeft (count : Shorts) : List ℕ → ℤ → Option ℤ
  | [], left => some left
  | len :: lens, left => do
    let left := 2 * left - (← count.read len)
    if left < 0 then some left else checkLeft count lens left

/-- The offsets of `construct` into the symbol table (lines 365–367). -/
def offsets (count : Shorts) : Option Shorts := do
  let offs ← Shorts.write (List.replicate (maxBits + 1) none) 1 0
  (List.range' 1 (maxBits - 1)).foldlM (fun offs len => do
    offs.write (len + 1) ((← offs.read len) + (← count.read len))) offs

/-- The loop of `construct` that sorts the symbols (lines 373–375). -/
def sortSymbols (length : Shorts) (n : ℕ) (offs symbols : Shorts) : Option (Shorts × Shorts) :=
  (List.range n).foldlM (fun (os : Shorts × Shorts) symbol => do
    let len ← length.read symbol
    if len ≠ 0 then do
      let off ← os.1.read len
      let symbols ← os.2.write off symbol
      let offs ← os.1.write len (off + 1)
      pure (offs, symbols)
    else pure os) (offs, symbols)

/-- `construct` (lines 340–379): the value it returns and the table it leaves. -/
def construct (h : Huffman) (length : Shorts) (n : ℕ) : Option (ℤ × Huffman) := do
  let count ← (List.range (maxBits + 1)).foldlM (fun count len => Shorts.write count len 0) h.count
  let count ← countLengths length n count
  if (← count.read 0) = n then pure (0, ⟨count, h.symbol⟩)
  else do
    let left ← checkLeft count (List.range' 1 maxBits) 1
    if left < 0 then pure (left, ⟨count, h.symbol⟩)
    else do
      let offs ← offsets count
      let (_, symbol) ← sortSymbols length n offs h.symbol
      pure (left, ⟨count, symbol⟩)

/-! ## Blocks -/

/-- Size base for length codes 257..285 (lines 443–445). -/
def lens : List ℕ :=
  [3, 4, 5, 6, 7, 8, 9, 10, 11, 13, 15, 17, 19, 23, 27, 31, 35, 43, 51, 59, 67, 83, 99, 115, 131,
    163, 195, 227, 258]

/-- Extra bits for length codes 257..285 (lines 446–448). -/
def lext : List ℕ :=
  [0, 0, 0, 0, 0, 0, 0, 0, 1, 1, 1, 1, 2, 2, 2, 2, 3, 3, 3, 3, 4, 4, 4, 4, 5, 5, 5, 5, 0]

/-- Offset base for distance codes 0..29 (lines 449–452). -/
def dists : List ℕ :=
  [1, 2, 3, 4, 5, 7, 9, 13, 17, 25, 33, 49, 65, 97, 129, 193, 257, 385, 513, 769, 1025, 1537, 2049,
    3073, 4097, 6145, 8193, 12289, 16385, 24577]

/-- Extra bits for distance codes 0..29 (lines 453–456). -/
def dext : List ℕ :=
  [0, 0, 0, 0, 1, 1, 2, 2, 3, 3, 4, 4, 5, 5, 6, 6, 7, 7, 8, 8, 9, 9, 10, 10, 11, 11, 12, 12, 13, 13]

/-- A literal in `codes` (lines 463–471); `0` means that the loop goes on. -/
def literal (symbol : ℕ) : PuffM ℤ := do
  let s ← get
  if s.out ≠ 0 then
    if s.outcnt = s.outlen then pure 1
    else do
      putOut (BitVec.ofNat 8 symbol)
      pure 0
  else do
    modify fun s => { s with outcnt := s.outcnt + 1 }
    pure 0

/-- The loop that copies from `dist` bytes back (lines 493–501). -/
def copyBack (dist : ℕ) : ℕ → PuffM Unit
  | 0 => pure ()
  | len + 1 => do
    putOut (← backOut dist)
    copyBack dist len

/-- The copy in `codes` (lines 485–504); `0` means that the loop goes on. -/
def copy (len dist : ℕ) : PuffM ℤ := do
  let s ← get
  if BitVec.ofNat 32 dist > s.outcnt then pure (-11)
  else if s.out ≠ 0 then
    if s.outcnt + BitVec.ofNat 32 len > s.outlen then pure 1
    else do
      copyBack dist len
      pure 0
  else do
    modify fun s => { s with outcnt := s.outcnt + BitVec.ofNat 32 len }
    pure 0

/-- A length and distance pair in `codes` (lines 472–505); `0` means that the loop
    goes on. -/
def lengthDistance (distcode : Huffman) (symbol : ℕ) : PuffM ℤ := do
  let symbol := symbol - 257
  if symbol ≥ 29 then pure (-10)
  else do
    let len := (← checked lens[symbol]?) + (← bits (← checked lext[symbol]?))
    let symbol ← decode distcode
    if symbol < 0 then pure symbol
    else do
      let dist := (← checked dists[symbol.toNat]?) + (← bits (← checked dext[symbol.toNat]?))
      copy len dist

/-- The loop of `codes` (lines 459–506). -/
def codesLoop (lencode distcode : Huffman) : ℕ → PuffM ℤ
  | 0 => stop .endless
  | fuel + 1 => do
    let symbol ← decode lencode
    if symbol < 0 then pure symbol
    else if symbol < 256 then do
      let err ← literal symbol.toNat
      if err ≠ 0 then pure err else codesLoop lencode distcode fuel
    else if symbol > 256 then do
      let err ← lengthDistance distcode symbol.toNat
      if err ≠ 0 then pure err else codesLoop lencode distcode fuel
    else pure 0

/-- `codes` (lines 436–510). -/
def codes (lencode distcode : Huffman) : PuffM ℤ := do
  let s ← get
  codesLoop lencode distcode (8 * s.inlen.toNat + 8)

/-- The lengths of the fixed literal and length codes (lines 555–562). -/
def fixedLengths : List ℕ :=
  List.replicate 144 8 ++ List.replicate 112 9 ++ List.replicate 24 7 ++ List.replicate 8 8

/-- The lengths of the fixed distance codes (lines 566–567). -/
def fixedDistLengths : List ℕ := List.replicate maxDCodes 5

/-- The tables of `fixed` (lines 544–572). -/
def fixedTables : Option (Huffman × Huffman) := do
  let (_, lencode) ← construct (emptyTable fixLCodes) (fixedLengths.map some) fixLCodes
  let (_, distcode) ← construct (emptyTable maxDCodes) (fixedDistLengths.map some) maxDCodes
  pure (lencode, distcode)

/-- `fixed` (lines 536–576). -/
def fixed : PuffM ℤ := do
  let (lencode, distcode) ← checked fixedTables
  codes lencode distcode

/-- The permutation of code length codes (lines 674–675). -/
def order : List ℕ := [16, 17, 18, 0, 8, 7, 9, 6, 10, 5, 11, 4, 12, 3, 13, 2, 14, 1, 15]

/-- The loop that reads the code length code lengths (lines 691–692); `index` runs
    over `indices`. -/
def readCodeLengths : List ℕ → Shorts → PuffM Shorts
  | [], lengths => pure lengths
  | index :: indices, lengths => do
    let len ← bits 3
    let lengths ← checked (lengths.write (← checked order[index]?) len)
    readCodeLengths indices lengths

/-- The loop that clears the missing ones (lines 693–694). -/
def clearCodeLengths (indices : List ℕ) (lengths : Shorts) : Option Shorts :=
  indices.foldlM (fun lengths index => do lengths.write (← order[index]?) 0) lengths

/-- `while (symbol--) lengths[index++] = len` (lines 726–727). -/
def fillLengths (len : ℕ) : ℕ → ℕ → Shorts → Option Shorts
  | 0, _, lengths => some lengths
  | n + 1, index, lengths => do fillLengths len n (index + 1) (← lengths.write index len)

/-- The length that a repeat instruction repeats (lines 713–717). -/
def repeatLength (symbol : ℤ) (index : ℕ) (lengths : Shorts) : Option ℕ :=
  if symbol = 16 then lengths.read (index - 1) else some 0

/-- How many times it does (lines 718–723). -/
def repeatCount (symbol : ℤ) : PuffM ℕ :=
  if symbol = 16 then do
    let n ← bits 2
    pure (3 + n)
  else if symbol = 17 then do
    let n ← bits 3
    pure (3 + n)
  else do
    let n ← bits 7
    pure (11 + n)

/-- The loop that reads the code lengths (lines 702–729): the array or the value that is
    returned. `total` is `nlen + ndist`. -/
def readLengths (lencode : Huffman) (total : ℕ) : ℕ → ℕ → Shorts → PuffM (ℤ ⊕ Shorts)
  | 0, _, _ => stop .endless
  | fuel + 1, index, lengths =>
    if index < total then do
      let symbol ← decode lencode
      if symbol < 0 then pure (.inl symbol)
      else if symbol < 16 then do
        let lengths ← checked (lengths.write index symbol.toNat)
        readLengths lencode total fuel (index + 1) lengths
      else if symbol = 16 ∧ index = 0 then pure (.inl (-5))
      else do
        let len ← checked (repeatLength symbol index lengths)
        let count ← repeatCount symbol
        if index + count > total then pure (.inl (-6))
        else do
          let lengths ← checked (fillLengths len count index lengths)
          readLengths lencode total fuel (index + count) lengths
    else pure (.inr lengths)

/-- The check of a code that `construct` returned `err` for (lines 737, 742): only a single
    code of length one may be incomplete. -/
def badCode (err : ℤ) (n : ℕ) (h : Huffman) : PuffM Bool := do
  let unused ← checked (h.count.read 0)
  let single ← checked (h.count.read 1)
  pure (decide (err ≠ 0 ∧ (err < 0 ∨ n ≠ unused + single)))

/-- The code descriptions are read: build the tables and decode (lines 731–746). -/
def dynamicCodes (lencode : Huffman) (nlen ndist : ℕ) (lengths : Shorts) : PuffM ℤ := do
  if (← checked (lengths.read 256)) = 0 then pure (-9)
  else do
    let (err, lencode) ← checked (construct lencode lengths nlen)
    if ← badCode err nlen lencode then pure (-7)
    else do
      let (err, distcode) ← checked (construct (emptyTable maxDCodes) (lengths.drop nlen) ndist)
      if ← badCode err ndist distcode then pure (-8)
      else codes lencode distcode

/-- `dynamic` (lines 665–747). -/
def dynamic : PuffM ℤ := do
  let nlen := (← bits 5) + 257
  let ndist := (← bits 5) + 1
  let ncode := (← bits 4) + 4
  if nlen > maxLCodes ∨ ndist > maxDCodes then pure (-3)
  else do
    let lengths ← readCodeLengths (List.range ncode) (List.replicate maxCodes none)
    let lengths ← checked (clearCodeLengths (List.range' ncode (19 - ncode)) lengths)
    let (err, lencode) ← checked (construct (emptyTable maxLCodes) lengths 19)
    if err ≠ 0 then pure (-4)
    else do
      match ← readLengths lencode (nlen + ndist) (nlen + ndist + 1) 0 lengths with
      | .inl err => pure err
      | .inr lengths => dynamicCodes lencode nlen ndist lengths

/-- A block of the given type (lines 822–828). -/
def block (type : ℕ) : PuffM ℤ :=
  if type = 0 then stored
  else if type = 1 then fixed
  else if type = 2 then dynamic
  else pure (-1)

/-- The loop over the blocks (lines 819–831). -/
def blocks : ℕ → PuffM ℤ
  | 0 => stop .endless
  | fuel + 1 => do
    let last ← bits 1
    let type ← bits 2
    let err ← block type
    if err ≠ 0 then pure err
    else if last ≠ 0 then pure 0
    else blocks fuel

/-- The state with which `puff` begins (lines 802–812). -/
def puffInit (m : Mem) (dest destlen source sourcelen : Word) : State where
  mem := m
  out := dest
  outlen := destlen
  outcnt := 0
  inp := source
  inlen := sourcelen
  incnt := 0
  bitbuf := 0
  bitcnt := 0

/-- The blocks of the whole input, and the state after them. -/
def puffBlocks (m : Mem) (dest destlen source sourcelen : Word) : Except Stop ℤ × State :=
  blocks (8 * sourcelen.toNat + 8) (puffInit m dest destlen source sourcelen)

/-- `err` after the blocks (lines 815–832), if they are defined. -/
def puffErr : Except Stop ℤ → Option ℤ
  | .ok err => some err
  | .error .longjmp => some 2
  | .error _ => none

/-- `puff` (lines 793–840), if it is defined. -/
def puff? (m : Mem) (dest destlen source sourcelen : Word) : Option PuffResult := do
  let r := puffBlocks m dest destlen source sourcelen
  let err ← puffErr r.1
  let out := if dest = 0 then [] else readBytes r.2.mem dest r.2.outcnt.toNat
  if err ≤ 0 then pure ⟨err, out, r.2.outcnt, r.2.incnt⟩
  else pure ⟨err, out, destlen, sourcelen⟩

/-- `puff`. -/
def puff : Puff := fun m dest destlen source sourcelen =>
  (puff? m dest destlen source sourcelen).getD ⟨2, [], destlen, sourcelen⟩

end BBoot.Inflate
