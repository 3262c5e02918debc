import BBoot.Common.Align
import BBoot.Fdt.Basic
import BBoot.Fdt.Tree

/-!
# What `fdt_find_prop` finds

`FdtBlob m fdt root` says that a blob of the tree `root` stands at `fdt`: its
structure block holds the tokens of the tree, with `FDT_NOP` tokens anywhere
between them and any padding, and property names stand anywhere in the strings
block.

Results:
* `fdtLoop_scan`: the walk over memory is the walk over tokens.
* `fdtReturns_chain`: `fdt_find_prop` returns the first match along the chain
  of first subnodes that starts at the named child of the root.
* `fdtFindProp_iff`: it returns what that child itself has exactly when the
  child has the property or no node further down the chain has it.
* `fdtFindProp_same`: on the blobs of two trees with one child in common, the
  answers about that child are the same.
-/

namespace BBoot.Fdt

/-! ## Blobs -/

/-- The length of a token with its padding. -/
def Token.size : Token → ℕ
  | .beginNode n => 4 + alignUp (n.bytes.length + 1) 4
  | .prop p => 12 + alignUp p.data.length 4
  | .endNode | .nop | .fin => 4

/-- The length of a sequence of tokens. -/
def tokensSize (ts : List Token) : ℕ := (ts.map Token.size).sum

/-- A token stands at `p`; its padding is not looked at. -/
def TokenAt (m : Mem) (strings p : Word) : Token → Prop
  | .beginNode n => load32 m p = fdtBeginNode ∧ CStrAt m (p + 4) n
  | .endNode => load32 m p = fdtEndNode
  | .prop q =>
    load32 m p = fdtPropTag ∧ (load32 m (p + 4)).toNat = q.data.length ∧
      CStrAt m (strings + load32 m (p + 4 + 4)) q.name ∧ BytesAt m (p + 4 + 8) q.data
  | .nop => load32 m p = fdtNop
  | .fin => load32 m p = fdtEnd

/-- The tokens stand one after the other from `p` on. -/
def TokensAt (m : Mem) (strings : Word) : Word → List Token → Prop
  | _, [] => True
  | p, t :: ts => TokenAt m strings p t ∧ TokensAt m strings (p + BitVec.ofNat 32 t.size) ts

/-- A blob of the tree `root` stands at `fdt`. -/
structure FdtBlob (m : Mem) (fdt : Word) (root : FdtNode) : Prop where
  magic : fdtCheck m fdt = 0
  tokens : ∃ ts, ts.filter (· ≠ .nop) = root.tokens ++ [.fin] ∧ tokensSize ts < 2 ^ 32 ∧
    TokensAt m (fdt + (fdtHeader m fdt).offDtStrings) (fdt + (fdtHeader m fdt).offDtStruct) ts

/-- A returned pointer and length denote a property, or `NULL` none. -/
def Denotes (m : Mem) : Option (Word × Word) → Option FdtProp → Prop
  | none, none => True
  | some (data, len), some p => len.toNat = p.data.length ∧ BytesAt m data p.data
  | _, _ => False

/-! ## One pass at a token -/

theorem align4_ofNat {n : ℕ} (hn : n < 2 ^ 32) :
    align4 (BitVec.ofNat 32 n) = BitVec.ofNat 32 (alignUp n 4) := by
  have hround : align4 (BitVec.ofNat 32 n) = roundUp (BitVec.ofNat 32 n) (BitVec.twoPow 32 2) := by
    unfold align4 roundUp roundDown
    rw [BitVec.sub_eq_add_neg, BitVec.add_assoc]
    rfl
  apply BitVec.eq_of_toNat_eq
  rw [hround, roundUp_toNat _ (by norm_num), BitVec.toNat_ofNat, BitVec.toNat_ofNat,
    Nat.mod_eq_of_lt hn]
  rfl

section Pass

variable {m : Mem} {strings p : Word} (node prop : CStr) (d : ℤ) (t : Bool)

theorem fdtBody_beginNode {n : CStr} (h : TokenAt m strings p (.beginNode n))
    (hsize : (Token.beginNode n).size < 2 ^ 32) :
    (fdtBody m strings node prop ⟨p, d, t⟩).val =
      some (.next ⟨p + BitVec.ofNat 32 (Token.beginNode n).size, d + 1,
        t || (d + 1 = 2 && n = node)⟩) := by
  obtain ⟨htag, hname⟩ := h
  have hlen : n.bytes.length + 1 < 2 ^ 32 := by
    have := le_alignUp (n.bytes.length + 1) (d := 4) (by norm_num)
    simp only [Token.size] at hsize
    omega
  have hsize : BitVec.ofNat 32 (Token.beginNode n).size =
      4 + align4 (BitVec.ofNat 32 n.bytes.length + 1) := by
    rw [← ofNat_succ, align4_ofNat hlen, Token.size, BitVec.ofNat_add]
    rfl
  unfold fdtBody fdt32
  rw [Reads.val_bind, Reads.val_access, Option.bind_some, htag, if_pos rfl, Reads.val_bind,
    strlen_eq hname, Reads.val_access, Option.bind_some, Reads.val_bind,
    andStrcmpEq_val _ hname, hsize, ← BitVec.add_assoc]
  rfl

theorem fdtBody_endNode (h : TokenAt m strings p .endNode) :
    (fdtBody m strings node prop ⟨p, d, t⟩).val =
      some (if d = 2 ∧ t = true then .ret none else if d - 1 < 0 then .ret none
        else .next ⟨p + 4, d - 1, false⟩) := by
  unfold fdtBody fdt32
  rw [Reads.val_bind, Reads.val_access, Option.bind_some, show load32 m p = fdtEndNode from h,
    if_neg (by decide), if_pos rfl]
  dsimp only
  split_ifs <;> rfl

theorem fdtBody_prop {q : FdtProp} (h : TokenAt m strings p (.prop q)) :
    (fdtBody m strings node prop ⟨p, d, t⟩).val =
      some (if t = true ∧ q.name = prop then .ret (some (p + 4 + 8, load32 m (p + 4)))
        else .next ⟨p + BitVec.ofNat 32 (Token.prop q).size, d, t⟩) := by
  obtain ⟨htag, hlen, hname, -⟩ := h
  have hsize : p + BitVec.ofNat 32 (Token.prop q).size = p + 4 + 8 + align4 (load32 m (p + 4)) := by
    have hlt := (load32 m (p + 4)).isLt
    have hload : load32 m (p + 4) = BitVec.ofNat 32 q.data.length := by rw [← hlen]; simp
    rw [hload, align4_ofNat (by omega), Token.size, BitVec.ofNat_add, ← BitVec.add_assoc,
      BitVec.add_assoc p 4 8]
    rfl
  unfold fdtBody fdt32
  rw [Reads.val_bind, Reads.val_access, Option.bind_some, htag, if_neg (by decide),
    if_neg (by decide), if_pos rfl, Reads.val_bind, Reads.val_access, Option.bind_some,
    Reads.val_bind, Reads.val_access, Option.bind_some, Reads.val_bind, andStrcmpEq_val _ hname,
    hsize, Option.bind_some]
  simp only [Bool.and_eq_true, decide_eq_true_eq]
  split_ifs <;> rfl

theorem fdtBody_nop (h : TokenAt m strings p .nop) :
    (fdtBody m strings node prop ⟨p, d, t⟩).val = some (.next ⟨p + 4, d, t⟩) := by
  unfold fdtBody fdt32
  rw [Reads.val_bind, Reads.val_access, Option.bind_some, show load32 m p = fdtNop from h,
    if_neg (by decide), if_neg (by decide), if_neg (by decide), if_pos rfl]
  rfl

theorem fdtBody_fin (h : TokenAt m strings p .fin) :
    (fdtBody m strings node prop ⟨p, d, t⟩).val = some (.ret none) := by
  unfold fdtBody fdt32
  rw [Reads.val_bind, Reads.val_access, Option.bind_some, show load32 m p = fdtEnd from h,
    if_neg (by decide), if_neg (by decide), if_neg (by decide), if_neg (by decide)]
  rfl

end Pass

/-! ## The walk -/

/-- **The walk over memory is the walk over tokens**: on a token sequence with
    an `FDT_END` it returns what `scan` finds. -/
theorem fdtLoop_scan {m : Mem} {strings p : Word} {ts : List Token} (node prop : CStr)
    (d : ℤ) (t : Bool) (hts : TokensAt m strings p ts) (hsize : tokensSize ts < 2 ^ 32)
    (hfin : .fin ∈ ts) :
    ∃ r, (fdtLoop m strings node prop ts.length ⟨p, d, t⟩).val = some r ∧
      Denotes m r (scan node prop ts d t) := by
  induction ts generalizing p d t with
  | nil => simp at hfin
  | cons tok ts ih =>
    obtain ⟨htok, hrest⟩ := hts
    have hsum : tokensSize (tok :: ts) = tok.size + tokensSize ts := by
      simp [tokensSize]
    have hsize' : tokensSize ts < 2 ^ 32 := by omega
    rw [List.length_cons]
    cases tok with
    | beginNode n =>
      rw [fdtLoop_next _ (fdtBody_beginNode node prop d t htok (by omega)), scan]
      exact ih _ _ hrest hsize' (by simpa using hfin)
    | endNode =>
      have hb := fdtBody_endNode node prop d t htok
      rw [scan]
      split_ifs at hb ⊢ with h1 h2
      · exact ⟨none, fdtLoop_ret _ hb, trivial⟩
      · exact ⟨none, fdtLoop_ret _ hb, trivial⟩
      · rw [fdtLoop_next _ hb]
        exact ih _ _ hrest hsize' (by simpa using hfin)
    | prop q =>
      have hb := fdtBody_prop node prop d t htok
      rw [scan]
      split_ifs at hb ⊢ with h1
      · exact ⟨_, fdtLoop_ret _ hb, htok.2.1, htok.2.2.2⟩
      · rw [fdtLoop_next _ hb]
        exact ih _ _ hrest hsize' (by simpa using hfin)
    | nop =>
      rw [fdtLoop_next _ (fdtBody_nop node prop d t htok), scan]
      exact ih _ _ hrest hsize' (by simpa using hfin)
    | fin => exact ⟨none, fdtLoop_ret _ (fdtBody_fin node prop d t htok), trivial⟩

/-- On the blob of a tree whose root has distinctly named children,
    `fdt_find_prop` returns the first match along the chain of the named child. -/
theorem fdtReturns_chain {m : Mem} {fdt : Word} {root : FdtNode} (hblob : FdtBlob m fdt root)
    (hnames : (root.children.map FdtNode.name).Nodup) (node prop : CStr) :
    ∃ r, FdtReturns m fdt node prop r ∧
      Denotes m r ((root.children.find? (·.name = node)).bind fun c => findProp prop c.chain) := by
  obtain ⟨ts, hfilter, hsize, hts⟩ := hblob.tokens
  have hfin : .fin ∈ ts := by
    have : Token.fin ∈ ts.filter (· ≠ .nop) := by rw [hfilter]; simp
    exact (List.mem_filter.mp this).1
  obtain ⟨r, hr, hden⟩ := fdtLoop_scan node prop 0 false hts hsize hfin
  rw [scan_strip_nop, hfilter, scan_root node prop root hnames] at hden
  exact ⟨r, ⟨ts.length, hr⟩, hden⟩

/-- The child `node` of the root is missing, has the property itself, or none
    of the nodes along its first subnodes has it. -/
def ChainClear (root : FdtNode) (node prop : CStr) : Prop :=
  ∀ c, root.children.find? (·.name = node) = some c →
    (∃ p ∈ c.props, p.name = prop) ∨ ∀ n ∈ firstChain c.children, ∀ p ∈ n.props, p.name ≠ prop

/-- Two answers can only denote the same thing if both are `NULL` or neither is. -/
theorem Denotes.isSome_eq {m : Mem} {r : Option (Word × Word)} {p : Option FdtProp}
    (h : Denotes m r p) : r.isSome = p.isSome := by
  cases r <;> cases p <;> simp [Denotes] at h ⊢

/-- The chain finds what the child itself has, or something further down. -/
theorem chain_eq_lookup_iff (root : FdtNode) (node prop : CStr) :
    ((root.children.find? (·.name = node)).bind fun c => findProp prop c.chain).isSome =
      (lookup root node prop).isSome ↔ ChainClear root node prop := by
  unfold lookup ChainClear
  cases root.children.find? (·.name = node) with
  | none => simp
  | some c =>
    cases c with
    | mk n ps cs =>
      simp only [Option.bind_some, findProp_chain, FdtNode.props_mk, Option.some.injEq, forall_eq',
        FdtNode.children, ← @findProp_eq_none prop (firstChain cs)]
      cases hp : ps.find? (·.name = prop) with
      | some p =>
        have hmem := List.mem_of_find?_eq_some hp
        have hname := List.find?_some hp
        simp only [decide_eq_true_eq] at hname
        simp only [Option.some_or, true_iff]
        exact Or.inl ⟨p, hmem, hname⟩
      | none =>
        have hnone : ¬ ∃ p ∈ ps, p.name = prop := by
          simpa using List.find?_eq_none.mp hp
        simp only [Option.none_or, hnone, false_or]
        cases findProp prop (firstChain cs) <;> simp

/-- Where the child has the property, the chain starts with it. -/
theorem chain_eq_lookup {root : FdtNode} {node prop : CStr} (h : ChainClear root node prop) :
    ((root.children.find? (·.name = node)).bind fun c => findProp prop c.chain) =
      lookup root node prop := by
  have hsome := (chain_eq_lookup_iff root node prop).mpr h
  unfold lookup at hsome ⊢
  cases hc : root.children.find? (·.name = node) with
  | none => rfl
  | some c =>
    rw [hc] at hsome
    cases c with
    | mk n ps cs =>
      simp only [Option.bind_some, findProp_chain, FdtNode.props_mk] at hsome ⊢
      cases hp : ps.find? (·.name = prop) with
      | some p => simp
      | none => simpa [hp] using hsome

/-- **What `fdt_find_prop` finds.** On the blob of every tree whose root has
    distinctly named children, the call returns the data and length of the
    property the direct child of that name itself has, and `NULL` if it has
    none, if and only if that child is missing, has the property, or no node
    along its chain of first subnodes has it. -/
theorem fdtFindProp_iff {m : Mem} {fdt : Word} {root : FdtNode} (hblob : FdtBlob m fdt root)
    (hnames : (root.children.map FdtNode.name).Nodup) (node prop : CStr) :
    (∃ r, FdtReturns m fdt node prop r ∧ Denotes m r (lookup root node prop)) ↔
      ChainClear root node prop := by
  obtain ⟨r, hr, hden⟩ := fdtReturns_chain hblob hnames node prop
  constructor
  · rintro ⟨r', hr', hden'⟩
    rw [← chain_eq_lookup_iff, ← hden.isSome_eq, ← hden'.isSome_eq, hr.unique hr']
  · intro hclear
    rw [chain_eq_lookup hclear] at hden
    exact ⟨r, hr, hden⟩

/-! ## Two blobs with one child in common -/

/-- Two answers are the same: both `NULL`, or the same bytes and length. -/
def SameAnswer (m m' : Mem) : Option (Word × Word) → Option (Word × Word) → Prop
  | none, none => True
  | some (data, len), some (data', len') =>
    len = len' ∧ readBytes m data len.toNat = readBytes m' data' len'.toNat
  | _, _ => False

/-- Answers that denote the same property are the same. -/
theorem Denotes.same {m m' : Mem} {r r' : Option (Word × Word)} {p : Option FdtProp}
    (h : Denotes m r p) (h' : Denotes m' r' p) : SameAnswer m m' r r' := by
  match r, r', p with
  | none, none, none => trivial
  | some (data, len), some (data', len'), some p =>
    obtain ⟨hlen, hbytes⟩ := h
    obtain ⟨hlen', hbytes'⟩ := h'
    refine ⟨BitVec.eq_of_toNat_eq (hlen.trans hlen'.symm), ?_⟩
    rw [hlen, hlen']
    exact hbytes.trans hbytes'.symm

/-- A child is the one found under its name. -/
theorem find?_child {cs : List FdtNode} {c : FdtNode} (hnames : (cs.map FdtNode.name).Nodup)
    (hc : c ∈ cs) : cs.find? (·.name = c.name) = some c := by
  induction cs with
  | nil => simp at hc
  | cons d cs ih =>
    obtain ⟨hnot, hnames⟩ := List.nodup_cons.mp hnames
    rw [List.find?_cons]
    rcases List.mem_cons.mp hc with rfl | hc
    · simp
    · have hne : d.name ≠ c.name := fun heq => hnot (heq ▸ List.mem_map_of_mem hc)
      rw [decide_eq_false hne]
      exact ih hnames hc

/-- **What `fdt_find_prop` answers depends on the child only.** For the blobs of
    any two trees whose roots have distinctly named children and that have the
    child `c`, with all its properties and subnodes, in common, every question
    about a property of `c` is answered with the same bytes and length, or with
    `NULL` both times. -/
theorem fdtFindProp_same {m m' : Mem} {fdt fdt' : Word} {root root' c : FdtNode}
    (hblob : FdtBlob m fdt root) (hblob' : FdtBlob m' fdt' root')
    (hnames : (root.children.map FdtNode.name).Nodup)
    (hnames' : (root'.children.map FdtNode.name).Nodup)
    (hc : c ∈ root.children) (hc' : c ∈ root'.children) (prop : CStr) :
    ∃ r r', FdtReturns m fdt c.name prop r ∧ FdtReturns m' fdt' c.name prop r' ∧
      SameAnswer m m' r r' := by
  obtain ⟨r, hr, hden⟩ := fdtReturns_chain hblob hnames c.name prop
  obtain ⟨r', hr', hden'⟩ := fdtReturns_chain hblob' hnames' c.name prop
  rw [find?_child hnames hc] at hden
  rw [find?_child hnames' hc'] at hden'
  exact ⟨r, r', hr, hr', hden.same hden'⟩

/-! ## A property of a subnode -/

/-- `a`, `b`, `c`, `x` and `y` as names. -/
def letter (b : Byte) (h : b ≠ 0) : CStr := ⟨[b], by simpa using h.symm⟩

/-- A root with a child `a`, whose subnode `b` has the property `x`, and a
    child `c` with the property `y`. -/
def shadowTree : FdtNode :=
  .mk ⟨[], by simp⟩ [] [
    .mk (letter 0x61 (by decide)) [] [
      .mk (letter 0x62 (by decide)) [⟨letter 0x78 (by decide), [42]⟩] []],
    .mk (letter 0x63 (by decide)) [⟨letter 0x79 (by decide), [1, 2, 3, 4]⟩] []]

/-- The tokens of `shadowTree` with an `FDT_NOP` before the end of `a`. -/
def shadowTokens : List Token :=
  [.beginNode ⟨[], by simp⟩, .beginNode (letter 0x61 (by decide)),
    .beginNode (letter 0x62 (by decide)), .prop ⟨letter 0x78 (by decide), [42]⟩, .endNode, .nop,
    .endNode, .beginNode (letter 0x63 (by decide)),
    .prop ⟨letter 0x79 (by decide), [1, 2, 3, 4]⟩, .endNode, .endNode, .fin]

/-- A blob of `shadowTree`: header, structure block at 40, strings block at 128. -/
def shadowBlob : List Byte :=
  [0xd0, 0x0d, 0xfe, 0xed, 0, 0, 0, 132, 0, 0, 0, 40, 0, 0, 0, 128, 0, 0, 0, 132, 0, 0, 0, 17,
    0, 0, 0, 16, 0, 0, 0, 0, 0, 0, 0, 4, 0, 0, 0, 88,
    0, 0, 0, 1, 0, 0, 0, 0,
    0, 0, 0, 1, 0x61, 0, 0, 0,
    0, 0, 0, 1, 0x62, 0, 0, 0,
    0, 0, 0, 3, 0, 0, 0, 1, 0, 0, 0, 0, 42, 0, 0, 0,
    0, 0, 0, 2, 0, 0, 0, 4, 0, 0, 0, 2,
    0, 0, 0, 1, 0x63, 0, 0, 0,
    0, 0, 0, 3, 0, 0, 0, 4, 0, 0, 0, 2, 1, 2, 3, 4,
    0, 0, 0, 2, 0, 0, 0, 2, 0, 0, 0, 9,
    0x78, 0, 0x79, 0]

theorem fdtBlob_shadow : FdtBlob (memOf 0x1000 shadowBlob) 0x1000 shadowTree := by
  refine ⟨by decide, shadowTokens, by decide, by decide, ?_⟩
  unfold shadowTokens
  simp only [TokensAt, TokenAt]
  decide

/-- The child `a` of `shadowTree` has no property `x`, but asking for it returns
    the one of its subnode `b`. -/
theorem shadow_returned :
    FdtBlob (memOf 0x1000 shadowBlob) 0x1000 shadowTree ∧
      (shadowTree.children.map FdtNode.name).Nodup ∧
      lookup shadowTree (letter 0x61 (by decide)) (letter 0x78 (by decide)) = none ∧
      ¬ ∃ r, FdtReturns (memOf 0x1000 shadowBlob) 0x1000 (letter 0x61 (by decide))
          (letter 0x78 (by decide)) r ∧
        Denotes (memOf 0x1000 shadowBlob) r
          (lookup shadowTree (letter 0x61 (by decide)) (letter 0x78 (by decide))) := by
  refine ⟨fdtBlob_shadow, by decide, by decide, ?_⟩
  rintro ⟨r, hr, hden⟩
  obtain ⟨r', hr', hden'⟩ := fdtReturns_chain fdtBlob_shadow (by decide)
    (letter 0x61 (by decide)) (letter 0x78 (by decide))
  have h := hden.isSome_eq
  have h' := hden'.isSome_eq
  rw [hr.unique hr', h'] at h
  revert h
  decide

/-- The child `c` has the property `y`, and it is found. -/
theorem fdtFindProp_shadow :
    ∃ r, FdtReturns (memOf 0x1000 shadowBlob) 0x1000 (letter 0x63 (by decide))
        (letter 0x79 (by decide)) r ∧
      Denotes (memOf 0x1000 shadowBlob) r
        (lookup shadowTree (letter 0x63 (by decide)) (letter 0x79 (by decide))) :=
  (fdtFindProp_iff fdtBlob_shadow (by decide) _ _).mpr (by
    intro c hc
    left
    have : c = .mk (letter 0x63 (by decide)) [⟨letter 0x79 (by decide), [1, 2, 3, 4]⟩] [] := by
      have : some (FdtNode.mk (letter 0x63 (by decide))
          [⟨letter 0x79 (by decide), [1, 2, 3, 4]⟩] []) = some c := by
        rw [← hc]; rfl
      exact (Option.some.inj this).symm
    rw [this]
    exact ⟨_, List.mem_singleton.mpr rfl, rfl⟩)

/-- A root with a property `x`, a child `d` with a subnode `c`, and the child `c`
    of `shadowTree`. -/
def mixedTree : FdtNode :=
  .mk ⟨[], by simp⟩ [⟨letter 0x78 (by decide), [7]⟩] [
    .mk (letter 0x64 (by decide)) [] [
      .mk (letter 0x63 (by decide)) [⟨letter 0x79 (by decide), [9]⟩] []],
    .mk (letter 0x63 (by decide)) [⟨letter 0x79 (by decide), [1, 2, 3, 4]⟩] []]

/-- The tokens of `mixedTree` with two `FDT_NOP`s. -/
def mixedTokens : List Token :=
  [.beginNode ⟨[], by simp⟩, .prop ⟨letter 0x78 (by decide), [7]⟩,
    .beginNode (letter 0x64 (by decide)), .beginNode (letter 0x63 (by decide)),
    .prop ⟨letter 0x79 (by decide), [9]⟩, .endNode, .nop, .endNode,
    .beginNode (letter 0x63 (by decide)), .nop, .prop ⟨letter 0x79 (by decide), [1, 2, 3, 4]⟩,
    .endNode, .endNode, .fin]

/-- A blob of `mixedTree`: structure block at 40, strings block at 148 with the
    two names the other way round. -/
def mixedBlob : List Byte :=
  [0xd0, 0x0d, 0xfe, 0xed, 0, 0, 0, 152, 0, 0, 0, 40, 0, 0, 0, 148, 0, 0, 0, 152, 0, 0, 0, 17,
    0, 0, 0, 16, 0, 0, 0, 0, 0, 0, 0, 4, 0, 0, 0, 108,
    0, 0, 0, 1, 0, 0, 0, 0,
    0, 0, 0, 3, 0, 0, 0, 1, 0, 0, 0, 2, 7, 0, 0, 0,
    0, 0, 0, 1, 0x64, 0, 0, 0,
    0, 0, 0, 1, 0x63, 0, 0, 0,
    0, 0, 0, 3, 0, 0, 0, 1, 0, 0, 0, 0, 9, 0, 0, 0,
    0, 0, 0, 2, 0, 0, 0, 4, 0, 0, 0, 2,
    0, 0, 0, 1, 0x63, 0, 0, 0, 0, 0, 0, 4,
    0, 0, 0, 3, 0, 0, 0, 4, 0, 0, 0, 0, 1, 2, 3, 4,
    0, 0, 0, 2, 0, 0, 0, 2, 0, 0, 0, 9,
    0x79, 0, 0x78, 0]

theorem fdtBlob_mixed : FdtBlob (memOf 0x2000 mixedBlob) 0x2000 mixedTree := by
  refine ⟨by decide, mixedTokens, by decide, by decide, ?_⟩
  unfold mixedTokens
  simp only [TokensAt, TokenAt]
  decide

/-- Both blobs answer the same about the property `y` of `c`. -/
theorem fdtFindProp_shadow_mixed :
    ∃ r r', FdtReturns (memOf 0x1000 shadowBlob) 0x1000 (letter 0x63 (by decide))
        (letter 0x79 (by decide)) r ∧
      FdtReturns (memOf 0x2000 mixedBlob) 0x2000 (letter 0x63 (by decide))
        (letter 0x79 (by decide)) r' ∧
      SameAnswer (memOf 0x1000 shadowBlob) (memOf 0x2000 mixedBlob) r r' := by
  have hc : FdtNode.mk (letter 0x63 (by decide)) [⟨letter 0x79 (by decide), [1, 2, 3, 4]⟩] [] ∈
      shadowTree.children := List.mem_cons_of_mem _ (List.mem_singleton.mpr rfl)
  have hc' : FdtNode.mk (letter 0x63 (by decide)) [⟨letter 0x79 (by decide), [1, 2, 3, 4]⟩] [] ∈
      mixedTree.children := List.mem_cons_of_mem _ (List.mem_singleton.mpr rfl)
  exact fdtFindProp_same fdtBlob_shadow fdtBlob_mixed (by decide) (by decide) hc hc' _

end BBoot.Fdt
