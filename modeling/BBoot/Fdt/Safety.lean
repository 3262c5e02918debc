import BBoot.Fdt.Basic

/-!
# When `fdt_find_prop` stays inside the blob

`fdt_check` compares the magic number and nothing else; no function looks at
`totalsize`. `WalkInside` is the condition on the blob: following the tokens
leads to one the walk ends at, and every token up to there is inside.

Results:
* `walkInside_of_safe`, `safe_of_walkInside`: the two directions.
* `fdtFindProp_safe_iff`: the call terminates and reads only inside
  `[0, totalsize)` exactly when the walk from `off_dt_struct` is `WalkInside`.
* `loopingBlob_unsafe`: two blobs that pass `fdt_check`, one read past its end
  and one that is walked for ever.
-/

namespace BBoot.Fdt

/-- The call returns, and every tag, node name, property header and property
    name it reads has an offset from `fdt` in `[0, totalsize)`. -/
structure Safe (m : Mem) (fdt : Word) (node prop : CStr) : Prop where
  terminates : ∃ r, FdtReturns m fdt node prop r
  inside : ∀ fuel, (fdtFindProp m fdt node prop fuel).Within fdt (fdtHeader m fdt).totalsize.toNat

/-- The four bytes of a tag or of a header field. -/
def cell (p : Word) : Access := ⟨p, 4⟩

/-- The bytes `!strcmp(p, q)` compares, up to the first one that differs. -/
def comparedAt (m : Mem) (p : Word) (q : CStr) : Access :=
  ⟨p, (commonPrefix m p q.bytes).1 + 1⟩

section Walk

variable (m : Mem) (base : Word) (size : ℕ) (strings : Word) (node prop : CStr)

/-- The tokens from `p` on lie inside `[base, base + size)` up to one the walk
    ends at; `d` and `t` are the depth and whether the target node is open. -/
inductive WalkInside : Word → ℤ → Bool → Prop
  /-- `FDT_END` or an unknown tag. -/
  | fin {p d t} (tag : (cell p).Within base size)
      (other : load32 m p ∉ [fdtBeginNode, fdtEndNode, fdtPropTag, fdtNop]) : WalkInside p d t
  | nop {p d t} (tag : (cell p).Within base size) (is : load32 m p = fdtNop)
      (rest : WalkInside (p + 4) d t) : WalkInside p d t
  /-- A node whose name is terminated inside. -/
  | beginNode {p d t} (n : CStr) (tag : (cell p).Within base size)
      (is : load32 m p = fdtBeginNode) (name : CStrAt m (p + 4) n)
      (nameInside : Access.Within ⟨p + 4, n.bytes.length + 1⟩ base size)
      (rest : WalkInside (p + 4 + align4 (BitVec.ofNat 32 n.bytes.length + 1)) (d + 1)
        (t || (d + 1 = 2 && n = node))) : WalkInside p d t
  /-- The end of the target node, or of one that was never begun. -/
  | leave {p d t} (tag : (cell p).Within base size) (is : load32 m p = fdtEndNode)
      (stop : d = 2 ∧ t = true ∨ d < 1) : WalkInside p d t
  | endNode {p d t} (tag : (cell p).Within base size) (is : load32 m p = fdtEndNode)
      (go : ¬ (d = 2 ∧ t = true) ∧ 1 ≤ d) (rest : WalkInside (p + 4) (d - 1) false) :
      WalkInside p d t
  /-- A property of the target node with the name asked for. -/
  | found {p d} (tag : (cell p).Within base size) (is : load32 m p = fdtPropTag)
      (len : (cell (p + 4)).Within base size) (nameoff : (cell (p + 4 + 4)).Within base size)
      (nameInside : (comparedAt m (strings + load32 m (p + 4 + 4)) prop).Within base size)
      (same : (commonPrefix m (strings + load32 m (p + 4 + 4)) prop.bytes).2 = true) :
      WalkInside p d true
  /-- Any other property; its name is compared only in the target node. -/
  | prop {p d t} (tag : (cell p).Within base size) (is : load32 m p = fdtPropTag)
      (len : (cell (p + 4)).Within base size) (nameoff : (cell (p + 4 + 4)).Within base size)
      (nameInside : t = true →
        (comparedAt m (strings + load32 m (p + 4 + 4)) prop).Within base size ∧
        (commonPrefix m (strings + load32 m (p + 4 + 4)) prop.bytes).2 = false)
      (rest : WalkInside (p + 4 + 8 + align4 (load32 m (p + 4))) d t) : WalkInside p d t

variable {m base size strings node prop}

theorem fdt32_within (p : Word) :
    (fdt32 m p).Within base size ↔ (cell p).Within base size := by
  simp [fdt32, cell]

/-- The reads of a walk are those of its first pass and of the walk after it. -/
theorem fdtLoop_within (fuel : ℕ) (s : FdtWalk) :
    (fdtLoop m strings node prop (fuel + 1) s).Within base size ↔
      (fdtBody m strings node prop s).Within base size ∧
        ∀ s', (fdtBody m strings node prop s).val = some (.next s') →
          (fdtLoop m strings node prop fuel s').Within base size := by
  rw [fdtLoop, Reads.within_bind]
  refine and_congr_right fun _ => ⟨fun h s' hs' => h _ hs', fun h f hf => ?_⟩
  cases f with
  | next s' => exact h s' hf
  | ret r => exact Reads.within_pure _ _ _

theorem fdtLoop_zero_within (s : FdtWalk) :
    (fdtLoop m strings node prop 0 s).Within base size := by
  simp [fdtLoop, Reads.Within]

/-- A pass that ends the walk. -/
theorem safe_ret {s : FdtWalk} {r : Option (Word × Word)}
    (hval : (fdtBody m strings node prop s).val = some (.ret r))
    (hin : (fdtBody m strings node prop s).Within base size) :
    (∃ fuel r, (fdtLoop m strings node prop fuel s).val = some r) ∧
      ∀ fuel, (fdtLoop m strings node prop fuel s).Within base size := by
  refine ⟨⟨1, r, fdtLoop_ret 0 hval⟩, fun fuel => ?_⟩
  cases fuel with
  | zero => exact fdtLoop_zero_within s
  | succ fuel =>
    rw [fdtLoop_within]
    refine ⟨hin, fun s' hs' => ?_⟩
    rw [hval] at hs'
    cases hs'

/-- A pass before a walk that is safe. -/
theorem safe_next {s s' : FdtWalk}
    (hval : (fdtBody m strings node prop s).val = some (.next s'))
    (hin : (fdtBody m strings node prop s).Within base size)
    (h : (∃ fuel r, (fdtLoop m strings node prop fuel s').val = some r) ∧
      ∀ fuel, (fdtLoop m strings node prop fuel s').Within base size) :
    (∃ fuel r, (fdtLoop m strings node prop fuel s).val = some r) ∧
      ∀ fuel, (fdtLoop m strings node prop fuel s).Within base size := by
  obtain ⟨⟨fuel, r, hr⟩, hall⟩ := h
  refine ⟨⟨fuel + 1, r, by rw [fdtLoop_next fuel hval, hr]⟩, fun fuel => ?_⟩
  cases fuel with
  | zero => exact fdtLoop_zero_within s
  | succ fuel =>
    rw [fdtLoop_within]
    refine ⟨hin, fun s'' hs'' => ?_⟩
    rw [hval] at hs''
    cases hs''
    exact hall fuel

/-- Every pass reads its tag. -/
theorem fdtBody_tag {s : FdtWalk} (h : (fdtBody m strings node prop s).Within base size) :
    (cell s.p).Within base size := by
  rw [fdtBody, Reads.within_bind, fdt32_within] at h
  exact h.1

section BeginNode

variable {p : Word} {d : ℤ} {t : Bool} (is : load32 m p = fdtBeginNode)

include is

theorem fdtBody_beginNode_val :
    (fdtBody m strings node prop ⟨p, d, t⟩).val =
      (strlen m (p + 4)).val.bind fun nlen =>
        (andStrcmpEq (d + 1 = 2) m (p + 4) node).val.bind fun isTarget =>
          some (.next ⟨p + 4 + align4 (BitVec.ofNat 32 nlen + 1), d + 1, t || isTarget⟩) := by
  unfold fdtBody fdt32
  rw [Reads.val_bind, Reads.val_access, Option.bind_some, is, if_pos rfl, Reads.val_bind]
  simp only [Reads.val_bind, Reads.val_pure]

theorem fdtBody_beginNode_within :
    (fdtBody m strings node prop ⟨p, d, t⟩).Within base size ↔
      (cell p).Within base size ∧ (strlen m (p + 4)).Within base size ∧
        ∀ nlen, (strlen m (p + 4)).val = some nlen →
          (andStrcmpEq (d + 1 = 2) m (p + 4) node).Within base size := by
  unfold fdtBody
  rw [Reads.within_bind, fdt32_within]
  simp only [fdt32, Reads.val_access, Option.some.injEq, forall_eq', is, if_true,
    Reads.within_bind, Reads.within_pure, implies_true, and_true]

end BeginNode

section Property

variable {p : Word} {d : ℤ} {t : Bool} (is : load32 m p = fdtPropTag)

include is

theorem fdtBody_prop_val :
    (fdtBody m strings node prop ⟨p, d, t⟩).val =
      some (if t = true ∧ (commonPrefix m (strings + load32 m (p + 4 + 4)) prop.bytes).2 = true
        then .ret (some (p + 4 + 8, load32 m (p + 4)))
        else .next ⟨p + 4 + 8 + align4 (load32 m (p + 4)), d, t⟩) := by
  unfold fdtBody fdt32
  rw [Reads.val_bind, Reads.val_access, Option.bind_some, is, if_neg (by decide),
    if_neg (by decide), if_pos rfl]
  simp only [Reads.val_bind, Reads.val_access, Option.bind_some]
  cases t with
  | false => rfl
  | true =>
    simp only [andStrcmpEq, strcmpEq, if_true, Reads.val_access, Option.bind_some, true_and]
    split_ifs <;> rfl

theorem fdtBody_prop_within :
    (fdtBody m strings node prop ⟨p, d, t⟩).Within base size ↔
      (cell p).Within base size ∧ (cell (p + 4)).Within base size ∧
        (cell (p + 4 + 4)).Within base size ∧
        (t = true → (comparedAt m (strings + load32 m (p + 4 + 4)) prop).Within base size) := by
  unfold fdtBody
  rw [Reads.within_bind, fdt32_within]
  have hne : fdtPropTag ≠ fdtBeginNode ∧ fdtPropTag ≠ fdtEndNode := by decide
  simp only [fdt32, Reads.val_access, Option.some.injEq, forall_eq', is, hne.1, hne.2, if_true,
    if_false, Reads.within_bind, Reads.within_access]
  have hret : ∀ b : Bool, (if b = true then (pure (.ret (some (p + 4 + 8, load32 m (p + 4)))) :
      Reads FdtFlow) else pure (.next ⟨p + 4 + 8 + align4 (load32 m (p + 4)), d, t⟩)).Within
      base size := by
    intro b; cases b <;> exact Reads.within_pure _ _ _
  simp only [hret, implies_true, and_true]
  cases t <;> simp [andStrcmpEq, strcmpEq, comparedAt, cell]

end Property

section Other

variable {p : Word} {d : ℤ} {t : Bool}

theorem fdtBody_endNode_eq (is : load32 m p = fdtEndNode) :
    (fdtBody m strings node prop ⟨p, d, t⟩).val =
      some (if d = 2 ∧ t = true ∨ d < 1 then .ret none else .next ⟨p + 4, d - 1, false⟩) := by
  unfold fdtBody fdt32
  rw [Reads.val_bind, Reads.val_access, Option.bind_some, is, if_neg (by decide), if_pos rfl]
  dsimp only
  by_cases h1 : d = 2 ∧ t = true
  · rw [if_pos h1, if_pos (Or.inl h1)]
    rfl
  · by_cases h2 : d < 1
    · rw [if_neg h1, if_pos (by omega), if_pos (Or.inr h2)]
      rfl
    · rw [if_neg h1, if_neg (by omega), if_neg (by tauto)]
      rfl

theorem fdtBody_nop_eq (is : load32 m p = fdtNop) :
    (fdtBody m strings node prop ⟨p, d, t⟩).val = some (.next ⟨p + 4, d, t⟩) := by
  unfold fdtBody fdt32
  rw [Reads.val_bind, Reads.val_access, Option.bind_some, is, if_neg (by decide),
    if_neg (by decide), if_neg (by decide), if_pos rfl]
  rfl

theorem fdtBody_other_eq
    (other : load32 m p ∉ [fdtBeginNode, fdtEndNode, fdtPropTag, fdtNop]) :
    (fdtBody m strings node prop ⟨p, d, t⟩).val = some (.ret none) := by
  simp only [List.mem_cons, List.not_mem_nil, or_false, not_or] at other
  unfold fdtBody fdt32
  rw [Reads.val_bind, Reads.val_access, Option.bind_some, if_neg other.1, if_neg other.2.1,
    if_neg other.2.2.1, if_neg other.2.2.2]
  rfl

/-- The other tags come with nothing else to read. -/
theorem fdtBody_within_tag (h1 : load32 m p ≠ fdtBeginNode) (h3 : load32 m p ≠ fdtPropTag) :
    (fdtBody m strings node prop ⟨p, d, t⟩).Within base size ↔ (cell p).Within base size := by
  unfold fdtBody
  rw [Reads.within_bind, fdt32_within]
  simp only [fdt32, Reads.val_access, Option.some.injEq, forall_eq', h1, h3, if_false]
  refine and_iff_left ?_
  split_ifs <;> exact Reads.within_pure _ _ _

end Other

/-! ## The two directions -/

/-- A walk that is inside and ends is safe. -/
theorem safe_of_walkInside {p : Word} {d : ℤ} {t : Bool}
    (h : WalkInside m base size strings node prop p d t) :
    (∃ fuel r, (fdtLoop m strings node prop fuel ⟨p, d, t⟩).val = some r) ∧
      ∀ fuel, (fdtLoop m strings node prop fuel ⟨p, d, t⟩).Within base size := by
  induction h with
  | fin tag other =>
    have hne : ∀ tag ∈ [fdtBeginNode, fdtEndNode, fdtPropTag, fdtNop], load32 m _ ≠ tag :=
      fun tag hmem heq => other (heq ▸ hmem)
    exact safe_ret (fdtBody_other_eq other)
      ((fdtBody_within_tag (hne _ (by simp)) (hne _ (by simp))).mpr tag)
  | nop tag is _ ih =>
    exact safe_next (fdtBody_nop_eq is)
      ((fdtBody_within_tag (by rw [is]; decide) (by rw [is]; decide)).mpr tag) ih
  | @beginNode p d t n tag is name nameInside _ ih =>
    have hlen := strlen_eq name
    have hle := commonPrefix_le node.noNul name
    refine safe_next ?_ ((fdtBody_beginNode_within is).mpr ⟨tag, ?_, fun nlen _ => ?_⟩) ih
    · rw [fdtBody_beginNode_val is, hlen, Reads.val_access, Option.bind_some,
        andStrcmpEq_val _ name, Option.bind_some]
    · rw [hlen, Reads.within_access]
      exact nameInside
    · unfold andStrcmpEq
      split_ifs
      · rw [strcmpEq, Reads.within_access]
        exact nameInside.mono (by omega)
      · exact Reads.within_pure _ _ _
  | leave tag is stop =>
    exact safe_ret ((fdtBody_endNode_eq is).trans (by rw [if_pos stop]))
      ((fdtBody_within_tag (by rw [is]; decide) (by rw [is]; decide)).mpr tag)
  | endNode tag is go _ ih =>
    exact safe_next ((fdtBody_endNode_eq is).trans (by rw [if_neg (not_or.mpr ⟨go.1, not_lt.mpr go.2⟩)]))
      ((fdtBody_within_tag (by rw [is]; decide) (by rw [is]; decide)).mpr tag) ih
  | found tag is len nameoff nameInside same =>
    exact safe_ret ((fdtBody_prop_val is).trans (by rw [if_pos ⟨rfl, same⟩]))
      ((fdtBody_prop_within is).mpr ⟨tag, len, nameoff, fun _ => nameInside⟩)
  | prop tag is len nameoff nameInside _ ih =>
    refine safe_next ((fdtBody_prop_val is).trans (congrArg some (if_neg ?_)))
      ((fdtBody_prop_within is).mpr ⟨tag, len, nameoff, fun h => (nameInside h).1⟩) ih
    rintro ⟨ht, hsame⟩
    rw [(nameInside ht).2] at hsame
    cases hsame

/-- A walk that returns within `fuel` passes and reads only inside is one
    `WalkInside` describes; by induction on the passes. -/
theorem walkInside_of_safe {p : Word} {d : ℤ} {t : Bool} {fuel : ℕ} {r : Option (Word × Word)}
    (hval : (fdtLoop m strings node prop fuel ⟨p, d, t⟩).val = some r)
    (hin : (fdtLoop m strings node prop fuel ⟨p, d, t⟩).Within base size) :
    WalkInside m base size strings node prop p d t := by
  induction fuel generalizing p d t with
  | zero => simp [fdtLoop] at hval
  | succ fuel ih =>
    obtain ⟨hbody, hnext⟩ := (fdtLoop_within fuel _).mp hin
    have htag := fdtBody_tag hbody
    have hrest : ∀ p' d' t', (fdtBody m strings node prop ⟨p, d, t⟩).val =
        some (.next ⟨p', d', t'⟩) → WalkInside m base size strings node prop p' d' t' := by
      intro p' d' t' hb
      rw [fdtLoop_next fuel hb] at hval
      exact ih hval (hnext _ hb)
    by_cases h1 : load32 m p = fdtBeginNode
    · cases hn : (strlen m (p + 4)).val with
      | none =>
        rw [fdtLoop, Reads.val_bind, fdtBody_beginNode_val h1, hn] at hval
        exact absurd hval (by simp)
      | some nlen =>
        obtain ⟨n, rfl, name, hlen⟩ := exists_of_strlen hn
        have hname := ((fdtBody_beginNode_within h1).mp hbody).2.1
        rw [hlen, Reads.within_access] at hname
        refine .beginNode n htag h1 name hname (hrest _ _ _ ?_)
        rw [fdtBody_beginNode_val h1, hn, Option.bind_some, andStrcmpEq_val _ name,
          Option.bind_some]
    by_cases h2 : load32 m p = fdtEndNode
    · have hb : (fdtBody m strings node prop ⟨p, d, t⟩).val = _ := fdtBody_endNode_eq h2
      by_cases hstop : d = 2 ∧ t = true ∨ d < 1
      · exact .leave htag h2 hstop
      · rw [if_neg hstop] at hb
        obtain ⟨hopen, hdepth⟩ := not_or.mp hstop
        exact .endNode htag h2 ⟨hopen, not_lt.mp hdepth⟩ (hrest _ _ _ hb)
    by_cases h3 : load32 m p = fdtPropTag
    · obtain ⟨-, hlen, hoff, hname⟩ := (fdtBody_prop_within h3).mp hbody
      have hb : (fdtBody m strings node prop ⟨p, d, t⟩).val = _ := fdtBody_prop_val h3
      by_cases hfound :
          t = true ∧ (commonPrefix m (strings + load32 m (p + 4 + 4)) prop.bytes).2 = true
      · obtain ⟨rfl, hsame⟩ := hfound
        exact .found htag h3 hlen hoff (hname rfl) hsame
      · rw [if_neg hfound] at hb
        refine .prop htag h3 hlen hoff (fun ht => ⟨hname ht, ?_⟩) (hrest _ _ _ hb)
        simpa [ht] using hfound
    by_cases h4 : load32 m p = fdtNop
    · exact .nop htag h4 (hrest _ _ _ (fdtBody_nop_eq h4))
    · exact .fin htag (by simp [h1, h2, h3, h4])

end Walk

/-- **When the walk is safe.** For every blob, whatever `fdt_check` says of it,
    and all names, `fdt_find_prop` returns and reads tags, names and headers
    only inside `[0, totalsize)` if and only if the tokens from `off_dt_struct`
    on lie inside up to one the walk ends at. -/
theorem fdtFindProp_safe_iff (m : Mem) (fdt : Word) (node prop : CStr) :
    Safe m fdt node prop ↔
      WalkInside m fdt (fdtHeader m fdt).totalsize.toNat (fdt + (fdtHeader m fdt).offDtStrings)
        node prop (fdt + (fdtHeader m fdt).offDtStruct) 0 false := by
  constructor
  · rintro ⟨⟨r, fuel, hval⟩, hin⟩
    exact walkInside_of_safe hval (hin fuel)
  · intro h
    obtain ⟨⟨fuel, r, hval⟩, hin⟩ := safe_of_walkInside h
    exact ⟨⟨r, fuel, hval⟩, hin⟩

/-- A bare header whose structure block is said to start at its end. -/
def headerBlob : List Byte :=
  [0xd0, 0x0d, 0xfe, 0xed, 0, 0, 0, 40, 0, 0, 0, 40, 0, 0, 0, 40, 0, 0, 0, 40, 0, 0, 0, 17,
    0, 0, 0, 16, 0, 0, 0, 0, 0, 0, 0, 0, 0, 0, 0, 0]

/-- A header and one property of length `-12`, which steps back to itself. -/
def loopingBlob : List Byte :=
  [0xd0, 0x0d, 0xfe, 0xed, 0, 0, 0, 52, 0, 0, 0, 40, 0, 0, 0, 52, 0, 0, 0, 52, 0, 0, 0, 17,
    0, 0, 0, 16, 0, 0, 0, 0, 0, 0, 0, 0, 0, 0, 0, 12,
    0, 0, 0, 3, 0xff, 0xff, 0xff, 0xf4, 0, 0, 0, 0]

/-- Both blobs pass `fdt_check`. The walk reads past the end of the first and
    never returns on the second. -/
theorem loopingBlob_unsafe :
    (fdtCheck (memOf 0x1000 headerBlob) 0x1000 = 0 ∧
      ∀ node prop, ¬ Safe (memOf 0x1000 headerBlob) 0x1000 node prop) ∧
    (fdtCheck (memOf 0x1000 loopingBlob) 0x1000 = 0 ∧
      ∀ node prop, ¬ ∃ r, FdtReturns (memOf 0x1000 loopingBlob) 0x1000 node prop r) := by
  refine ⟨⟨by decide, fun node prop h => ?_⟩, by decide, fun node prop => ?_⟩
  · have htag := fdtBody_tag ((fdtLoop_within 0 _).mp (h.inside 1)).1
    have := htag 0 (by decide)
    revert this
    decide
  · rintro ⟨r, fuel, hr⟩
    unfold fdtFindProp at hr
    have hbody : (fdtBody (memOf 0x1000 loopingBlob) 0x1034 node prop
        ⟨0x1028, 0, false⟩).val = some (.next ⟨0x1028, 0, false⟩) :=
      (fdtBody_prop_val (by decide)).trans (by rw [if_neg (by simp)]; decide)
    have hnone : ∀ fuel, (fdtLoop (memOf 0x1000 loopingBlob) 0x1034 node prop fuel
        ⟨0x1028, 0, false⟩).val = none := by
      intro fuel
      induction fuel with
      | zero => rfl
      | succ fuel ih => rw [fdtLoop_next fuel hbody, ih]
    have hstart : fdtStart (memOf 0x1000 loopingBlob) 0x1000 = ⟨0x1028, 0, false⟩ := by decide
    have hstrings : (0x1000 : Word) + (fdtHeader (memOf 0x1000 loopingBlob) 0x1000).offDtStrings =
        0x1034 := by decide
    rw [hstart, hstrings, hnone fuel] at hr
    cases hr

end BBoot.Fdt
