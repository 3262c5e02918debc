import BBoot.Inflate.Decode

/-!
# Building a table

`construct` counts the lengths, checks that they do not take more codes than there
are, and sorts the symbols by length with a counting sort. The `slot` of a symbol
is where it belongs; the offsets are the slots of the next symbol of each length.

Results:
* `construct_spec`: for lengths of at most `15` bits `construct` is defined, it
  returns a negative value exactly for an over-subscribed set, and otherwise the
  table is that of the canonical code with these lengths.
* `construct_kraft`: the sign of what `construct` returns is decided by the Kraft
  sum of the lengths.
* `decode_constructed`: on every table that `construct` makes, both decoders
  return the symbol whose codeword begins the input.
-/

namespace BBoot.Inflate

open PuffM Canonical

/-! ## Arrays and loops over them -/

theorem Shorts.write_eq {a : Shorts} {i : ℕ} (h : i < a.length) (v : ℕ) :
    ∃ b, a.write i v = some b ∧ b.length = a.length ∧ b.read i = some v ∧
      ∀ j, j ≠ i → b.read j = a.read j := by
  refine ⟨a.set i (some v), if_pos h, List.length_set, ?_, fun j hj => ?_⟩
  · rw [Shorts.read, List.getElem?_set_self h, Option.join_some]
  · rw [Shorts.read, List.getElem?_set_ne hj.symm, Shorts.read]

theorem Shorts.read_map_some (l : List ℕ) (i : ℕ) : Shorts.read (l.map some) i = l[i]? := by
  rw [Shorts.read, List.getElem?_map]
  cases l[i]? <;> rfl

/-- A counting loop keeps an invariant that every pass hands on to the next. -/
theorem foldlM_range' {β : Type} {f : β → ℕ → Option β} {P : ℕ → β → Prop} {k n : ℕ} {b : β}
    (h : P k b) (hstep : ∀ i b, k ≤ i → i < k + n → P i b → ∃ b', f b i = some b' ∧ P (i + 1) b') :
    ∃ b', (List.range' k n).foldlM f b = some b' ∧ P (k + n) b' := by
  induction n generalizing k b with
  | zero => exact ⟨b, rfl, h⟩
  | succ n ih =>
    obtain ⟨b₁, hb₁, h₁⟩ := hstep k b le_rfl (by omega) h
    obtain ⟨b', hb', h'⟩ := ih h₁ fun i b hi hlt => hstep i b (by omega) (by omega)
    refine ⟨b', ?_, by rwa [Nat.add_right_comm, Nat.add_assoc] at h'⟩
    rw [List.range'_succ, List.foldlM_cons, hb₁, Option.bind_eq_bind, Option.bind_some, hb']

theorem foldlM_range {β : Type} {f : β → ℕ → Option β} {P : ℕ → β → Prop} {n : ℕ} {b : β}
    (h : P 0 b) (hstep : ∀ i b, i < n → P i b → ∃ b', f b i = some b' ∧ P (i + 1) b') :
    ∃ b', (List.range n).foldlM f b = some b' ∧ P n b' := by
  rw [List.range_eq_range']
  obtain ⟨b', hb', h'⟩ :=
    foldlM_range' (n := n) h fun i b _ hlt => hstep i b (by omega)
  exact ⟨b', hb', by rwa [Nat.zero_add] at h'⟩

/-! ## Counting -/

section Construct

variable {lengths : List ℕ} {length count : Shorts}

/-- The array begins with the lengths. -/
def Begins (length : Shorts) (lengths : List ℕ) : Prop :=
  ∀ s l, lengths[s]? = some l → length.read s = some l

theorem begins_map_some (lengths : List ℕ) : Begins (lengths.map some) lengths := fun s l h => by
  rw [Shorts.read_map_some, h]

/-- The counts of the lengths. -/
structure Counts (count : Shorts) (lengths : List ℕ) : Prop where
  length : count.length = maxBits + 1
  read : ∀ l ≤ maxBits, count.read l = some (lengths.count l)

theorem clear_spec (h : count.length = maxBits + 1) :
    ∃ c, (List.range (maxBits + 1)).foldlM (fun c len => Shorts.write c len 0) count = some c ∧
      Counts c [] := by
  obtain ⟨c, hc, hlen, hread⟩ := foldlM_range (b := count) (n := maxBits + 1)
    (f := fun c len => Shorts.write c len 0)
    (P := fun k c => c.length = maxBits + 1 ∧ ∀ l < k, c.read l = some 0)
    ⟨h, fun l hl => absurd hl (Nat.not_lt_zero l)⟩ (by
      rintro i c hi ⟨hlen, hread⟩
      obtain ⟨c', hc', hlen', hself, hother⟩ := Shorts.write_eq (a := c) (i := i) (by omega) 0
      refine ⟨c', hc', hlen'.trans hlen, fun l hl => ?_⟩
      by_cases heq : l = i
      · rw [heq, hself]
      · rw [hother l heq, hread l (by omega)])
  exact ⟨c, hc, hlen, fun l hl => hread l (Nat.lt_succ_of_le hl)⟩

/-- The counts after the lengths are counted. -/
theorem countLengths_spec (hle : ∀ l ∈ lengths, l ≤ maxBits) (ha : Begins length lengths)
    (hcount : Counts count []) :
    ∃ c, countLengths length lengths.length count = some c ∧ Counts c lengths := by
  obtain ⟨c, hc, hlen, hread⟩ := foldlM_range (b := count) (n := lengths.length)
    (f := fun count symbol => do
      let len ← length.read symbol
      count.write len ((← count.read len) + 1))
    (P := fun k c => Counts c (lengths.take k)) (by rwa [List.take_zero]) (by
      intro i c hi hc
      have hget := List.getElem?_eq_getElem hi
      have hmax := hle _ (List.getElem_mem hi)
      obtain ⟨c', hc', hlen', hself, hother⟩ := Shorts.write_eq (a := c) (i := lengths[i])
        (by rw [hc.length]; omega) ((lengths.take i).count lengths[i] + 1)
      refine ⟨c', ?_, hlen'.trans hc.length, fun l hl => ?_⟩
      · simp only [ha _ _ hget, hc.read _ hmax, Option.bind_eq_bind, Option.bind_some, hc']
      · rw [List.take_add_one, hget, Option.toList_some, List.count_append, List.count_singleton]
        by_cases heq : l = lengths[i]
        · rw [heq, hself, beq_self_eq_true, if_pos rfl]
        · rw [hother l heq, hc.read l hl, if_neg (by simpa using Ne.symm heq), Nat.add_zero])
  rw [List.take_length] at hread
  exact ⟨c, hc, hlen, hread⟩

/-! ## The check -/

/-- What is left of the numbers of `k` bits decides, and it never recovers from being negative. -/
theorem checkLeft_spec (hcount : Counts count lengths) {k n : ℕ} (hk : k + n = maxBits)
    (hfit : used lengths k ≤ 2 ^ k) :
    ∃ err, checkLeft count (List.range' (k + 1) n) (2 ^ k - used lengths k) = some err ∧
      (err < 0 ↔ 2 ^ maxBits < used lengths maxBits) ∧
      (0 ≤ err → err = 2 ^ maxBits - used lengths maxBits) := by
  induction n generalizing k with
  | zero =>
    rw [Nat.add_zero] at hk
    subst hk
    exact ⟨_, rfl, by zify; exact sub_neg, fun _ => rfl⟩
  | succ n ih =>
    have hread := hcount.read (k + 1) (by omega)
    have hstep : 2 * ((2 : ℤ) ^ k - used lengths k) - lengths.count (k + 1) =
        2 ^ (k + 1) - used lengths (k + 1) := by
      rw [used_succ, ofLength_pos (Nat.le_add_left 1 k), pow_succ]
      push_cast
      ring
    rw [List.range'_succ, checkLeft, hread, Option.bind_eq_bind, Option.bind_some, hstep]
    dsimp only
    by_cases hneg : (2 : ℤ) ^ (k + 1) - used lengths (k + 1) < 0
    · rw [if_pos hneg]
      refine ⟨_, rfl, iff_of_true hneg ?_, fun h => absurd hneg (not_lt.mpr h)⟩
      by_contra hle
      have := used_le_of_le (show k + 1 ≤ maxBits by omega) (Nat.not_lt.mp hle)
      zify at this
      omega
    · rw [if_neg hneg]
      exact ih (by omega) (by zify; omega)

/-! ## Sorting -/

theorem offsets_spec (hcount : Counts count lengths) :
    ∃ offs, offsets count = some offs ∧ offs.length = maxBits + 1 ∧
      ∀ l, 1 ≤ l → l ≤ maxBits → offs.read l = some (index lengths l) := by
  obtain ⟨o₁, ho₁, hlen₁, hself₁, -⟩ := Shorts.write_eq
    (a := List.replicate (maxBits + 1) none) (i := 1) (by rw [List.length_replicate]; decide) 0
  obtain ⟨offs, hoffs, hlen, hread⟩ := foldlM_range' (b := o₁) (k := 1) (n := maxBits - 1)
    (f := fun offs len => do
      offs.write (len + 1) ((← offs.read len) + (← count.read len)))
    (P := fun k o => o.length = maxBits + 1 ∧
      ∀ l, 1 ≤ l → l ≤ k → o.read l = some (index lengths l))
    ⟨by rw [hlen₁, List.length_replicate], fun l hl hle => by
      obtain rfl : l = 1 := by omega
      rw [hself₁]
      rfl⟩ (by
      rintro i o hi hlt ⟨hlen, hread⟩
      have hmax : i + 1 ≤ maxBits := by
        have : maxBits = 15 := rfl
        omega
      obtain ⟨o', ho', hlen', hself, hother⟩ := Shorts.write_eq (a := o) (i := i + 1)
        (by omega) (index lengths i + lengths.count i)
      refine ⟨o', ?_, hlen'.trans hlen, fun l hl hle => ?_⟩
      · simp only [hread i hi le_rfl, hcount.read i (by omega), Option.bind_eq_bind,
          Option.bind_some, ho']
      · by_cases heq : l = i + 1
        · rw [heq, hself, index_succ hi]
        · rw [hother l heq, hread l hl (by omega)])
  refine ⟨offs, ?_, hlen, fun l hl hle => hread l hl (by have : maxBits = 15 := rfl; omega)⟩
  rw [offsets, ho₁]
  exact hoffs

theorem sortSymbols_spec (hle : ∀ l ∈ lengths, l ≤ maxBits) (ha : Begins length lengths)
    {offs symbols : Shorts} (hlen : offs.length = maxBits + 1)
    (hoffs : ∀ l, 1 ≤ l → l ≤ maxBits → offs.read l = some (index lengths l))
    (hroom : lengths.length ≤ symbols.length) :
    ∃ os, sortSymbols length lengths.length offs symbols = some os ∧
      os.2.length = symbols.length ∧
      ∀ s l, 1 ≤ l → lengths[s]? = some l → os.2.read (slot lengths s l) = some s := by
  obtain ⟨os, hos, -, hsym, -, hread⟩ := foldlM_range (b := (offs, symbols)) (n := lengths.length)
    (f := fun (os : Shorts × Shorts) symbol => do
      let len ← length.read symbol
      if len ≠ 0 then do
        let off ← os.1.read len
        let symbols ← os.2.write off symbol
        let offs ← os.1.write len (off + 1)
        pure (offs, symbols)
      else pure os)
    (P := fun k os => os.1.length = maxBits + 1 ∧ os.2.length = symbols.length ∧
      (∀ l, 1 ≤ l → l ≤ maxBits → os.1.read l = some (slot lengths k l)) ∧
      ∀ s l, s < k → 1 ≤ l → lengths[s]? = some l → os.2.read (slot lengths s l) = some s)
    ⟨hlen, rfl, fun l hl hmax => by rw [hoffs l hl hmax, slot, rank]; rfl,
      fun s l hs => absurd hs (Nat.not_lt_zero s)⟩ (by
      rintro k ⟨o, sy⟩ hk ⟨hlen, hsym, hoffs, hread⟩
      have hget := List.getElem?_eq_getElem hk
      have hmax := hle _ (List.getElem_mem hk)
      have hslot : ∀ l, slot lengths (k + 1) l =
          slot lengths k l + if lengths[k] = l then 1 else 0 := fun l => by
        rw [slot, slot, rank_succ hget, Nat.add_assoc]
      simp only [ha _ _ hget, Option.bind_eq_bind, Option.bind_some]
      by_cases hzero : lengths[k] = 0
      · -- a symbol without a code is skipped
        rw [if_neg (not_not.mpr hzero)]
        refine ⟨_, rfl, hlen, hsym, fun l hl hmax' => ?_, fun s l hs hl hs' => ?_⟩
        · rw [hoffs l hl hmax', hslot, if_neg (by omega), Nat.add_zero]
        · rcases Nat.lt_succ_iff_lt_or_eq.mp hs with hlt | rfl
          · exact hread s l hlt hl hs'
          · rw [hget, Option.some.injEq] at hs'
            omega
      · rw [if_pos hzero]
        have hpos : 1 ≤ lengths[k] := Nat.one_le_iff_ne_zero.mpr hzero
        have hbound : slot lengths k lengths[k] < sy.length := by
          have := slot_lt hget hpos
          have : index lengths (lengths[k] + 1) ≤ lengths.length := index_le_length _
          dsimp only at hsym
          omega
        obtain ⟨sy', hsy', hlen', hself, hother⟩ := Shorts.write_eq hbound k
        obtain ⟨o', ho', hlen'', hself', hother'⟩ := Shorts.write_eq (a := o) (i := lengths[k])
          (by dsimp only at hlen; omega) (slot lengths k lengths[k] + 1)
        refine ⟨(o', sy'), ?_, hlen''.trans hlen, hlen'.trans hsym, fun l hl hmax' => ?_,
          fun s l hs hl hs' => ?_⟩
        · simp only [hoffs _ hpos hmax, hsy', ho', Option.bind_some]
          rfl
        · rw [hslot]
          by_cases heq : lengths[k] = l
          · rw [if_pos heq, ← heq]
            exact hself'
          · rw [if_neg heq, Nat.add_zero, ← hoffs l hl hmax']
            exact hother' l (Ne.symm heq)
        · by_cases heq : s = k
          · subst heq
            rw [hget, Option.some.injEq] at hs'
            rw [← hs']
            exact hself
          · rw [← hread s l (by omega) hl hs']
            -- slots of different symbols are different
            exact hother _ fun hcon => heq (slot_inj hs' hget hl hpos hcon))
  exact ⟨os, hos, hsym, fun s l hl hs => hread s l (List.getElem?_eq_some_iff.mp hs).1 hl hs⟩

/-! ## The table -/

/-- No symbol has a code. -/
def NoCodes (lengths : List ℕ) : Prop := ∀ l ∈ lengths, l = 0

/-- All numbers of fifteen bits begin with a codeword. -/
def Complete (lengths : List ℕ) : Prop := used lengths maxBits = 2 ^ maxBits

/-- What `construct` returns and leaves. -/
structure Constructed (lengths : List ℕ) (h : Huffman) (err : ℤ) (h' : Huffman) : Prop where
  counts : Counts h'.count lengths
  symbols : h'.symbol.length = h.symbol.length
  neg : err < 0 ↔ 2 ^ maxBits < used lengths maxBits
  zero : err = 0 ↔ NoCodes lengths ∨ Complete lengths
  table : 0 ≤ err → Table lengths h'

theorem used_noCodes (h : NoCodes lengths) (l : ℕ) : used lengths l = 0 := by
  have hcount : ∀ l, ofLength lengths l = 0 := fun l => by
    rw [ofLength]
    split_ifs with h0
    · rfl
    · exact List.count_eq_zero.mpr fun hmem => h0 (h l hmem)
  induction l with
  | zero => rfl
  | succ l ih => rw [used_succ, ih, hcount]

/-- **`construct`** builds the table of the canonical code unless the lengths ask for too many
    codes. -/
theorem construct_spec {h : Huffman} (hle : ∀ l ∈ lengths, l ≤ maxBits)
    (ha : Begins length lengths) (hcount : h.count.length = maxBits + 1)
    (hroom : lengths.length ≤ h.symbol.length) :
    ∃ err h', construct h length lengths.length = some (err, h') ∧
      Constructed lengths h err h' := by
  obtain ⟨c₀, hc₀, hclear⟩ := clear_spec hcount
  obtain ⟨c, hc, hcounts⟩ := countLengths_spec hle ha hclear
  unfold construct
  simp only [hc₀, hc, hcounts.read 0 (Nat.zero_le _), Option.bind_eq_bind, Option.bind_some]
  have hnone : lengths.count 0 = lengths.length ↔ NoCodes lengths := by
    rw [List.count_eq_length]
    exact ⟨fun h l hl => (h l hl).symm, fun h l hl => (h l hl).symm⟩
  by_cases hno : lengths.count 0 = lengths.length
  · rw [if_pos hno]
    have hused := used_noCodes (hnone.mp hno) maxBits
    refine ⟨_, _, rfl, hcounts, rfl, ?_, iff_of_true rfl (.inl (hnone.mp hno)), fun _ => ?_⟩
    · rw [hused]
      simp
    · refine ⟨hle, by rw [hused]; exact Nat.zero_le _, hcounts.read, fun s l hl hs => ?_⟩
      have := hnone.mp hno l (List.mem_of_getElem? hs)
      omega
  · rw [if_neg hno]
    obtain ⟨err, herr, hneg, hval⟩ := checkLeft_spec hcounts (k := 0) (n := maxBits)
      (Nat.zero_add _) (Nat.zero_le _)
    rw [show checkLeft c (List.range' 1 maxBits) 1 = some err from herr]
    simp only [Option.bind_some]
    by_cases hlt : err < 0
    · rw [if_pos hlt]
      refine ⟨_, _, rfl, hcounts, rfl, hneg, iff_of_false hlt.ne ?_, fun h => absurd hlt (not_lt.mpr h)⟩
      rintro (h0 | hfull)
      · exact hno (hnone.mpr h0)
      · exact absurd (hneg.mp hlt) (by rw [hfull]; exact lt_irrefl _)
    · rw [if_neg hlt]
      obtain ⟨offs, hoffs, hlen, hread⟩ := offsets_spec hcounts
      obtain ⟨os, hos, hsym, hslots⟩ := sortSymbols_spec hle ha hlen hread hroom
      simp only [hoffs, hos, Option.bind_some]
      have hfits : used lengths maxBits ≤ 2 ^ maxBits :=
        Nat.not_lt.mp fun hover => hlt (hneg.mpr hover)
      refine ⟨_, _, rfl, hcounts, hsym, hneg, ?_, fun _ => ⟨hle, hfits, hcounts.read, hslots⟩⟩
      rw [hval (not_lt.mp hlt), or_iff_right fun h0 => hno (hnone.mpr h0), Complete]
      zify
      omega

/-- **The sign of what `construct` returns** compares the Kraft sum of the lengths with one. -/
theorem construct_kraft {h : Huffman} (hle : ∀ l ∈ lengths, l ≤ maxBits)
    (ha : Begins length lengths) (hcount : h.count.length = maxBits + 1)
    (hroom : lengths.length ≤ h.symbol.length) :
    ∃ err h', construct h length lengths.length = some (err, h') ∧
      (err < 0 ↔ 2 ^ maxBits < kraft lengths maxBits) ∧
      (err = 0 ↔ NoCodes lengths ∨ kraft lengths maxBits = 2 ^ maxBits) ∧
      (0 < err ↔ ¬ NoCodes lengths ∧ kraft lengths maxBits < 2 ^ maxBits) := by
  obtain ⟨err, h', heq, hcons⟩ := construct_spec hle ha hcount hroom
  have hneg := hcons.neg
  have hzero := hcons.zero
  rw [Complete, used_eq_kraft] at hzero
  rw [used_eq_kraft] at hneg
  refine ⟨err, h', heq, hneg, hzero, ?_⟩
  constructor
  · intro hpos
    have hno := not_or.mp (hzero.not.mp hpos.ne')
    have hnot := hneg.not.mp (not_lt.mpr hpos.le)
    exact ⟨hno.1, lt_of_le_of_ne (Nat.not_lt.mp hnot) hno.2⟩
  · rintro ⟨hno, hlt⟩
    have h0 := hzero.not.mpr (not_or.mpr ⟨hno, hlt.ne⟩)
    have hge := hneg.not.mpr (Nat.lt_asymm hlt)
    omega

/-- A code with one codeword of one bit and two of two bits is complete. -/
theorem construct_kraft_three :
    ∃ h', construct (emptyTable 3) ([1, 2, 2].map some) 3 = some (0, h') := by
  obtain ⟨err, h', heq, -, hzero, -⟩ := construct_kraft (h := emptyTable 3) (by decide)
    (begins_map_some [1, 2, 2]) (by decide) (by decide)
  have herr := hzero.mpr (.inr (by decide))
  exact ⟨h', herr ▸ heq⟩

/-- **On every table that `construct` makes** both decoders return the symbol whose codeword
    begins the unread bits, `-10` if none does, and leave if there are too few bits to tell; a
    complete code has a codeword for all bits. -/
theorem decode_constructed {h h' : Huffman} {err : ℤ} (hle : ∀ l ∈ lengths, l ≤ maxBits)
    (ha : Begins length lengths) (hcount : h.count.length = maxBits + 1)
    (hroom : lengths.length ≤ h.symbol.length)
    (hcons : construct h length lengths.length = some (err, h')) (herr : 0 ≤ err) {c : Call}
    {room : ℕ} {s : State} {u : List Bool} {o : List Byte} (hc : c.Fits room)
    (hs : Holds c room s u o) :
    (∀ sym : ℕ, (decode h' s).1 = .ok ↑sym ↔ ∃ w, codeword lengths sym = some w ∧ w <+: u) ∧
      ((decode h' s).1 = .ok (-10) ↔ NoCodeword lengths u ∧ maxBits ≤ u.length) ∧
      ((decode h' s).1 = .error .longjmp ↔ NoCodeword lengths u ∧ u.length < maxBits) ∧
      (err = 0 → ¬ NoCodes lengths → (decode h' s).1 ≠ .ok (-10)) ∧
      (decodeSlow h' s).1 = (decode h' s).1 ∧
      ∀ sym : ℕ, (decode h' s).1 = .ok ↑sym → (decodeSlow h' s).2 = (decode h' s).2 := by
  obtain ⟨err', h'', heq, hspec⟩ := construct_spec hle ha hcount hroom
  rw [hcons, Option.some.injEq, Prod.mk.injEq] at heq
  obtain ⟨rfl, rfl⟩ := heq
  have ht := hspec.table herr
  obtain ⟨hval, -, -, hstate⟩ := decode_agrees hc ht hs
  have hno : ∀ sym l, codeword lengths sym = some (u.take l) → ¬ NoCodeword lengths u :=
    fun sym l hw hno => hno sym _ hw (List.take_prefix l u)
  have hcomplete : err = 0 → ¬ NoCodes lengths → maxBits ≤ u.length → ¬ NoCodeword lengths u := by
    intro h0 hsome hu hno
    obtain ⟨sym, w, hw, hpre⟩ :=
      exists_codeword_of_complete ((hspec.zero.mp h0).resolve_left hsome) hu
    exact hno sym w hw hpre
  refine ⟨?_, ?_, ?_, ?_, hval.symm, fun sym hsym => (hstate sym hsym).symm⟩ <;>
    obtain ⟨a, s₁, h₁, hd⟩ | ⟨s₁, h₁, hd⟩ := (decode_ends hc ht hs).cases <;> rw [h₁]
  · intro sym
    rw [Except.ok.injEq]
    exact hd.eq_iff ht sym
  · intro sym
    refine iff_of_false (by simp) ?_
    rintro ⟨w, hw, hpre⟩
    exact hd.noCodeword sym w hw hpre
  · rw [Except.ok.injEq]
    cases hd with
    | symbol hw _ _ => exact iff_of_false (by omega) fun h => hno _ _ hw h.1
    | invalid hno' hu _ _ => exact iff_of_true rfl ⟨hno', hu⟩
  · exact iff_of_false (by simp) fun h => absurd hd.short (Nat.not_lt.mpr h.2)
  · refine iff_of_false (by simp) fun h => ?_
    cases hd with
    | symbol hw _ _ => exact hno _ _ hw h.1
    | invalid _ hu _ _ => exact absurd h.2 (Nat.not_lt.mpr hu)
  · exact iff_of_true rfl ⟨hd.noCodeword, hd.short⟩
  · intro h0 hsome
    cases hd with
    | symbol _ _ _ => simp
    | invalid hno' hu _ _ => exact absurd hno' (hcomplete h0 hsome hu)
  · simp

/-- The bits 1 and 0 stand for the second symbol of the code of `construct_kraft_three`. -/
theorem decode_constructed_three :
    ∃ h', construct (emptyTable 3) ([1, 2, 2].map some) 3 = some (0, h') ∧
      (decode h' (Call.start ⟨fun _ => 5, 0, 0, 0, 1⟩)).1 = .ok ↑(1 : ℕ) := by
  have hc : Call.Fits ⟨fun _ => 5, 0, 0, 0, 1⟩ 0 := ⟨by decide, by decide, fun h => absurd rfl h,
    fun h => absurd rfl h, fun h => absurd rfl h⟩
  obtain ⟨h', hcons⟩ : ∃ h', construct (emptyTable 3) ([1, 2, 2].map some) 3 = some (0, h') :=
    ⟨_, rfl⟩
  refine ⟨h', hcons, ?_⟩
  exact ((decode_constructed (by decide) (begins_map_some [1, 2, 2]) (by decide) (by decide) hcons
    le_rfl hc (Call.holds_start _ 0)).1 1).mpr ⟨[true, false], by decide, by decide⟩

end Construct

end BBoot.Inflate
