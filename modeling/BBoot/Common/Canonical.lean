import BBoot.Common.Bits

/-!
# Canonical prefix codes

A canonical code is given by the lengths of its codewords alone: codes of one
length are consecutive numbers in the order of their symbols, and the first code
of a length follows the last one that is shorter. A symbol of length `0` has no
codeword.

`Past lengths u l` says that no codeword shorter than `l` begins `u`; this is
what a decoder knows that has looked at the bits of `u` one after the other.

Results:
* `codeword_prefix_unique`: at most one codeword begins a list of bits.
* `Found.codeword`, `found_of_codeword`: the codeword that begins it is the one
  whose number lies in the range of its length.
* `exists_codeword_of_complete`: if all numbers of `L` bits are used, one does.
* `used_eq_kraft`: how many of them are used is the Kraft sum.
-/

namespace BBoot.Canonical

variable (lengths : List ℕ)

/-- The number of codewords of length `l`. -/
def ofLength (l : ℕ) : ℕ := if l = 0 then 0 else lengths.count l

/-- The first code of length `l`. -/
def first : ℕ → ℕ
  | 0 => 0
  | l + 1 => 2 * (first l + ofLength lengths l)

/-- The number of codewords shorter than `l`. -/
def index : ℕ → ℕ
  | 0 => 0
  | l + 1 => index l + ofLength lengths l

/-- How many numbers of `l` bits begin with a codeword. -/
def used (l : ℕ) : ℕ := first lengths l + ofLength lengths l

/-- How many symbols before `s` have codewords of length `l`. -/
def rank (s l : ℕ) : ℕ := (lengths.take s).count l

/-- The position of `s`, of length `l`, among the symbols in the order of their codes. -/
def slot (s l : ℕ) : ℕ := index lengths l + rank lengths s l

/-- The codeword of `s`. -/
def codeword (s : ℕ) : Option (List Bool) :=
  match lengths[s]? with
  | none => none
  | some 0 => none
  | some (l + 1) => some (codeBits (l + 1) (first lengths (l + 1) + rank lengths s (l + 1)))

/-- No codeword shorter than `l` begins `u`. -/
def Past (u : List Bool) (l : ℕ) : Prop := ∀ k < l, used lengths k ≤ codeValue (u.take k)

/-- The codeword that begins `u` is number `r` of those of length `l`. -/
structure Found (u : List Bool) (l r : ℕ) : Prop where
  le : l ≤ u.length
  past : Past lengths u l
  value : codeValue (u.take l) = first lengths l + r
  lt : r < ofLength lengths l

variable {lengths}

/-! ## Lengths and ranks -/

@[simp] theorem ofLength_zero : ofLength lengths 0 = 0 := rfl

theorem ofLength_pos {l : ℕ} (h : 1 ≤ l) : ofLength lengths l = lengths.count l :=
  if_neg (by omega)

theorem used_succ (l : ℕ) :
    used lengths (l + 1) = 2 * used lengths l + ofLength lengths (l + 1) := rfl

theorem rank_lt {s l : ℕ} (h : lengths[s]? = some l) : rank lengths s l < lengths.count l := by
  obtain ⟨hs, rfl⟩ := List.getElem?_eq_some_iff.mp h
  have hsplit : lengths.count lengths[s] = (lengths.take s).count lengths[s] +
      (lengths.drop s).count lengths[s] := by
    rw [← List.count_append, List.take_append_drop]
  rw [List.drop_eq_getElem_cons hs, List.count_cons_self] at hsplit
  rw [rank, hsplit]
  omega

theorem rank_lt_rank {s s' l : ℕ} (h : lengths[s]? = some l) (hlt : s < s') :
    rank lengths s l < rank lengths s' l := by
  have htake : (lengths.take s')[s]? = some l := by rw [List.getElem?_take_of_lt hlt, h]
  have hr := rank_lt htake
  rwa [rank, List.take_take, min_eq_left hlt.le] at hr

theorem rank_inj {s s' l : ℕ} (h : lengths[s]? = some l) (h' : lengths[s']? = some l)
    (hr : rank lengths s l = rank lengths s' l) : s = s' := by
  rcases Nat.lt_trichotomy s s' with hlt | heq | hgt
  · have := rank_lt_rank h hlt
    omega
  · exact heq
  · have := rank_lt_rank h' hgt
    omega

theorem rank_succ {s l : ℕ} (h : lengths[s]? = some l) (l' : ℕ) :
    rank lengths (s + 1) l' = rank lengths s l' + if l = l' then 1 else 0 := by
  rw [rank, rank, List.take_add_one, h, List.count_append]
  simp [List.count_cons]

/-- Every number below the count of a length is the rank of a symbol. -/
theorem exists_rank {l r : ℕ} (h : r < lengths.count l) :
    ∃ s, lengths[s]? = some l ∧ rank lengths s l = r := by
  induction lengths generalizing r with
  | nil => simp at h
  | cons a lengths ih =>
    rw [List.count_cons] at h
    by_cases ha : a = l
    · subst ha
      cases r with
      | zero => exact ⟨0, rfl, rfl⟩
      | succ r =>
        obtain ⟨s, hs, hr⟩ := ih (r := r) (by simp at h; omega)
        refine ⟨s + 1, by rwa [List.getElem?_cons_succ], ?_⟩
        rw [rank, List.take_succ_cons, List.count_cons_self]
        rw [rank] at hr
        omega
    · obtain ⟨s, hs, hr⟩ := ih (r := r) (by simpa [ha] using h)
      refine ⟨s + 1, by rwa [List.getElem?_cons_succ], ?_⟩
      rw [rank, List.take_succ_cons, List.count_cons_of_ne (by simpa using ha)]
      exact hr

/-! ## Positions in the order of the codes -/

theorem index_mono {l l' : ℕ} (h : l ≤ l') : index lengths l ≤ index lengths l' := by
  induction l', h using Nat.le_induction with
  | base => exact le_rfl
  | succ l' _ ih =>
    rw [index]
    omega

theorem index_le_length (L : ℕ) : index lengths L ≤ lengths.length := by
  have hcount : index lengths L = lengths.countP fun l => decide (1 ≤ l ∧ l < L) := by
    induction L with
    | zero => simp [index]
    | succ L ih =>
      rw [index, ih]
      clear ih
      by_cases hL : L = 0
      · subst hL
        rw [ofLength_zero, Nat.add_zero]
        refine List.countP_congr fun l _ => ?_
        simp only [decide_eq_true_eq]
        omega
      rw [ofLength_pos (by omega)]
      induction lengths with
      | nil => rfl
      | cons l lengths ih =>
        rw [List.countP_cons, List.countP_cons, List.count_cons, ← ih]
        by_cases heq : l = L
        · subst heq
          simp [Nat.one_le_iff_ne_zero, hL]
          omega
        · have hiff : (1 ≤ l ∧ l < L + 1) ↔ (1 ≤ l ∧ l < L) := by omega
          simp only [hiff, beq_iff_eq, heq, if_false]
          omega
  rw [hcount]
  exact List.countP_le_length

theorem slot_lt {s l : ℕ} (h : lengths[s]? = some l) (hl : 1 ≤ l) :
    slot lengths s l < index lengths (l + 1) := by
  have := rank_lt h
  rw [slot, index, ofLength_pos hl]
  omega

theorem slot_inj {s s' l l' : ℕ} (h : lengths[s]? = some l) (h' : lengths[s']? = some l')
    (hl : 1 ≤ l) (hl' : 1 ≤ l') (heq : slot lengths s l = slot lengths s' l') : s = s' := by
  rcases Nat.lt_trichotomy l l' with hlt | rfl | hgt
  · have := slot_lt h hl
    have : index lengths (l + 1) ≤ index lengths l' := index_mono hlt
    rw [slot, slot] at *
    omega
  · exact rank_inj h h' (Nat.add_left_cancel heq)
  · have := slot_lt h' hl'
    have : index lengths (l' + 1) ≤ index lengths l := index_mono hgt
    rw [slot, slot] at *
    omega

/-! ## Codes and shorter codes -/

theorem used_mul_le {k l : ℕ} (h : k ≤ l) :
    used lengths k * 2 ^ (l - k) ≤ used lengths l := by
  induction l, h using Nat.le_induction with
  | base => simp
  | succ l hkl ih =>
    rw [Nat.succ_sub hkl, Nat.pow_succ, used_succ]
    linarith

theorem used_mul_le_first {k l : ℕ} (h : k < l) :
    used lengths k * 2 ^ (l - k) ≤ first lengths l := by
  obtain ⟨l, rfl⟩ := Nat.exists_eq_succ_of_ne_zero (Nat.ne_of_gt (Nat.zero_lt_of_lt h))
  have hle : used lengths k * 2 ^ (l - k) ≤ used lengths l := used_mul_le (Nat.lt_succ_iff.mp h)
  rw [Nat.succ_sub (Nat.lt_succ_iff.mp h), Nat.pow_succ, first]
  unfold used at hle ⊢
  linarith

/-- A code that fits its longest length fits every shorter one. -/
theorem used_le_of_le {l L : ℕ} (h : l ≤ L) (hfit : used lengths L ≤ 2 ^ L) :
    used lengths l ≤ 2 ^ l := by
  have hle := (used_mul_le h).trans hfit
  rw [show 2 ^ L = 2 ^ l * 2 ^ (L - l) by rw [← Nat.pow_add, Nat.add_sub_of_le h]] at hle
  exact Nat.le_of_mul_le_mul_right hle (Nat.two_pow_pos _)

theorem codeValue_take_succ {u : List Bool} {l : ℕ} (h : l < u.length) :
    codeValue (u.take (l + 1)) = 2 * codeValue (u.take l) + u[l].toNat := by
  rw [List.take_add_one, List.getElem?_eq_getElem h, Option.toList_some, codeValue_concat]

/-- The value of the first bits of a list. -/
theorem codeValue_take_div {u : List Bool} {k l : ℕ} (hk : k ≤ l) (hl : l ≤ u.length) :
    codeValue (u.take k) = codeValue (u.take l) / 2 ^ (l - k) := by
  have hsplit : u.take l = u.take k ++ (u.take l).drop k := by
    rw [← List.take_append_drop k (u.take l), List.take_take, min_eq_left hk,
      List.drop_append_of_le_length (by simp; omega)]
    simp
  have hlen : ((u.take l).drop k).length = l - k := by simp; omega
  have hlt := codeValue_lt ((u.take l).drop k)
  rw [hlen] at hlt
  rw [hsplit, codeValue_append, hlen, Nat.mul_comm, Nat.mul_add_div (Nat.two_pow_pos _),
    Nat.div_eq_of_lt hlt, Nat.add_zero]

/-! ## One bit after another -/

@[simp] theorem past_one (u : List Bool) : Past lengths u 1 := by
  intro k hk
  obtain rfl : k = 0 := by omega
  exact Nat.zero_le _

theorem Past.succ {u : List Bool} {l : ℕ} (h : Past lengths u l)
    (hl : used lengths l ≤ codeValue (u.take l)) : Past lengths u (l + 1) := by
  intro k hk
  rcases Nat.lt_succ_iff_lt_or_eq.mp hk with hlt | rfl
  · exact h k hlt
  · exact hl

theorem Past.first_le {u : List Bool} {l : ℕ} (h : Past lengths u l) (hl : l ≤ u.length) :
    first lengths l ≤ codeValue (u.take l) := by
  cases l with
  | zero => exact Nat.zero_le _
  | succ l =>
    have hle := h l (Nat.lt_succ_self l)
    rw [codeValue_take_succ (by omega), first]
    rw [used] at hle
    omega

/-- The bits `u` begin with a codeword of length `l` if its number is in range. -/
theorem Past.found {u : List Bool} {l : ℕ} (h : Past lengths u l) (hl : l ≤ u.length)
    (hlt : codeValue (u.take l) < used lengths l) :
    Found lengths u l (codeValue (u.take l) - first lengths l) := by
  have hge := h.first_le hl
  rw [used] at hlt
  exact ⟨hl, h, by omega, by omega⟩

theorem Found.pos {u : List Bool} {l r : ℕ} (h : Found lengths u l r) : 1 ≤ l := by
  by_contra h0
  obtain rfl : l = 0 := by omega
  have := h.lt
  rw [ofLength_zero] at this
  omega

theorem Found.lt_used {u : List Bool} {l r : ℕ} (h : Found lengths u l r) :
    codeValue (u.take l) < used lengths l := by
  have := h.lt
  rw [h.value, used]
  omega

/-- Nothing is found at a length that is past. -/
theorem Found.not_past {u : List Bool} {l r l' : ℕ} (h : Found lengths u l r) (hlt : l < l') :
    ¬ Past lengths u l' := fun hpast => absurd (hpast l hlt) (Nat.not_le.mpr h.lt_used)

theorem Found.unique {u : List Bool} {l r l' r' : ℕ} (h : Found lengths u l r)
    (h' : Found lengths u l' r') : l = l' ∧ r = r' := by
  have hl : l = l' := by
    rcases Nat.lt_trichotomy l l' with hlt | heq | hgt
    · exact absurd h'.past (h.not_past hlt)
    · exact heq
    · exact absurd h.past (h'.not_past hgt)
  subst hl
  have := h.value
  have := h'.value
  exact ⟨rfl, by omega⟩

/-! ## Codewords -/

theorem codeword_eq_some {s : ℕ} {w : List Bool} :
    codeword lengths s = some w ↔
      ∃ l, 1 ≤ l ∧ lengths[s]? = some l ∧ w = codeBits l (first lengths l + rank lengths s l) := by
  unfold codeword
  constructor
  · intro h
    split at h
    · simp at h
    · simp at h
    · exact ⟨_, by omega, by assumption, (Option.some.inj h).symm⟩
  · rintro ⟨l, hl, hs, rfl⟩
    obtain ⟨l, rfl⟩ := Nat.exists_eq_add_of_le' hl
    rw [hs]

theorem codeword_ne_nil {s : ℕ} {w : List Bool} (h : codeword lengths s = some w) : w ≠ [] := by
  obtain ⟨l, hl, -, rfl⟩ := codeword_eq_some.mp h
  intro hnil
  have hlen := congrArg List.length hnil
  rw [codeBits_length, List.length_nil] at hlen
  omega

theorem codeword_lt_length {s : ℕ} {w : List Bool} (h : codeword lengths s = some w) :
    s < lengths.length := by
  obtain ⟨l, -, hs, -⟩ := codeword_eq_some.mp h
  exact (List.getElem?_eq_some_iff.mp hs).1

/-- The codeword of the symbol that was found. -/
theorem Found.codeword {u : List Bool} {l r : ℕ} (h : Found lengths u l r) :
    ∃ s, lengths[s]? = some l ∧ rank lengths s l = r ∧ codeword lengths s = some (u.take l) := by
  have hlt := h.lt
  rw [ofLength_pos h.pos] at hlt
  obtain ⟨s, hs, hr⟩ := exists_rank hlt
  refine ⟨s, hs, hr, codeword_eq_some.mpr ⟨l, h.pos, hs, ?_⟩⟩
  have hbits := codeBits_codeValue (u.take l)
  rw [List.length_take, min_eq_left h.le] at hbits
  rw [hr, ← h.value, hbits]

/-- A codeword that begins `u` is found there. -/
theorem found_of_codeword {L : ℕ} (hfit : used lengths L ≤ 2 ^ L) (hmax : ∀ l ∈ lengths, l ≤ L)
    {s : ℕ} {w u : List Bool} (hw : codeword lengths s = some w) (hu : w <+: u) :
    ∃ l, lengths[s]? = some l ∧ w = u.take l ∧ Found lengths u l (rank lengths s l) := by
  obtain ⟨l, hl, hs, rfl⟩ := codeword_eq_some.mp hw
  have hrank : rank lengths s l < ofLength lengths l := by
    rw [ofLength_pos hl]
    exact rank_lt hs
  have hfits : used lengths l ≤ 2 ^ l :=
    used_le_of_le (hmax l (List.mem_of_getElem? hs)) hfit
  have htake : codeBits l (first lengths l + rank lengths s l) = u.take l := by
    have := List.prefix_iff_eq_take.mp hu
    rwa [codeBits_length] at this
  have hlen : l ≤ u.length := by
    have := hu.length_le
    rwa [codeBits_length] at this
  have hvalue : codeValue (u.take l) = first lengths l + rank lengths s l := by
    rw [← htake, codeValue_codeBits, Nat.mod_eq_of_lt]
    rw [used] at hfits
    omega
  refine ⟨l, hs, htake, hlen, fun k hk => ?_, hvalue, hrank⟩
  -- the numbers of the shorter codewords end where those of length `l` begin
  rw [codeValue_take_div hk.le hlen, hvalue, Nat.le_div_iff_mul_le (Nat.two_pow_pos _)]
  exact (used_mul_le_first hk).trans (Nat.le_add_right _ _)

/-- **A canonical code is a prefix code**: at most one codeword begins `u`. -/
theorem codeword_prefix_unique {L : ℕ} (hfit : used lengths L ≤ 2 ^ L)
    (hmax : ∀ l ∈ lengths, l ≤ L) {s s' : ℕ} {w w' u : List Bool}
    (hw : codeword lengths s = some w) (hw' : codeword lengths s' = some w') (hu : w <+: u)
    (hu' : w' <+: u) : s = s' := by
  obtain ⟨l, hs, -, hf⟩ := found_of_codeword hfit hmax hw hu
  obtain ⟨l', hs', -, hf'⟩ := found_of_codeword hfit hmax hw' hu'
  obtain ⟨rfl, hr⟩ := hf.unique hf'
  exact rank_inj hs hs' hr

/-- **A complete code decodes everything**: some codeword begins `u`. -/
theorem exists_found_of_complete {L : ℕ} (hcomplete : used lengths L = 2 ^ L) {u : List Bool}
    (hu : L ≤ u.length) : ∃ l ≤ L, ∃ r, Found lengths u l r := by
  have hL : codeValue (u.take L) < used lengths L := by
    have hlt := codeValue_lt (u.take L)
    rwa [List.length_take, min_eq_left hu, ← hcomplete] at hlt
  -- the shortest length whose range the bits are below
  have hex : ∃ l, codeValue (u.take l) < used lengths l := ⟨L, hL⟩
  have hle : Nat.find hex ≤ L := Nat.find_le hL
  have hpast : Past lengths u (Nat.find hex) := fun k hk =>
    Nat.not_lt.mp (Nat.find_min hex hk)
  exact ⟨Nat.find hex, hle, _, hpast.found (hle.trans hu) (Nat.find_spec hex)⟩

theorem exists_codeword_of_complete {L : ℕ} (hcomplete : used lengths L = 2 ^ L) {u : List Bool}
    (hu : L ≤ u.length) : ∃ s w, codeword lengths s = some w ∧ w <+: u := by
  obtain ⟨l, -, r, hf⟩ := exists_found_of_complete hcomplete hu
  obtain ⟨s, -, -, hw⟩ := hf.codeword
  exact ⟨s, _, hw, List.take_prefix _ _⟩

/-! ## The Kraft sum -/

variable (lengths)

/-- The share of the numbers of `L` bits that codewords of at most `L` bits take. -/
def kraft (L : ℕ) : ℕ := (lengths.map fun l => if 1 ≤ l ∧ l ≤ L then 2 ^ (L - l) else 0).sum

variable {lengths}

theorem kraft_succ (L : ℕ) :
    kraft lengths (L + 1) = 2 * kraft lengths L + ofLength lengths (L + 1) := by
  rw [ofLength_pos (Nat.le_add_left 1 L), kraft, kraft]
  induction lengths with
  | nil => rfl
  | cons l lengths ih =>
    rw [List.map_cons, List.sum_cons, List.map_cons, List.sum_cons, ih, List.count_cons]
    by_cases hle : 1 ≤ l ∧ l ≤ L
    · rw [if_pos ⟨hle.1, hle.2.trans (Nat.le_succ L)⟩, if_pos hle, Nat.succ_sub hle.2, Nat.pow_succ,
        if_neg (by simp; omega)]
      ring
    · rw [if_neg hle]
      by_cases heq : l = L + 1
      · subst heq
        simp
        ring
      · rw [if_neg (by omega), if_neg (by simpa using heq)]
        ring

/-- **The numbers used are the Kraft sum.** -/
theorem used_eq_kraft (L : ℕ) : used lengths L = kraft lengths L := by
  induction L with
  | zero =>
    have hzero : kraft lengths 0 = 0 := by
      rw [kraft, List.sum_eq_zero]
      intro x hx
      obtain ⟨l, -, rfl⟩ := List.mem_map.mp hx
      exact if_neg (by omega)
    rw [hzero, used, first, ofLength_zero]
  | succ L ih => rw [used_succ, kraft_succ, ih]

end BBoot.Canonical
