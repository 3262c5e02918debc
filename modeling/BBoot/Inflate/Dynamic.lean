import BBoot.Inflate.Codes

/-!
# Dynamic blocks

A dynamic block begins with a description of its two codes, which is itself coded.
`lengths` is one array for all of this; `Begins` says what its first entries are.

Results:
* `readCodeLengths_ends`: the lengths of the code length code.
* `readLengths_returns`, `readLengths_ends`: the lengths of the two codes, in both
  directions.
* `badCode_ends`: the check of a code is that it is `Usable`.
* `dynamic_spells`, `dynamic_ends`: a dynamic block, in both directions.
-/

namespace BBoot.Inflate

open PuffM Canonical

section Dynamic

variable {c : Call} {room : ℕ} {s : State} {u : List Bool} {o : List Byte} {lengths : Shorts}

/-! ## The code length code -/

theorem order_nodup : order.Nodup := by decide

theorem order_lt : ∀ sym ∈ order, sym < 19 := by decide

theorem mem_order {sym : ℕ} (h : sym < 19) : sym ∈ order := by
  have hall : ∀ sym < 19, sym ∈ order := by decide
  exact hall sym h

theorem codeLengths_length (vals : List ℕ) : (codeLengths vals).length = 19 := by
  rw [codeLengths, List.length_map, List.length_range]

theorem codeLengths_le {vals : List ℕ} (hvals : ∀ l ∈ vals, l < 8) :
    ∀ l ∈ codeLengths vals, l ≤ maxBits := by
  intro l hl
  obtain ⟨sym, -, rfl⟩ := List.mem_map.mp hl
  have hmax : maxBits = 15 := rfl
  rw [List.getD_eq_getElem?_getD]
  cases hget : vals[order.idxOf sym]? with
  | none => exact Nat.zero_le _
  | some l =>
    have := hvals l (List.mem_of_getElem? hget)
    rw [Option.getD_some]
    omega

/-- The array has the lengths `vals` at the first places of `order`. -/
def Ordered (lengths : Shorts) (vals : List ℕ) : Prop :=
  lengths.length = maxCodes ∧
    ∀ i l : ℕ, vals[i]? = some l → ∀ sym, order[i]? = some sym → lengths.read sym = some l

/-- One more of them. -/
theorem Ordered.write {vals : List ℕ} (h : Ordered lengths vals) (hlen : vals.length < 19) (l : ℕ) :
    ∃ sym lengths', order[vals.length]? = some sym ∧ lengths.write sym l = some lengths' ∧
      Ordered lengths' (vals ++ [l]) := by
  have horder : vals.length < order.length := hlen
  have hget := List.getElem?_eq_getElem horder
  have hsym := order_lt _ (List.getElem_mem horder)
  have hmax : maxCodes = 316 := rfl
  obtain ⟨lengths', hwrite, hlen', hself, hother⟩ := Shorts.write_eq (a := lengths)
    (i := order[vals.length]) (by have := h.1; omega) l
  refine ⟨_, lengths', hget, hwrite, hlen'.trans h.1, fun i l' hi sym' hsym' => ?_⟩
  rcases Nat.lt_trichotomy i vals.length with hlt | rfl | hgt
  · rw [List.getElem?_append_left hlt] at hi
    have hne : sym' ≠ order[vals.length] := by
      intro heq
      rw [heq, ← hget] at hsym'
      exact absurd ((List.getElem?_inj (by omega) order_nodup).mp hsym') (by omega)
    rw [hother sym' hne]
    exact h.2 i l' hi sym' hsym'
  · rw [List.getElem?_append_right le_rfl, Nat.sub_self, List.getElem?_cons_zero,
      Option.some.injEq] at hi
    rw [hget, Option.some.injEq] at hsym'
    rw [← hsym', ← hi]
    exact hself
  · rw [List.getElem?_eq_none (by simp; omega)] at hi
    simp at hi

/-- The loop that reads the code length code lengths. -/
theorem readCodeLengths_ends (hc : c.Fits room) {n : ℕ} {vals : List ℕ} (hn : vals.length + n ≤ 19)
    (ha : Ordered lengths vals) (h : Holds c room s u o) :
    Ends (readCodeLengths (List.range' vals.length n) lengths) s
      (fun a s' => ∃ vals' v, vals'.length = n ∧ (∀ l ∈ vals', l < 8) ∧
        u = codeLengthBits vals' ++ v ∧ Ordered a (vals ++ vals') ∧ Holds c room s' v o)
      (fun s' => u.length < 3 * n ∧ Stopped c room s') := by
  induction n generalizing s u vals lengths with
  | zero =>
    apply ends_pure
    exact ⟨[], u, rfl, by simp, rfl, by rwa [List.append_nil], h⟩
  | succ n ih =>
    rw [List.range'_succ]
    unfold readCodeLengths
    refine ends_bind (ends_conseq (bits_ends hc h 3) (fun _ _ hQ => hQ) ?_) ?_
    · rintro s' ⟨hlt, hw⟩
      exact ⟨by omega, hw.stopped⟩
    rintro a s' ⟨rfl, hlen, hs⟩
    obtain ⟨sym, lengths', hsym, hwrite, ha'⟩ := ha.write (by omega) (ofBits (u.take 3))
    apply ends_bind_checked hsym
    apply ends_bind_checked hwrite
    have hlen' : (vals ++ [ofBits (u.take 3)]).length = vals.length + 1 := by simp
    have hrec := ih (by rw [hlen']; omega) ha' hs
    rw [hlen'] at hrec
    refine ends_conseq hrec ?_ ?_
    · rintro a' s'' ⟨vals', v, hn', hlt, hu, ha'', hs'⟩
      refine ⟨ofBits (u.take 3) :: vals', v, by rw [List.length_cons, hn'], ?_, ?_, ?_, hs'⟩
      · intro l hl
        rcases List.mem_cons.mp hl with rfl | hl
        · have := ofBits_lt (u.take 3)
          rwa [List.length_take, min_eq_left hlen] at this
        · exact hlt l hl
      · have hbits : toBits 3 (ofBits (u.take 3)) = u.take 3 := by
          have := toBits_ofBits (u.take 3)
          rwa [List.length_take, min_eq_left hlen] at this
        rw [codeLengthBits, List.flatMap_cons, hbits, List.append_assoc]
        rw [codeLengthBits] at hu
        rw [← hu, List.take_append_drop]
      · rwa [List.append_assoc] at ha''
    · rintro s'' ⟨hlt, hstop⟩
      rw [List.length_drop] at hlt
      exact ⟨by omega, hstop⟩

/-- The missing lengths are cleared, and the array begins with the code length code. -/
theorem clearCodeLengths_spec {vals : List ℕ} (hlen : vals.length ≤ 19)
    (ha : Ordered lengths vals) :
    ∃ a, clearCodeLengths (List.range' vals.length (19 - vals.length)) lengths = some a ∧
      a.length = maxCodes ∧ Begins a (codeLengths vals) := by
  obtain ⟨a, hclear, hlen', hread⟩ := foldlM_range' (b := lengths) (k := vals.length)
    (n := 19 - vals.length)
    (f := fun lengths index => do Shorts.write lengths (← order[index]?) 0)
    (P := fun k a => Ordered a (vals ++ List.replicate (k - vals.length) 0))
    (by rwa [Nat.sub_self, List.replicate_zero, List.append_nil]) (by
      intro k a hk hlt ha
      have hk' : (vals ++ List.replicate (k - vals.length) 0).length = k := by simp; omega
      obtain ⟨sym, a', hsym, hwrite, ha'⟩ := ha.write (by rw [hk']; omega) 0
      rw [hk'] at hsym
      refine ⟨a', by simp only [hsym, Option.bind_eq_bind, Option.bind_some, hwrite], ?_⟩
      rwa [List.append_assoc, ← List.replicate_succ',
        show k - vals.length + 1 = k + 1 - vals.length by omega] at ha')
  refine ⟨a, hclear, hlen', fun sym l hl => ?_⟩
  have hsym : sym < 19 := by
    have := (List.getElem?_eq_some_iff.mp hl).1
    rwa [codeLengths_length] at this
  have hidx := List.idxOf_lt_length_of_mem (mem_order hsym)
  refine hread (order.idxOf sym) l ?_ sym (List.getElem?_idxOf (mem_order hsym))
  rw [codeLengths, List.getElem?_map, List.getElem?_range hsym, Option.map_some,
    Option.some.injEq, List.getD_eq_getElem?_getD] at hl
  have hidx19 : order.idxOf sym < 19 := hidx
  by_cases hlt : order.idxOf sym < vals.length
  · rw [List.getElem?_append_left hlt, ← hl, List.getElem?_eq_getElem hlt, Option.getD_some]
  · rw [List.getElem?_append_right (by omega), List.getElem?_replicate, if_pos (by omega), ← hl,
      List.getElem?_eq_none (by omega), Option.getD_none]

/-! ## The two codes -/

theorem begins_nil (a : Shorts) : Begins a [] := fun i l hi => by simp at hi

theorem begins_append {ls : List ℕ} {l : ℕ} (h : Begins lengths ls) (hlen : ls.length < lengths.length) :
    ∃ a, lengths.write ls.length l = some a ∧ a.length = lengths.length ∧ Begins a (ls ++ [l]) := by
  obtain ⟨a, hwrite, hlen', hself, hother⟩ := Shorts.write_eq hlen l
  refine ⟨a, hwrite, hlen', fun i l' hi => ?_⟩
  rcases Nat.lt_trichotomy i ls.length with hlt | rfl | hgt
  · rw [List.getElem?_append_left hlt] at hi
    rw [hother i hlt.ne, h i l' hi]
  · rw [List.getElem?_append_right le_rfl, Nat.sub_self, List.getElem?_cons_zero,
      Option.some.injEq] at hi
    rw [hself, hi]
  · rw [List.getElem?_eq_none (by simp; omega)] at hi
    simp at hi

theorem fillLengths_spec {ls : List ℕ} {l n : ℕ} (h : Begins lengths ls)
    (hlen : ls.length + n ≤ lengths.length) :
    ∃ a, fillLengths l n ls.length lengths = some a ∧ a.length = lengths.length ∧
      Begins a (ls ++ List.replicate n l) := by
  induction n generalizing ls lengths with
  | zero => exact ⟨lengths, rfl, rfl, by rwa [List.replicate_zero, List.append_nil]⟩
  | succ n ih =>
    obtain ⟨a, hwrite, hlen', ha⟩ := begins_append (l := l) h (by omega)
    obtain ⟨a', hfill, hlen'', ha'⟩ := ih ha (by rw [List.length_append, List.length_singleton]; omega)
    refine ⟨a', ?_, hlen''.trans hlen', ?_⟩
    · rw [List.length_append, List.length_singleton] at hfill
      rw [fillLengths, hwrite, Option.bind_eq_bind, Option.bind_some, hfill]
    · rwa [List.append_assoc, List.singleton_append, ← List.replicate_succ] at ha'

/-- The length to repeat where the last one is repeated. -/
theorem repeatLength_last {ls : List ℕ} {l : ℕ} (h : Begins lengths ls) (hl : ls.getLast? = some l) :
    ls ≠ [] ∧ repeatLength 16 ls.length lengths = some l := by
  have hne : ls ≠ [] := by
    rintro rfl
    simp at hl
  rw [List.getLast?_eq_getElem?] at hl
  exact ⟨hne, h _ _ hl⟩

/-- A repeat symbol: what to repeat and how often, in both directions. -/
theorem repeats_returns (hc : c.Fits room) {ls new : List ℕ} (ha : Begins lengths ls) {sym : ℕ}
    {x v : List Bool} (hnew : Repeats ls sym x new) (h : Holds c room s (x ++ v) o)
    {L : State → Prop} :
    ∃ l, repeatLength sym ls.length lengths = some l ∧ (sym = 16 → ls ≠ []) ∧ 16 ≤ sym ∧
      Ends (repeatCount sym) s (fun n s' => new = List.replicate n l ∧ Holds c room s' v o) L := by
  cases hnew with
  | last hl hx =>
    obtain ⟨hne, hlast⟩ := repeatLength_last ha hl
    refine ⟨_, hlast, fun _ => hne, le_rfl, ?_⟩
    refine ends_bind (bits_returns hc h hx) ?_
    rintro n s' ⟨rfl, hs⟩
    exact ends_pure ⟨rfl, hs⟩
  | zeros hx =>
    refine ⟨0, rfl, fun h => absurd h (by norm_num), by norm_num, ?_⟩
    refine ends_bind (bits_returns hc h hx) ?_
    rintro n s' ⟨rfl, hs⟩
    exact ends_pure ⟨rfl, hs⟩
  | manyZeros hx =>
    refine ⟨0, rfl, fun h => absurd h (by norm_num), by norm_num, ?_⟩
    refine ends_bind (bits_returns hc h hx) ?_
    rintro n s' ⟨rfl, hs⟩
    exact ends_pure ⟨rfl, hs⟩

/-- Lengths that are described are read. -/
theorem readLengths_returns (hc : c.Fits room) {C : List ℕ} {lencode : Huffman}
    (hC : Table C lencode) {total : ℕ} {ls ls' : List ℕ} {w v : List Bool}
    (hspells : SpellsLengths C total ls w ls') (hls : ∀ l ∈ ls, l ≤ maxBits)
    (ha : Begins lengths ls) (htotal : total ≤ lengths.length) (h : Holds c room s (w ++ v) o)
    {fuel : ℕ} (hfuel : total < ls.length + fuel) {L : State → Prop} :
    Ends (readLengths lencode total fuel ls.length lengths) s (fun r s' => ∃ a, r = .inr a ∧
      a.length = lengths.length ∧ Begins a ls' ∧ Holds c room s' v o) L := by
  induction hspells generalizing s lengths fuel with
  | done hlen =>
    obtain ⟨fuel, rfl⟩ := Nat.exists_eq_add_of_le' (show 1 ≤ fuel by omega)
    unfold readLengths
    rw [if_neg (by omega)]
    exact ends_pure ⟨_, rfl, rfl, ha, h⟩
  | @length l w u ls ls' hl hw hrest ih =>
    have hls' := append_le hls hl
    obtain ⟨hpre, htot, -⟩ := hrest.bounds hls'
    have hlt := hpre.length_le
    have hlen : (ls ++ [l]).length = ls.length + 1 := by simp
    obtain ⟨fuel, rfl⟩ := Nat.exists_eq_add_of_le' (show 1 ≤ fuel by omega)
    rw [List.append_assoc] at h
    unfold readLengths
    rw [if_pos (by omega)]
    refine ends_bind (decode_returns hc hC hw h) ?_
    rintro a s' ⟨rfl, hs⟩
    rw [if_neg (by omega), if_pos (by omega), Int.toNat_natCast]
    obtain ⟨a', hwrite, hlen', ha'⟩ := begins_append (l := l) ha (by omega)
    apply ends_bind_checked hwrite
    rw [← hlen, ← hlen']
    exact ih hls' ha' (by omega) hs (by omega)
  | @repeated sym w x u ls new ls' hw hnew hrest ih =>
    have hls' := List.forall_mem_append.mpr ⟨hls, hnew.le hls⟩
    obtain ⟨hpre, htot, -⟩ := hrest.bounds hls'
    have hlt := hpre.length_le
    rw [List.length_append] at hlt
    rw [List.append_assoc, List.append_assoc] at h
    obtain ⟨fuel, rfl⟩ := Nat.exists_eq_add_of_le' (show 1 ≤ fuel by omega)
    have hpos := hnew.length_pos
    unfold readLengths
    rw [if_pos (by omega)]
    refine ends_bind (decode_returns hc hC hw h) ?_
    rintro a s' ⟨rfl, hs⟩
    obtain ⟨l, hl, hne, h16, hcount⟩ := repeats_returns (L := L) hc ha hnew hs
    have hsome : ¬ ((sym : ℤ) = 16 ∧ ls.length = 0) := by
      rintro ⟨heq, hnil⟩
      exact hne (by exact_mod_cast heq) (List.length_eq_zero_iff.mp hnil)
    rw [if_neg (by omega), if_neg (by omega), if_neg hsome]
    apply ends_bind_checked hl
    refine ends_bind hcount ?_
    rintro n s'' ⟨rfl, hs'⟩
    rw [List.length_replicate] at hlt hpos
    obtain ⟨a', hfill, hlen', ha'⟩ := fillLengths_spec (l := l) (n := n) ha (by omega)
    rw [if_neg (by omega)]
    apply ends_bind_checked hfill
    have hlen : (ls ++ List.replicate n l).length = ls.length + n := by simp
    rw [← hlen, ← hlen']
    exact ih hls' ha' (by omega) hs' (by omega)

/-- A repeat symbol, whatever the input. -/
theorem repeats_ends (hc : c.Fits room) {ls : List ℕ} (ha : Begins lengths ls) {sym : ℕ}
    (hge : 16 ≤ sym) (hle : sym ≤ 18) (hne : ¬ ((sym : ℤ) = 16 ∧ ls.length = 0))
    (h : Holds c room s u o) :
    ∃ l, repeatLength sym ls.length lengths = some l ∧
      Ends (repeatCount sym) s (fun n s' => ∃ x v, u = x ++ v ∧
        Repeats ls sym x (List.replicate n l) ∧ Holds c room s' v o) (Stopped c room) := by
  obtain rfl | rfl | rfl : sym = 16 ∨ sym = 17 ∨ sym = 18 := by omega
  · obtain ⟨l, hl⟩ : ∃ l, ls.getLast? = some l := by
      cases hlast : ls.getLast? with
      | none =>
        rw [List.getLast?_eq_none_iff] at hlast
        exact absurd ⟨rfl, by rw [hlast]; rfl⟩ hne
      | some l => exact ⟨l, rfl⟩
    refine ⟨l, (repeatLength_last ha hl).2, ends_bind (bits_splits hc h 2) ?_⟩
    rintro n s' ⟨x, v, hu, hx, rfl, hs⟩
    exact ends_pure ⟨x, v, hu, .last hl hx, hs⟩
  · refine ⟨0, rfl, ends_bind (bits_splits hc h 3) ?_⟩
    rintro n s' ⟨x, v, hu, hx, rfl, hs⟩
    exact ends_pure ⟨x, v, hu, .zeros hx, hs⟩
  · refine ⟨0, rfl, ends_bind (bits_splits hc h 7) ?_⟩
    rintro n s' ⟨x, v, hu, hx, rfl, hs⟩
    exact ends_pure ⟨x, v, hu, .manyZeros hx, hs⟩

variable (c room u o lengths) in
/-- What `readLengths` ends with: an error, or an array with lengths that the input
    describes. -/
inductive LengthsRead (C : List ℕ) (total : ℕ) (ls : List ℕ) : ℤ ⊕ Shorts → State → Prop
  | failed {e : ℤ} {s' : State} (he : e ≠ 0) (hs : Stopped c room s') : LengthsRead C total ls (.inl e) s'
  | read {a : Shorts} {ls' : List ℕ} {w v : List Bool} {s' : State} (hu : u = w ++ v)
      (hspells : SpellsLengths C total ls w ls') (hlen : a.length = lengths.length)
      (ha : Begins a ls') (hs : Holds c room s' v o) : LengthsRead C total ls (.inr a) s'

/-- What is read are lengths that the input describes. -/
theorem readLengths_ends (hc : c.Fits room) {C : List ℕ} {lencode : Huffman} (hC : Table C lencode)
    (hlenC : C.length ≤ 19) {total : ℕ} {ls : List ℕ} (ha : Begins lengths ls)
    (hle : ls.length ≤ total) (htotal : total ≤ lengths.length) (h : Holds c room s u o) {fuel : ℕ}
    (hfuel : total < ls.length + fuel) :
    Ends (readLengths lencode total fuel ls.length lengths) s
      (LengthsRead c room u o lengths C total ls) (Stopped c room) := by
  induction fuel generalizing s u ls lengths with
  | zero => omega
  | succ fuel ih =>
    unfold readLengths
    by_cases hlt : ls.length < total
    swap
    · rw [if_neg hlt]
      exact ends_pure (.read rfl (.done (by omega)) rfl ha h)
    rw [if_pos hlt]
    refine ends_bind (ends_conseq (decode_ends hc hC h) (fun _ _ hQ => hQ)
      fun _ hL => hL.writes.stopped) ?_
    rintro a s₁ (@⟨sym, l, _, hw, hl, h₁⟩ | ⟨-, -, h₁, -⟩)
    · have hsplit := List.take_append_drop l u
      have hsym : sym ≤ 18 := by
        have := codeword_lt_length hw
        omega
      rw [if_neg (by omega)]
      by_cases h16 : sym < 16
      · rw [if_pos (by exact_mod_cast h16), Int.toNat_natCast]
        obtain ⟨a', hwrite, hlen', ha'⟩ := begins_append (l := sym) ha (by omega)
        apply ends_bind_checked hwrite
        have hlen : (ls ++ [sym]).length = ls.length + 1 := by simp
        have hrec := ih ha' (by omega) (by omega) h₁ (by omega)
        rw [hlen] at hrec
        refine ends_conseq hrec ?_ fun _ hL => hL
        rintro r s₂ (⟨he, hs⟩ | @⟨a, ls', w, v, _, hu, hspells, hlen'', hbegins, hs⟩)
        · exact .failed he hs
        · refine .read ?_ (.length h16 hw hspells) (hlen''.trans hlen') hbegins hs
          rw [List.append_assoc, ← hu, hsplit]
      · rw [if_neg (by exact_mod_cast h16)]
        by_cases hnone : (sym : ℤ) = 16 ∧ ls.length = 0
        · rw [if_pos hnone]
          exact ends_pure (.failed (by norm_num) h₁.stopped)
        rw [if_neg hnone]
        obtain ⟨k, hk, hcount⟩ := repeats_ends hc ha (Nat.not_lt.mp h16) hsym hnone h₁
        apply ends_bind_checked hk
        refine ends_bind hcount ?_
        rintro n s₂ ⟨x, v₂, hu₂, hnew, h₂⟩
        by_cases hmany : ls.length + n > total
        · rw [if_pos hmany]
          exact ends_pure (.failed (by norm_num) h₂.stopped)
        rw [if_neg hmany]
        have hpos := hnew.length_pos
        rw [List.length_replicate] at hpos
        obtain ⟨a', hfill, hlen', ha'⟩ := fillLengths_spec (l := k) (n := n) ha (by omega)
        apply ends_bind_checked hfill
        have hlen : (ls ++ List.replicate n k).length = ls.length + n := by simp
        have hrec := ih ha' (by omega) (by omega) h₂ (by omega)
        rw [hlen] at hrec
        refine ends_conseq hrec ?_ fun _ hL => hL
        rintro r s₃ (⟨he, hs⟩ | @⟨a, ls', w, v, _, hu, hspells, hlen'', hbegins, hs⟩)
        · exact .failed he hs
        · refine .read ?_ (.repeated hw hnew hspells) (hlen''.trans hlen') hbegins hs
          rw [List.append_assoc, List.append_assoc, ← hu, ← hu₂, hsplit]
    · rw [if_pos (by norm_num)]
      exact ends_pure (.failed (by norm_num) h₁.stopped)

/-! ## The checks of the codes -/

theorem count_add_count_le (ls : List ℕ) :
    ls.count 0 + ls.count 1 ≤ ls.length ∧
      (ls.length = ls.count 0 + ls.count 1 ↔ ∀ l ∈ ls, l ≤ 1) := by
  induction ls with
  | nil => simp
  | cons l ls ih =>
    rw [List.count_cons, List.count_cons, List.length_cons, List.forall_mem_cons]
    obtain ⟨hle, hiff⟩ := ih
    rw [← hiff]
    simp only [beq_iff_eq]
    split_ifs <;> omega

/-- Codes of one bit take half of the numbers each. -/
theorem used_of_le_one {ls : List ℕ} (h : ∀ l ∈ ls, l ≤ 1) (k : ℕ) :
    used ls (k + 1) = 2 ^ k * ls.count 1 := by
  induction k with
  | zero => simp [used, first, ofLength]
  | succ k ih =>
    have hnone : ofLength ls (k + 2) = 0 := by
      rw [ofLength_pos (by omega), List.count_eq_zero]
      intro hmem
      have := h _ hmem
      omega
    rw [used_succ, ih, hnone, Nat.pow_succ]
    ring

/-- The check of a code is that it is usable. -/
theorem badCode_ends {ls : List ℕ} {h₀ h : Huffman} {err : ℤ} (hcons : Constructed ls h₀ err h)
    {n : ℕ} (hn : n = ls.length) {L : State → Prop} :
    Ends (badCode err n h) s (fun b s' => s' = s ∧ (b = true ↔ ¬ Usable ls)) L := by
  unfold badCode
  apply ends_bind_checked (hcons.counts.read 0 (Nat.zero_le _))
  apply ends_bind_checked (hcons.counts.read 1 (by decide))
  refine ends_pure ⟨rfl, ?_⟩
  rw [decide_eq_true_eq, hn, ne_eq, ne_eq, hcons.zero, hcons.neg, (count_add_count_le ls).2, Usable]
  by_cases hfull : NoCodes ls ∨ Complete ls
  · tauto
  have hsmall : (∀ l ∈ ls, l ≤ 1) →
      (ls.count 1 = 1 ↔ ¬ 2 ^ maxBits < used ls maxBits) := by
    intro hle
    have hused : used ls maxBits = 2 ^ 14 * ls.count 1 := used_of_le_one hle 14
    have hmax : 2 ^ maxBits = 2 ^ 14 * 2 := rfl
    have hzero : ls.count 1 ≠ 0 := by
      intro h0
      refine hfull (.inl fun l hl => ?_)
      rcases Nat.le_one_iff_eq_zero_or_eq_one.mp (hle l hl) with rfl | rfl
      · rfl
      · exact absurd hl (List.count_eq_zero.mp h0)
    have htwo : ls.count 1 ≠ 2 := by
      intro h2
      exact hfull (.inr (by rw [Complete, hused, h2, hmax]))
    omega
  tauto

/-! ## The block -/

theorem emptyTable_count (n : ℕ) : (emptyTable n).count.length = maxBits + 1 := List.length_replicate

theorem emptyTable_symbol (n : ℕ) : (emptyTable n).symbol.length = n := List.length_replicate

theorem Begins.take {ls : List ℕ} (h : Begins lengths ls) (n : ℕ) : Begins lengths (ls.take n) :=
  fun i l hi => by
    by_cases hlt : i < n
    · rw [List.getElem?_take_of_lt hlt] at hi
      exact h i l hi
    · rw [List.getElem?_eq_none (by rw [List.length_take]; omega)] at hi
      simp at hi

theorem Begins.drop {ls : List ℕ} (h : Begins lengths ls) (n : ℕ) :
    Begins (lengths.drop n) (ls.drop n) := by
  intro i l hi
  rw [List.getElem?_drop] at hi
  rw [Shorts.read, List.getElem?_drop]
  exact h _ _ hi

/-- The symbol 256 has a code where its codeword is. -/
theorem endOfBlock_ne_zero {ls : List ℕ} {nlen : ℕ} (hnlen : 257 ≤ nlen) {w : List Bool}
    (hw : codeword (ls.take nlen) 256 = some w) : ls[256]? ≠ some 0 := by
  obtain ⟨l, hl, hs, -⟩ := codeword_eq_some.mp hw
  rw [List.getElem?_take_of_lt (by omega)] at hs
  rw [hs]
  intro h0
  rw [Option.some.injEq] at h0
  omega

theorem Spells.endOfBlock {L D : List ℕ} {toks : List Token} {w : List Bool} (h : Spells L D toks w) :
    ∃ v, codeword L 256 = some v := by
  induction h with
  | done hw => exact ⟨_, hw⟩
  | literal _ _ ih => exact ih
  | copy _ _ _ ih => exact ih

theorem Usable.used_le {ls : List ℕ} (h : Usable ls) : used ls maxBits ≤ 2 ^ maxBits := by
  rcases h with hnone | hfull | ⟨hle, hone⟩
  · rw [used_noCodes hnone]
    exact Nat.zero_le _
  · exact hfull.le
  · have hused : used ls maxBits = 2 ^ 14 * ls.count 1 := used_of_le_one hle 14
    rw [hused, hone]
    decide

/-- What is done once the lengths `ls` of the two codes are read. -/
theorem dynamicCodes_ends {lencode : Huffman} (hcount : lencode.count.length = maxBits + 1)
    (hsymbol : lencode.symbol.length = maxLCodes) {nlen ndist : ℕ} {ls : List ℕ}
    (ha : Begins lengths ls) (hlen : ls.length = nlen + ndist) (hle : ∀ l ∈ ls, l ≤ maxBits)
    (hnlen : 257 ≤ nlen ∧ nlen ≤ maxLCodes) (hndist : 1 ≤ ndist ∧ ndist ≤ maxDCodes)
    {Q : ℤ → State → Prop} {L : State → Prop}
    (hbad : ∀ e ∈ [-9, -7, -8], ¬ (ls[256]? ≠ some 0 ∧ Usable (ls.take nlen) ∧
      Usable (ls.drop nlen)) → Q e s)
    (hcodes : Usable (ls.take nlen) → Usable (ls.drop nlen) → ∀ lencode distcode,
      Table (ls.take nlen) lencode → Table (ls.drop nlen) distcode →
        Ends (codes lencode distcode) s Q L) :
    Ends (dynamicCodes lencode nlen ndist lengths) s Q L := by
  have htake : (ls.take nlen).length = nlen := by rw [List.length_take]; omega
  have hdrop : (ls.drop nlen).length = ndist := by rw [List.length_drop]; omega
  have h256 := List.getElem?_eq_getElem (show 256 < ls.length by omega)
  obtain ⟨err, lc, hlc, hcons⟩ := construct_spec (h := lencode)
    (fun l hl => hle l (List.mem_of_mem_take hl)) (ha.take nlen) hcount (by omega)
  obtain ⟨err', dc, hdc, hcons'⟩ := construct_spec (h := emptyTable maxDCodes)
    (fun l hl => hle l (List.mem_of_mem_drop hl)) (ha.drop nlen)
    (emptyTable_count _) (by rw [emptyTable_symbol]; omega)
  rw [htake] at hlc
  rw [hdrop] at hdc
  unfold dynamicCodes
  apply ends_bind_checked (ha _ _ h256)
  by_cases h0 : ls[256] = 0
  · rw [if_pos h0]
    refine ends_pure (hbad _ (by simp) fun h => h.1 ?_)
    rw [h256, h0]
  rw [if_neg h0]
  apply ends_bind_checked hlc
  refine ends_bind (badCode_ends hcons htake.symm) ?_
  rintro b s' ⟨rfl, hb⟩
  by_cases hL : Usable (ls.take nlen)
  swap
  · rw [if_pos (hb.mpr hL)]
    exact ends_pure (hbad _ (by simp) fun h => hL h.2.1)
  rw [if_neg fun h => hb.mp h hL]
  apply ends_bind_checked hdc
  refine ends_bind (badCode_ends hcons' hdrop.symm) ?_
  rintro b' s' ⟨rfl, hb'⟩
  by_cases hD : Usable (ls.drop nlen)
  swap
  · rw [if_pos (hb'.mpr hD)]
    exact ends_pure (hbad _ (by simp) fun h => hD h.2.2)
  rw [if_neg fun h => hb'.mp h hD]
  refine hcodes hL hD lc dc (hcons.table ?_) (hcons'.table ?_)
  · exact Int.not_lt.mp (hcons.neg.not.mpr (Nat.not_lt.mpr hL.used_le))
  · exact Int.not_lt.mp (hcons'.neg.not.mpr (Nat.not_lt.mpr hD.used_le))

theorem ordered_nil : Ordered (List.replicate maxCodes none) [] :=
  ⟨List.length_replicate, fun i l hi => by simp at hi⟩

theorem codeLengthBits_length (vals : List ℕ) : (codeLengthBits vals).length = 3 * vals.length := by
  induction vals with
  | nil => rfl
  | cons l vals ih =>
    rw [codeLengthBits, List.flatMap_cons, List.length_append, toBits_length, ← codeLengthBits, ih,
      List.length_cons]
    ring

theorem codeLengthBits_inj {vals vals' : List ℕ} (hlen : vals.length = vals'.length)
    (hvals : ∀ l ∈ vals, l < 8) (hvals' : ∀ l ∈ vals', l < 8)
    (h : codeLengthBits vals = codeLengthBits vals') : vals = vals' := by
  induction vals generalizing vals' with
  | nil => exact (List.length_eq_zero_iff.mp hlen.symm).symm
  | cons l vals ih =>
    obtain _ | ⟨l', vals'⟩ := vals'
    · simp at hlen
    obtain ⟨hhead, htail⟩ := List.append_inj h (by simp)
    have hl : l = l' := by
      have hmod := congrArg ofBits hhead
      have := hvals l List.mem_cons_self
      have := hvals' l' List.mem_cons_self
      rw [ofBits_toBits, ofBits_toBits] at hmod
      omega
    rw [hl, ih (by simpa using hlen) (fun x hx => hvals x (List.mem_cons_of_mem _ hx))
      (fun x hx => hvals' x (List.mem_cons_of_mem _ hx)) htail]

/-- The code length code is complete if `construct` returns `0` and it has a codeword. -/
theorem complete_of_spells {C : List ℕ} {total : ℕ} {w : List Bool} {ls : List ℕ}
    (hzero : NoCodes C ∨ Complete C) (htotal : 0 < total) (h : SpellsLengths C total [] w ls) :
    Complete C := by
  have hcode : ∃ sym w, codeword C sym = some w := by
    cases h with
    | done h =>
      rw [List.length_nil] at h
      omega
    | length _ hw _ => exact ⟨_, _, hw⟩
    | repeated hw _ _ => exact ⟨_, _, hw⟩
  obtain ⟨sym, w, hw⟩ := hcode
  obtain ⟨l, hl, hs, -⟩ := codeword_eq_some.mp hw
  refine hzero.resolve_left fun hnone => ?_
  have := hnone l (List.mem_of_getElem? hs)
  omega

/-- **A dynamic block** builds the tables of the codes it describes, and decodes with these. -/
theorem dynamic_spells (hc : c.Fits room) {nlen ndist : ℕ} {vals ls : List ℕ}
    {v w rest : List Bool} {toks : List Token} (hnlen : 257 ≤ nlen ∧ nlen ≤ maxLCodes)
    (hndist : 1 ≤ ndist ∧ ndist ≤ maxDCodes) (hncode : 4 ≤ vals.length ∧ vals.length ≤ 19)
    (hvals : ∀ l ∈ vals, l < 8) (hcomplete : Complete (codeLengths vals))
    (hls : SpellsLengths (codeLengths vals) (nlen + ndist) [] v ls) (hL : Usable (ls.take nlen))
    (hD : Usable (ls.drop nlen)) (hspells : Spells (ls.take nlen) (ls.drop nlen) toks w)
    (h : Holds c room s (toBits 5 (nlen - 257) ++ (toBits 5 (ndist - 1) ++
      (toBits 4 (vals.length - 4) ++ (codeLengthBits vals ++ (v ++ (w ++ rest)))))) o)
    {Q : ℤ → State → Prop} {L : State → Prop}
    (hcodes : ∀ lencode distcode, Table (ls.take nlen) lencode → Table (ls.drop nlen) distcode →
      ∀ s', Holds c room s' (w ++ rest) o → Ends (codes lencode distcode) s' Q L) :
    Ends dynamic s Q L := by
  have hlmax : maxLCodes = 286 := rfl
  have hdmax : maxDCodes = 30 := rfl
  have hcmax : maxCodes = 316 := rfl
  unfold dynamic
  refine ends_bind (bits_returns hc h (toBits_length ..)) ?_
  rintro a s₁ ⟨rfl, h₁⟩
  refine ends_bind (bits_returns hc h₁ (toBits_length ..)) ?_
  rintro a s₂ ⟨rfl, h₂⟩
  refine ends_bind (bits_returns hc h₂ (toBits_length ..)) ?_
  rintro a s₃ ⟨rfl, h₃⟩
  dsimp only
  rw [ofBits_toBits, ofBits_toBits, ofBits_toBits, Nat.mod_eq_of_lt (by omega),
    Nat.mod_eq_of_lt (by omega), Nat.mod_eq_of_lt (by omega), Nat.sub_add_cancel hnlen.1,
    Nat.sub_add_cancel hndist.1, Nat.sub_add_cancel hncode.1, if_neg (by omega), List.range_eq_range']
  have hread := readCodeLengths_ends hc (by simpa using hncode.2) ordered_nil h₃
  refine ends_bind (ends_conseq hread (fun _ _ hQ => hQ) ?_) ?_
  · rintro s' ⟨hlt, -⟩
    rw [List.length_append, codeLengthBits_length] at hlt
    omega
  rintro a s₄ ⟨vals', v', hlen, hvals', hu, ha, h₄⟩
  obtain ⟨hbits, rfl⟩ := List.append_inj hu (by rw [codeLengthBits_length, codeLengthBits_length, hlen])
  obtain rfl := codeLengthBits_inj hlen.symm hvals hvals' hbits
  obtain ⟨a', hclear, hlen', hbegins⟩ := clearCodeLengths_spec hncode.2 ha
  apply ends_bind_checked hclear
  obtain ⟨err, lc, hlc, hcons⟩ := construct_spec (h := emptyTable maxLCodes) (codeLengths_le hvals)
    hbegins (emptyTable_count _) (by rw [emptyTable_symbol, codeLengths_length]; omega)
  rw [codeLengths_length] at hlc
  apply ends_bind_checked hlc
  have herr := hcons.zero.mpr (.inr hcomplete)
  dsimp only
  rw [if_neg (not_not.mpr herr)]
  refine ends_bind (readLengths_returns hc (hcons.table herr.ge) hls (by simp) (begins_nil _)
    (by omega) h₄ (by rw [List.length_nil]; omega)) ?_
  rintro r s₅ ⟨a'', rfl, -, hbegins', h₅⟩
  obtain ⟨-, htotal, hle⟩ := hls.bounds (by simp)
  refine dynamicCodes_ends hcons.counts.length (hcons.symbols.trans (emptyTable_symbol _)) hbegins'
    htotal hle hnlen hndist ?_ ?_
  · intro e _ hbad
    obtain ⟨w', hw'⟩ := hspells.endOfBlock
    exact absurd ⟨endOfBlock_ne_zero hnlen.1 hw', hL, hD⟩ hbad
  · intro _ _ lencode distcode hLt hDt
    exact hcodes lencode distcode hLt hDt s₅ h₅

/-- **Every run of `dynamic`** comes to an end, and what it has decoded when it returns `0` is a
    dynamic block. -/
theorem dynamic_ends (hi : c.Inflates) (h : Holds c c.destlen.toNat s u o) :
    Ends dynamic s (fun e s' => Stopped c c.destlen.toNat s' ∧
        (e = 0 → ∃ toks v o', BlockSpells ([false, true] ++ u) toks v ∧ expand toks o = some o' ∧
          Holds c c.destlen.toNat s' v o'))
      (Stopped c c.destlen.toNat) := by
  have hlmax : maxLCodes = 286 := rfl
  have hdmax : maxDCodes = 30 := rfl
  have hcmax : maxCodes = 316 := rfl
  have hc := hi.fits
  have hback : ∀ {x : List Bool} {n k : ℕ}, x.length = n → toBits n (ofBits x + k - k) = x := by
    intro x n k hx
    rw [Nat.add_sub_cancel, ← hx, toBits_ofBits]
  unfold dynamic
  refine ends_bind (bits_splits hc h 5) ?_
  rintro hlit s₁ ⟨x₁, v₁, rfl, hx₁, rfl, h₁⟩
  refine ends_bind (bits_splits hc h₁ 5) ?_
  rintro hdist s₂ ⟨x₂, v₂, rfl, hx₂, rfl, h₂⟩
  refine ends_bind (bits_splits hc h₂ 4) ?_
  rintro hclen s₃ ⟨x₃, v₃, rfl, hx₃, rfl, h₃⟩
  dsimp only
  have hlt := ofBits_lt x₃
  rw [hx₃] at hlt
  by_cases hbad : ofBits x₁ + 257 > maxLCodes ∨ ofBits x₂ + 1 > maxDCodes
  · rw [if_pos hbad]
    exact ends_pure ⟨h₃.stopped, fun he => absurd he (by norm_num)⟩
  rw [if_neg hbad, List.range_eq_range']
  have hread := readCodeLengths_ends (n := ofBits x₃ + 4) hc (by rw [List.length_nil]; omega)
    ordered_nil h₃
  refine ends_bind (ends_conseq hread (fun _ _ hQ => hQ) fun _ hL => hL.2) ?_
  rintro a s₄ ⟨vals, v₄, hncode, hvals, rfl, ha, h₄⟩
  rw [← hncode]
  rw [List.nil_append] at ha
  obtain ⟨a', hclear, hlen', hbegins⟩ := clearCodeLengths_spec (by omega) ha
  apply ends_bind_checked hclear
  obtain ⟨err, lc, hlc, hcons⟩ := construct_spec (h := emptyTable maxLCodes) (codeLengths_le hvals)
    hbegins (emptyTable_count _) (by rw [emptyTable_symbol, codeLengths_length]; omega)
  rw [codeLengths_length] at hlc
  apply ends_bind_checked hlc
  dsimp only
  by_cases herr : err = 0
  swap
  · rw [if_pos herr]
    exact ends_pure ⟨h₄.stopped, fun he => absurd he (by norm_num)⟩
  rw [if_neg (not_not.mpr herr)]
  refine ends_bind (readLengths_ends hc (hcons.table herr.ge) (codeLengths_length vals).le
    (begins_nil _) (Nat.zero_le _) (by omega) h₄ (by rw [List.length_nil]; omega)) ?_
  rintro r s₅ (⟨he, hs⟩ | @⟨a'', ls, w, v₅, _, rfl, hspells, -, hbegins', h₅⟩)
  · exact ends_pure ⟨hs, fun he' => absurd he' he⟩
  obtain ⟨-, htotal, hle⟩ := hspells.bounds (by simp)
  refine dynamicCodes_ends hcons.counts.length (hcons.symbols.trans (emptyTable_symbol _)) hbegins'
    htotal hle (by omega) (by omega) ?_ ?_
  · intro e he _
    refine ⟨h₅.stopped, fun he' => ?_⟩
    subst he'
    simp at he
  · intro hL hD lencode distcode hLt hDt
    refine ends_conseq (codes_ends hi hLt hDt (by rw [List.length_drop]; omega) h₅) ?_ fun _ hL => hL
    rintro e s₆ ⟨hstop, hzero⟩
    refine ⟨hstop, fun he => ?_⟩
    obtain ⟨toks, w', v, o', rfl, hspells', hexpand, hs⟩ := hzero he
    have hcomplete := complete_of_spells (hcons.zero.mp herr) (by omega) hspells
    have hnlen : 257 ≤ ofBits x₁ + 257 ∧ ofBits x₁ + 257 ≤ maxLCodes := by omega
    have hndist : 1 ≤ ofBits x₂ + 1 ∧ ofBits x₂ + 1 ≤ maxDCodes := by omega
    have hblock := BlockSpells.dynamic (u := v) hnlen hndist (by omega) hvals hcomplete hspells hL hD
      hspells'
    rw [hback hx₁, hback hx₂, hncode, hback hx₃] at hblock
    exact ⟨toks, v, o', hblock, hexpand, hs⟩

end Dynamic

end BBoot.Inflate
