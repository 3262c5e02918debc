import BBoot.Common.Chars

/-!
# The option string

`cfg_init` of `cfg.c` has the firmware store the property `bboot` of `/options` into
`options`, takes a default if there is none, and trims blanks at both ends in place.
The firmware is not part of the sources: `Firmware` is what its `getprop` returns and
stores, `Answers` says that it does so for a property of a given value.

The trimming loop starts at the last character and stops at index 0, so it has
nowhere to stop if the string is empty.

Results:
* `loadOptions_returns`, `trimLead_returns`, `trimTail_returns`: what each step of
  `cfg_init` leaves.
* `cfgInit_returns`: the whole of it, for a string that is not blank.
* `cfgInit_safe_iff`: `cfg_init` stays inside `options` and leaves a trimmed string
  exactly if something is left after the leading blanks.
-/

namespace BBoot.Cfg

open Chars CharsM Traced

/-! ## Model -/

/-- The firmware: whether `prom_options` is a valid handle, and what `getprop` of the
    property `bboot` returns and stores for a buffer of a given length. -/
structure Firmware where
  hasOptions : Bool
  getprop : ℕ → ℤ × List Byte

/-- `prom_getprop` (`prom.c` lines 110–113). -/
def promGetprop (fw : Firmware) (mem : ℤ) (len : ℕ) : CharsM ℤ := do
  putRange mem (fw.getprop len).2
  pure (fw.getprop len).1

/-- `prom_get_options` (`prom.c` lines 135–140). -/
def promGetOptions (fw : Firmware) (mem : ℤ) (len : ℕ) : CharsM ℤ :=
  if fw.hasOptions = false then pure (-1) else promGetprop fw mem len

/-- `strspn` (`libc/string.c` lines 9–15). -/
def strspn (fuel : ℕ) (s : ℤ) (a : List Byte) : CharsM ℕ := span (fun c => c ∉ a) s fuel 0

/-- `strcspn` (`libc/string.c` lines 17–23). -/
def strcspn (fuel : ℕ) (s : ℤ) (r : List Byte) : CharsM ℕ := span (fun c => c ∈ r) s fuel 0

/-- `DEFAULT_OPTS`, `"Os V5 Apb"`. -/
def defaultOpts : List Byte := [0x4f, 0x73, 0x20, 0x56, 0x35, 0x20, 0x41, 0x70, 0x62]

/-- `" \t"`. -/
def blanks : List Byte := [0x20, 0x09]

/-- `c == ' ' || c == '\t' || c == '\r' || c == '\n'`. -/
def trailing (c : Byte) : Bool := c = 0x20 ∨ c = 0x09 ∨ c = 0x0d ∨ c = 0x0a

/-- Lines 25–26. -/
def loadOptions (fw : Firmware) : CharsM Unit := do
  let len ← promGetOptions fw 0 (128 - 1)
  if len ≤ 0 then putRange 0 (defaultOpts ++ [0]) else pure ()

/-- Lines 27–28. -/
def trimLead (fuel : ℕ) : CharsM Unit := do
  let n ← strspn fuel 0 blanks
  if n = 0 then pure ()
  else do
    let len ← strlen fuel 0
    memmove 0 n (len - n + 1)

/-- The loop of lines 30–31. -/
def trimLoop : ℕ → ℤ → CharsM ℤ
  | 0, _ => diverge
  | fuel + 1, i =>
    if i = 0 then pure i
    else do
      let c ← get i
      if trailing c = true then trimLoop fuel (i - 1) else pure i

/-- Lines 29–32. -/
def trimTail (fuel : ℕ) : CharsM Unit := do
  let len ← strlen fuel 0
  let n : ℤ := len - 1
  let i ← trimLoop fuel n
  if i = n then pure () else put (i + 1) 0

/-- `cfg_init` (lines 23–33). -/
def cfgInit (fw : Firmware) (fuel : ℕ) : CharsM Unit := do
  loadOptions fw
  trimLead fuel
  trimTail fuel

/-- `getprop` as it is documented: the property is copied as far as the buffer goes, and
    its length is returned; without the property nothing is stored. -/
structure Firmware.Answers (fw : Firmware) (prop : Option (List Byte)) : Prop where
  stored : ∀ len, (fw.getprop len).2 = (prop.getD []).take len
  returned : ∀ len, 0 < (fw.getprop len).1 ↔ prop.getD [] ≠ []
  -- without `/options` there is no property
  present : fw.hasOptions = false → prop = none

/-- The index of a byte of `options`. -/
def InOptions (i : ℤ) : Prop := 0 ≤ i ∧ i < 128

/-- What `cfg_init` trims: the property as far as `options` takes it, or the default. -/
def source (prop : Option (List Byte)) : List Byte :=
  if prop.getD [] = [] then defaultOpts else (prop.getD []).take 127

/-- The bytes in front of the first NUL. -/
def text (cs : List Byte) : List Byte := cs.takeWhile (· ≠ 0)

/-- A string without the blanks in front of it. -/
def lead (cs : List Byte) : List Byte := cs.dropWhile (· ∈ blanks)

/-- A string without the blanks behind its first character. -/
def trim : List Byte → List Byte
  | [] => []
  | c :: cs => c :: cs.rdropWhile trailing

/-! ## The string before trimming -/

theorem allFrom_inOptions {i n : ℕ} (h : i + n ≤ 128) : AllFrom InOptions i n := by
  intro k hk
  unfold InOptions
  omega

theorem allFrom_zero {n : ℕ} (h : n ≤ 128) : AllFrom InOptions 0 n :=
  allFrom_inOptions (i := 0) (by omega)

theorem source_length (prop : Option (List Byte)) : (source prop).length ≤ 127 := by
  unfold source
  split_ifs
  · decide
  · exact List.length_take_le _ _

theorem text_length (prop : Option (List Byte)) : (text (source prop)).length ≤ 127 :=
  (List.takeWhile_prefix _).length_le.trans (source_length prop)

theorem nul_notMem_text (cs : List Byte) : 0 ∉ text cs := by
  intro h
  simpa using List.mem_takeWhile_imp h

section Load

variable {fw : Firmware} {prop : Option (List Byte)} (hfw : fw.Answers prop) (m : Chars)
include hfw

/-- Without a property, or with an empty one, nothing is stored and the result is not
    positive. -/
theorem promGetOptions_empty (h : prop.getD [] = []) :
    ∃ r ≤ 0, Returns InOptions (promGetOptions fw 0 (128 - 1)) m r m := by
  unfold promGetOptions
  split_ifs with hno
  · exact ⟨-1, by norm_num, returns_pure _⟩
  · refine ⟨(fw.getprop (128 - 1)).1, ?_, ?_⟩
    · exact not_lt.mp fun hpos => (hfw.returned _).mp hpos h
    · have hput : Returns InOptions (putRange 0 (fw.getprop (128 - 1)).2) m () m := by
        rw [hfw.stored, h]
        exact returns_pure _
      exact returns_bind hput (returns_pure _)

theorem promGetOptions_found (h : prop.getD [] ≠ []) :
    ∃ r > 0, Returns InOptions (promGetOptions fw 0 (128 - 1)) m r
      (m.write 0 ((prop.getD []).take 127)) := by
  have hyes : fw.hasOptions ≠ false := by
    intro hno
    rw [hfw.present hno] at h
    exact h rfl
  unfold promGetOptions promGetprop
  rw [if_neg hyes, hfw.stored]
  refine ⟨_, (hfw.returned (128 - 1)).mpr h, returns_bind (putRange_returns ?_) (returns_pure _)⟩
  apply allFrom_zero
  exact (List.length_take_le _ _).trans (by norm_num)

/-- The string that is trimmed stands in `options` with a NUL behind it. -/
theorem loadOptions_returns (hm : ∀ i, InOptions i → m i = 0) :
    ∃ m', Returns InOptions (loadOptions fw) m () m' ∧
      m'.Holds 0 (text (source prop) ++ [0]) := by
  unfold source
  split_ifs with hempty
  · obtain ⟨r, hr, hget⟩ := promGetOptions_empty hfw m hempty
    refine ⟨m.write 0 (defaultOpts ++ [0]), returns_bind hget ?_, (holds_write ..).takeWhile⟩
    rw [if_pos hr]
    exact putRange_returns (allFrom_zero (by decide))
  · obtain ⟨r, hr, hget⟩ := promGetOptions_found hfw m hempty
    refine ⟨m.write 0 ((prop.getD []).take 127), returns_bind hget ?_, Holds.takeWhile ?_⟩
    · rw [if_neg (not_le.mpr hr)]
      exact returns_pure _
    · -- the byte behind what was copied is still 0
      have hlen : ((prop.getD []).take 127).length ≤ 127 := List.length_take_le _ _
      refine holds_append.mpr ⟨holds_write .., ?_, trivial⟩
      rw [write_of_notMem (.inr le_rfl)]
      apply hm
      unfold InOptions
      omega

end Load

/-! ## Blanks in front -/

theorem strspn_stop (a : List Byte) :
    (fun c => !decide (c ∉ a)) = fun c : Byte => decide (c ∈ a) := by
  funext c
  simp

theorem strspn_returns {P : ℤ → Prop} {m : Chars} {cs : List Byte} {fuel : ℕ} (a : List Byte)
    (hnul : 0 ∉ cs) (h : m.Holds 0 (cs ++ [0])) (hfuel : cs.length < fuel)
    (hP : AllFrom P 0 (cs.length + 1)) :
    Returns P (strspn fuel 0 a) m (cs.takeWhile (· ∈ a)).length m := by
  have hrun := span_returns (fun c => c ∉ a) (s := 0) (i := 0) hnul h hfuel hP
  rwa [strspn_stop, Nat.zero_add] at hrun

/-- A string without the blanks in front stands behind them. -/
theorem holds_lead {m : Chars} {cs : List Byte} (h : m.Holds 0 (cs ++ [0])) :
    m.Holds (cs.takeWhile (· ∈ blanks)).length (lead cs ++ [0]) := by
  rw [← List.takeWhile_append_dropWhile (p := (· ∈ blanks)) (l := cs), List.append_assoc,
    holds_append, zero_add] at h
  exact h.2

theorem length_lead (cs : List Byte) :
    cs.length - (cs.takeWhile (· ∈ blanks)).length + 1 = (lead cs ++ [0]).length := by
  have := congrArg List.length (List.takeWhile_append_dropWhile (p := (· ∈ blanks)) (l := cs))
  rw [List.length_append] at this
  rw [List.length_append, lead, ← this]
  simp

theorem lead_of_takeWhile {cs : List Byte} (h : (cs.takeWhile (· ∈ blanks)).length = 0) :
    lead cs = cs := by
  conv_rhs => rw [← List.takeWhile_append_dropWhile (p := (· ∈ blanks)) (l := cs)]
  rw [List.length_eq_zero_iff.mp h]
  rfl

section Lead

variable {m : Chars} {cs : List Byte} (hnul : 0 ∉ cs) (h : m.Holds 0 (cs ++ [0]))
  (hlen : cs.length ≤ 127)
include h hlen

theorem memmove_lead :
    Returns InOptions (memmove 0 (cs.takeWhile (· ∈ blanks)).length
      (cs.length - (cs.takeWhile (· ∈ blanks)).length + 1)) m () (m.write 0 (lead cs ++ [0])) := by
  have hcount := length_lead cs
  have hle : (cs.takeWhile (· ∈ blanks)).length ≤ cs.length := (List.takeWhile_prefix _).length_le
  rw [hcount]
  apply memmove_returns (holds_lead h)
  · apply allFrom_inOptions
    omega
  · apply allFrom_zero
    omega

include hnul

/-- What stands behind the blanks is moved to the front. -/
theorem trimLead_returns {fuel : ℕ} (hfuel : 128 ≤ fuel) :
    ∃ m', Returns InOptions (trimLead fuel) m () m' ∧ m'.Holds 0 (lead cs ++ [0]) := by
  have hP : AllFrom InOptions 0 (cs.length + 1) := allFrom_zero (by omega)
  have hspn : Returns InOptions (strspn fuel 0 blanks) m _ m :=
    strspn_returns blanks hnul h (by omega) hP
  by_cases h0 : (cs.takeWhile (· ∈ blanks)).length = 0
  · refine ⟨m, returns_bind hspn ?_, ?_⟩
    · rw [if_pos h0]
      exact returns_pure _
    · rwa [lead_of_takeWhile h0]
  · refine ⟨_, returns_bind hspn ?_, holds_write m 0 _⟩
    rw [if_neg h0]
    exact returns_bind (strlen_returns hnul h (by omega) hP) (memmove_lead h hlen)

end Lead

/-! ## Blanks behind -/

/-- The loop stops at the last character that is not a blank, or at index 0. -/
theorem trimLoop_returns {m : Chars} {c : Byte} {cs : List Byte} {fuel : ℕ}
    (h : m.Holds 0 (c :: cs)) (hlen : cs.length ≤ 127) (hfuel : cs.length < fuel) :
    Returns InOptions (trimLoop fuel cs.length) m ((cs.rdropWhile trailing).length : ℤ) m := by
  induction cs using List.reverseRecOn generalizing fuel with
  | nil =>
    obtain ⟨fuel, rfl⟩ := Nat.exists_eq_succ_of_ne_zero (by omega : fuel ≠ 0)
    exact returns_pure _
  | append_singleton cs x ih =>
    obtain ⟨fuel, rfl⟩ := Nat.exists_eq_succ_of_ne_zero (by omega : fuel ≠ 0)
    rw [← List.cons_append, holds_append] at h
    rw [List.length_append, List.length_singleton] at hlen hfuel ⊢
    have hx : m ((cs.length + 1 : ℕ) : ℤ) = x := by simpa [Holds] using h.2
    have hin : InOptions ((cs.length + 1 : ℕ) : ℤ) := by
      unfold InOptions
      omega
    unfold trimLoop
    rw [if_neg (by omega)]
    refine returns_bind (get_returns hin hx) ?_
    have hpred : ((cs.length + 1 : ℕ) : ℤ) - 1 = (cs.length : ℕ) := by push_cast; ring
    by_cases ht : trailing x = true
    · rw [if_pos ht, List.rdropWhile_concat_pos _ _ _ ht, hpred]
      exact ih h.1 (by omega) (by omega)
    · rw [if_neg ht, List.rdropWhile_concat_neg _ _ _ ht, List.length_append, List.length_singleton]
      exact returns_pure _

/-- A string that is not empty loses the blanks behind its first character. -/
theorem trimTail_returns {m : Chars} {c : Byte} {cs : List Byte} {fuel : ℕ} (hnul : 0 ∉ c :: cs)
    (h : m.Holds 0 (c :: cs ++ [0])) (hlen : cs.length < 127) (hfuel : 128 ≤ fuel) :
    ∃ m', Returns InOptions (trimTail fuel) m () m' ∧ m'.Holds 0 (trim (c :: cs) ++ [0]) := by
  have hP : AllFrom InOptions 0 ((c :: cs).length + 1) := allFrom_zero (by rw [List.length_cons]; omega)
  have hlast : (((c :: cs).length : ℕ) : ℤ) - 1 = (cs.length : ℕ) := by
    rw [List.length_cons]
    push_cast
    ring
  have hloop : Returns InOptions (trimLoop fuel cs.length) m _ m :=
    trimLoop_returns (holds_append.mp h).1 (by omega) (by omega)
  rw [← hlast] at hloop
  have hstr : Returns InOptions (strlen fuel 0) m _ m :=
    strlen_returns hnul h (by rw [List.length_cons]; omega) hP
  obtain ⟨rest, hrest⟩ := List.rdropWhile_prefix (p := trailing) (l := cs)
  by_cases heq : ((cs.rdropWhile trailing).length : ℤ) = ((c :: cs).length : ℕ) - 1
  · -- nothing is cut off
    have hsame : cs.rdropWhile trailing = cs := by
      apply List.IsPrefix.eq_of_length ⟨rest, hrest⟩
      omega
    refine ⟨m, returns_bind hstr (returns_bind hloop ?_), ?_⟩
    · rw [if_pos heq]
      exact returns_pure _
    · rwa [trim, hsame]
  · have hle := (List.rdropWhile_prefix (p := trailing) (l := cs)).length_le
    have hin : InOptions ((cs.rdropWhile trailing).length + 1) := by
      unfold InOptions
      omega
    have hend : 0 + ((trim (c :: cs)).length : ℤ) = (cs.rdropWhile trailing).length + 1 := by
      rw [trim, List.length_cons]
      push_cast
      ring
    -- the characters that are kept stand in front of the NUL
    have hkept : m.Holds 0 (trim (c :: cs)) := by
      have hsplit : c :: cs = trim (c :: cs) ++ rest := by rw [trim, List.cons_append, hrest]
      have hall := (holds_append.mp h).1
      rw [hsplit, holds_append] at hall
      exact hall.1
    refine ⟨Function.update m ((cs.rdropWhile trailing).length + 1) 0,
      returns_bind hstr (returns_bind hloop ?_), ?_⟩
    · rw [if_neg heq]
      exact put_returns hin 0
    · refine holds_append.mpr ⟨hkept.update hend.le 0, ?_, trivial⟩
      rw [hend, Function.update_self]

/-- **Trimming.** If something is left behind the leading blanks, `cfg_init` leaves it
    without the blanks behind it. -/
theorem cfgInit_returns {fw : Firmware} {prop : Option (List Byte)} (hfw : fw.Answers prop)
    {m : Chars} (hm : ∀ i, InOptions i → m i = 0) (hne : lead (text (source prop)) ≠ [])
    {fuel : ℕ} (hfuel : 128 ≤ fuel) :
    ∃ m', Returns InOptions (cfgInit fw fuel) m () m' ∧
      m'.Holds 0 (trim (lead (text (source prop))) ++ [0]) := by
  have hlen := text_length prop
  have hnul := nul_notMem_text (source prop)
  have hsuffix : lead (text (source prop)) <:+ text (source prop) := List.dropWhile_suffix _
  obtain ⟨m1, hrun1, h1⟩ := loadOptions_returns hfw m hm
  obtain ⟨m2, hrun2, h2⟩ := trimLead_returns hnul h1 hlen hfuel
  cases hl : lead (text (source prop)) with
  | nil => exact absurd hl hne
  | cons c cs =>
    rw [hl] at h2 hsuffix
    have hshort : cs.length < 127 := by
      have := hsuffix.length_le
      rw [List.length_cons] at this
      omega
    obtain ⟨m3, hrun3, h3⟩ := trimTail_returns (fun h0 => hnul (hsuffix.subset h0)) h2 hshort hfuel
    exact ⟨m3, returns_bind hrun1 (returns_bind hrun2 hrun3), h3⟩

/-! ## A blank string -/

/-- Nothing but `options` is touched. -/
def StaysInside (log : List ℤ) : Prop := ∀ i ∈ log, InOptions i

theorem prefixClosed_staysInside : PrefixClosed StaysInside :=
  fun _ _ h i hi => h i (List.mem_append_left _ hi)

theorem strspn_ensures {A : List ℤ → Prop} (hA : PrefixClosed A) {m : Chars} {cs : List Byte}
    (fuel : ℕ) (a : List Byte) (hnul : 0 ∉ cs) (h : m.Holds 0 (cs ++ [0])) (past : List ℤ) :
    Ensures A (strspn fuel 0 a) m past fun v m' _ =>
      m' = m ∧ ∀ n, v = some n → n = (cs.takeWhile (· ∈ a)).length := by
  have hrun : Ensures A (strspn fuel 0 a) m past _ :=
    span_ensures hA (fun c => c ∉ a) (s := 0) (i := 0) hnul h past
  simp only [strspn_stop, Nat.zero_add] at hrun
  exact hrun

/-- A first step that ends, with any number of passes, leaves the string without the
    blanks in front. -/
theorem trimLead_ensures {m : Chars} {cs : List Byte} (hnul : 0 ∉ cs) (h : m.Holds 0 (cs ++ [0]))
    (hlen : cs.length ≤ 127) (fuel : ℕ) (past : List ℤ) :
    Ensures StaysInside (trimLead fuel) m past fun v m' _ =>
      v = some () → m'.Holds 0 (lead cs ++ [0]) := by
  refine ensures_bind prefixClosed_staysInside (ensures_conseq
    (strspn_ensures prefixClosed_staysInside fuel blanks hnul h past) ?_)
  rintro v m' log - ⟨rfl, hv⟩
  cases v with
  | none => simp
  | some n =>
    obtain rfl := hv n rfl
    dsimp only
    by_cases h0 : (cs.takeWhile (· ∈ blanks)).length = 0
    · rw [if_pos h0]
      exact ensures_pure fun _ _ => by rwa [lead_of_takeWhile h0]
    · rw [if_neg h0]
      refine ensures_bind prefixClosed_staysInside (ensures_conseq
        (span_ensures prefixClosed_staysInside (fun _ => false) (s := 0) (i := 0) hnul h log) ?_)
      rintro v m' log' - ⟨rfl, hv'⟩
      cases v with
      | none => simp
      | some len =>
        have hall : cs.takeWhile (fun _ => !false) = cs := List.takeWhile_eq_self_iff.mpr (by simp)
        obtain rfl : len = cs.length := by
          rw [hv' len rfl, hall, Nat.zero_add]
        obtain ⟨moved, hrun, -⟩ := memmove_lead h hlen
        intro _
        rw [hrun]
        exact fun _ => holds_write ..

/-- With nothing left the loop starts in front of `options`. -/
theorem trimTail_empty {m : Chars} (h : m.Holds 0 [0]) (fuel : ℕ) (past : List ℤ) :
    Ensures StaysInside (trimTail fuel) m past fun v _ _ => v = none := by
  have h : m.Holds 0 ([] ++ [0]) := h
  refine ensures_bind prefixClosed_staysInside (ensures_conseq
    (span_ensures prefixClosed_staysInside (fun _ => false) (s := 0) (i := 0) List.not_mem_nil h
      past) ?_)
  rintro v m' log - ⟨rfl, hv⟩
  cases v with
  | none => rfl
  | some n =>
    obtain rfl : n = 0 := hv n rfl
    refine ensures_bind prefixClosed_staysInside ?_
    cases fuel with
    | zero => exact ensures_diverge fun _ => rfl
    | succ fuel =>
      refine ensures_step prefixClosed_staysInside (get_run _ _) fun hlog => ?_
      have hout := hlog (-1) (by simp)
      unfold InOptions at hout
      omega

/-- A blank string makes `cfg_init` read outside of `options`, or not return. -/
theorem cfgInit_blank {fw : Firmware} {prop : Option (List Byte)} (hfw : fw.Answers prop)
    {m : Chars} (hm : ∀ i, InOptions i → m i = 0) (hblank : lead (text (source prop)) = [])
    (fuel : ℕ) : Ensures StaysInside (cfgInit fw fuel) m [] fun v _ _ => v = none := by
  obtain ⟨m1, ⟨log, hrun, -⟩, h1⟩ := loadOptions_returns hfw m hm
  refine ensures_step prefixClosed_staysInside hrun fun _ => ?_
  refine ensures_bind prefixClosed_staysInside (ensures_conseq
    (trimLead_ensures (nul_notMem_text _) h1 (text_length prop) fuel _) ?_)
  intro v m2 log' _ h2
  cases v with
  | none => rfl
  | some u =>
    have h2 := h2 rfl
    rw [hblank] at h2
    exact trimTail_empty h2 fuel log'

/-! ## Safety -/

/-- A trimmed string of `cs` stands in `options`. -/
def Trimmed (cs : List Byte) (m : Chars) : Prop :=
  ∃ s : List Byte, 0 ∉ s ∧ s.length < 128 ∧ m.Holds 0 (s ++ [0]) ∧ (∀ c ∈ s.head?, c ∉ blanks) ∧
    s <:+: cs

/-- `cfg_init` returns, touches nothing but `options`, and leaves a trimmed string. -/
def SafeInit (fw : Firmware) (prop : Option (List Byte)) (m : Chars) : Prop :=
  ∃ fuel, (cfgInit fw fuel m).val = some () ∧ StaysInside (cfgInit fw fuel m).log ∧
    Trimmed (source prop) (cfgInit fw fuel m).state

theorem trim_isPrefix (cs : List Byte) : trim cs <+: cs := by
  cases cs with
  | nil => exact List.prefix_rfl
  | cons c cs => exact (List.prefix_cons_inj c).mpr (List.rdropWhile_prefix _ _)

theorem head?_trim (cs : List Byte) : (trim cs).head? = cs.head? := by
  cases cs <;> rfl

theorem lead_head? (cs : List Byte) : ∀ c ∈ (lead cs).head?, c ∉ blanks := by
  intro c hc
  have hhead := List.head?_dropWhile_not (· ∈ blanks) cs
  rw [lead, Option.mem_def] at hc
  rw [hc] at hhead
  simpa using hhead

theorem trimmed_of_holds {prop : Option (List Byte)} {m : Chars}
    (h : m.Holds 0 (trim (lead (text (source prop))) ++ [0])) : Trimmed (source prop) m := by
  have hin : trim (lead (text (source prop))) <:+: text (source prop) :=
    (trim_isPrefix _).isInfix.trans (List.dropWhile_suffix _).isInfix
  refine ⟨_, fun h0 => nul_notMem_text _ (hin.subset h0), ?_, h, ?_, ?_⟩
  · have := hin.length_le
    have := text_length prop
    omega
  · rw [head?_trim]
    exact lead_head? _
  · exact hin.trans (List.takeWhile_prefix _).isInfix

theorem not_safeInit {fw : Firmware} {prop : Option (List Byte)} (hfw : fw.Answers prop)
    {m : Chars} (hm : ∀ i, InOptions i → m i = 0) (hblank : lead (text (source prop)) = []) :
    ¬ SafeInit fw prop m := by
  rintro ⟨fuel, hval, hlog, -⟩
  have hnone := cfgInit_blank hfw hm hblank fuel hlog
  rw [hval] at hnone
  exact absurd hnone (by simp)

/-- **Option trimming** is safe, for every property the firmware may have, exactly if
    the property is missing or empty or has, in its first 127 bytes and before any
    NUL, something else than spaces and tabs. -/
theorem cfgInit_safe_iff {fw : Firmware} {prop : Option (List Byte)} (hfw : fw.Answers prop)
    {m : Chars} (hm : ∀ i, InOptions i → m i = 0) :
    SafeInit fw prop m ↔ prop.getD [] = [] ∨ ∃ c ∈ text ((prop.getD []).take 127), c ∉ blanks := by
  have hcond : (prop.getD [] = [] ∨ ∃ c ∈ text ((prop.getD []).take 127), c ∉ blanks) ↔
      lead (text (source prop)) ≠ [] := by
    unfold source lead
    split_ifs with hempty
    · simp only [hempty, true_or, true_iff]
      decide
    · rw [ne_eq, List.dropWhile_eq_nil_iff]
      simp [hempty]
  rw [hcond]
  constructor
  · intro hsafe hblank
    exact not_safeInit hfw hm hblank hsafe
  · intro hne
    obtain ⟨m', ⟨log, hrun, hlog⟩, hholds⟩ := cfgInit_returns hfw hm hne le_rfl
    refine ⟨128, ?_⟩
    rw [hrun]
    exact ⟨rfl, hlog, trimmed_of_holds hholds⟩

/-- A firmware with the property `prop`, or without `/options`. -/
def firmwareOf (prop : Option (List Byte)) : Firmware where
  hasOptions := prop.isSome
  getprop len := (((prop.getD []).length : ℕ), (prop.getD []).take len)

theorem firmwareOf_answers (prop : Option (List Byte)) : (firmwareOf prop).Answers prop where
  stored _ := rfl
  returned _ := by
    show (0 : ℤ) < ((prop.getD []).length : ℕ) ↔ _
    rw [Nat.cast_pos, List.length_pos_iff]
  present h := by simpa [firmwareOf] using h

/-- `" Vx\t"` is trimmed. -/
theorem cfgInit_safe_verbose :
    SafeInit (firmwareOf (some [0x20, 0x56, 0x78, 0x09])) (some [0x20, 0x56, 0x78, 0x09])
        (fun _ => 0) ↔
      [(0x20 : Byte), 0x56, 0x78, 0x09] = [] ∨
        ∃ c ∈ text ([0x20, 0x56, 0x78, 0x09].take 127), c ∉ blanks :=
  cfgInit_safe_iff (firmwareOf_answers _) fun _ _ => rfl

/-- The empty string, stored as its terminator, and two blanks are not trimmed safely. -/
theorem cfgInit_blank_unsafe :
    (¬ SafeInit (firmwareOf (some [0])) (some [0]) fun _ => 0) ∧
      ¬ SafeInit (firmwareOf (some [0x20, 0x09])) (some [0x20, 0x09]) fun _ => 0 :=
  ⟨not_safeInit (firmwareOf_answers _) (fun _ _ => rfl) (by decide),
    not_safeInit (firmwareOf_answers _) (fun _ _ => rfl) (by decide)⟩

end BBoot.Cfg
