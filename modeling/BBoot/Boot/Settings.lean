import BBoot.Boot.Options

/-!
# Settings in the option string

The option string is a list of settings, each a capital letter with option letters
behind it, with blanks between them. `cfg_is_option` and `cfg_get_option` of `cfg.c`
search it for the first occurrence of the capital.

`Renders ss cs` says that `cs` is a way to write the settings `ss`; what `cfg_init`
makes of it is `Joined`, the same without the blanks at both ends.

Results:
* `Renders.trim`: trimming removes the blanks at both ends.
* `Joined.find`: where a setting stands in the string.
* `cfg_settings`: after `cfg_init` the two functions answer as the list of settings
  says.
-/

namespace BBoot.Cfg

open Chars CharsM Traced

/-! ## Model -/

/-- `cfg_get_option` (lines 36–40). -/
def cfgGetOption (fuel : ℕ) (s : Byte) : CharsM (Option ℤ) := do
  let ret ← strchr s fuel 0
  pure (ret.map (· + 1))

/-- The loop of lines 48–49, with `n` passes left. -/
def optionLoop (o : Byte) : ℕ → ℤ → CharsM ℤ
  | 0, _ => pure 0
  | n + 1, p => do
    let c ← get p
    if c = o then pure 1 else optionLoop o n (p + 1)

/-- `cfg_is_option` (lines 43–51). -/
def cfgIsOption (fuel : ℕ) (s o : Byte) : CharsM ℤ := do
  match ← strchr s fuel 0 with
  | none => pure 0
  | some p => do
    let n ← strcspn fuel p blanks
    optionLoop o n p

/-! ## Settings -/

/-- A capital letter. -/
def Capital (c : Byte) : Prop := 0x41 ≤ c ∧ c ≤ 0x5a

/-- A lower case letter or a digit. -/
def Small (c : Byte) : Prop := (0x61 ≤ c ∧ c ≤ 0x7a) ∨ (0x30 ≤ c ∧ c ≤ 0x39)

instance (c : Byte) : Decidable (Capital c) := by unfold Capital; infer_instance

instance (c : Byte) : Decidable (Small c) := by unfold Small; infer_instance

/-- A setting and its options. -/
structure Setting where
  letter : Byte
  options : List Byte
  capital : Capital letter
  small : ∀ o ∈ options, Small o

/-- Settings with blanks between them. -/
inductive Joined : List Setting → List Byte → Prop
  | last (s : Setting) : Joined [s] (s.letter :: s.options)
  | more (s : Setting) {sep cs : List Byte} {ss : List Setting} (hne : sep ≠ [])
      (hsep : ∀ c ∈ sep, c ∈ blanks) (h : Joined ss cs) :
      Joined (s :: ss) (s.letter :: s.options ++ (sep ++ cs))

/-- Settings with blanks between them and around them. -/
inductive Renders (ss : List Setting) : List Byte → Prop
  | mk {front cs back : List Byte} (hfront : ∀ c ∈ front, c ∈ blanks) (h : Joined ss cs)
      (hback : ∀ c ∈ back, trailing c = true) : Renders ss (front ++ (cs ++ back))

/-- The options of a setting stand at `i`, and end there. -/
def OptionsAt (m : Chars) (i : ℤ) (os : List Byte) : Prop :=
  m.Holds i os ∧ (m (i + os.length) = 0 ∨ m (i + os.length) ∈ blanks)

/-! ## Characters -/

theorem capital_spec : ∀ c, Capital c → c ≠ 0 ∧ c ∉ blanks ∧ trailing c = false ∧ ¬ Small c := by
  decide +kernel

theorem small_spec : ∀ c, Small c → c ≠ 0 ∧ c ∉ blanks ∧ trailing c = false := by decide +kernel

theorem blank_ne_nul : ∀ c ∈ blanks, c ≠ 0 := by decide

theorem trailing_ne_nul : ∀ c, trailing c = true → c ≠ 0 := by decide +kernel

namespace Setting

variable (s : Setting)

/-- The characters of a setting are not blanks, nor NUL. -/
theorem char_spec : ∀ c ∈ s.letter :: s.options, c ≠ 0 ∧ c ∉ blanks ∧ trailing c = false := by
  intro c hc
  rcases List.mem_cons.mp hc with rfl | hc
  · obtain ⟨h0, hblank, htrail, -⟩ := capital_spec _ s.capital
    exact ⟨h0, hblank, htrail⟩
  · exact small_spec _ (s.small c hc)

/-- A capital that is not the letter of a setting does not stand in it. -/
theorem capital_notMem {c : Byte} (hc : Capital c) (hne : c ≠ s.letter) :
    c ∉ s.letter :: s.options := by
  rw [List.mem_cons, not_or]
  exact ⟨hne, fun h => (capital_spec c hc).2.2.2 (s.small c h)⟩

end Setting

/-! ## Joined settings -/

namespace Joined

variable {ss : List Setting} {cs : List Byte}

theorem nul_notMem (h : Joined ss cs) : 0 ∉ cs := by
  induction h with
  | last s => exact fun h0 => (s.char_spec 0 h0).1 rfl
  | more s hne hsep _ ih =>
    intro h0
    rcases List.mem_append.mp h0 with h0 | h0
    · exact (s.char_spec 0 h0).1 rfl
    · rcases List.mem_append.mp h0 with h0 | h0
      · exact blank_ne_nul 0 (hsep 0 h0) rfl
      · exact ih h0

/-- A capital that is no setting's does not stand in the string. -/
theorem capital_notMem (h : Joined ss cs) {c : Byte} (hc : Capital c)
    (habs : c ∉ ss.map Setting.letter) : c ∉ cs := by
  induction h with
  | last s => exact s.capital_notMem hc (by simpa using habs)
  | more s hne hsep _ ih =>
    rw [List.map_cons, List.mem_cons, not_or] at habs
    intro hmem
    rcases List.mem_append.mp hmem with hmem | hmem
    · exact s.capital_notMem hc habs.1 hmem
    · rcases List.mem_append.mp hmem with hmem | hmem
      · exact (capital_spec c hc).2.1 (hsep c hmem)
      · exact ih habs.2 hmem

/-- Up to the setting `x` there is no `x`, and behind its options the string ends or
    goes on with a blank. -/
theorem find (h : Joined ss cs) (hdistinct : (ss.map Setting.letter).Nodup) {x : Setting}
    (hx : x ∈ ss) :
    ∃ pre post, cs = pre ++ (x.letter :: x.options ++ post) ∧ x.letter ∉ pre ∧
      ∀ c ∈ post.head?, c ∈ blanks := by
  induction h with
  | last s =>
    obtain rfl := List.mem_singleton.mp hx
    exact ⟨[], [], by simp, List.not_mem_nil, by simp⟩
  | @more s sep cs ss hne hsep hjoined ih =>
    rw [List.map_cons, List.nodup_cons] at hdistinct
    rcases List.mem_cons.mp hx with rfl | hx
    · refine ⟨[], sep ++ cs, rfl, List.not_mem_nil, ?_⟩
      intro c hc
      cases sep with
      | nil => exact absurd rfl hne
      | cons b sep =>
        obtain rfl : b = c := by simpa using hc
        exact hsep b List.mem_cons_self
    · obtain ⟨pre, post, rfl, hpre, hpost⟩ := ih hdistinct.2 hx
      refine ⟨s.letter :: s.options ++ (sep ++ pre), post, by simp, ?_, hpost⟩
      have hother : x.letter ≠ s.letter := by
        intro heq
        exact hdistinct.1 (heq ▸ List.mem_map_of_mem hx)
      intro hmem
      rcases List.mem_append.mp hmem with hmem | hmem
      · exact s.capital_notMem x.capital hother hmem
      · rcases List.mem_append.mp hmem with hmem | hmem
        · exact (capital_spec _ x.capital).2.1 (hsep _ hmem)
        · exact hpre hmem

/-- The string begins and ends with a character of a setting. -/
theorem ends (h : Joined ss cs) :
    (∃ c cs', cs = c :: cs' ∧ c ∉ blanks) ∧ ∃ init c, cs = init ++ [c] ∧ trailing c = false := by
  induction h with
  | last s =>
    refine ⟨⟨_, _, rfl, (capital_spec _ s.capital).2.1⟩, ?_⟩
    have hne : s.letter :: s.options ≠ [] := List.cons_ne_nil _ _
    exact ⟨_, _, (List.dropLast_append_getLast hne).symm,
      (s.char_spec _ (List.getLast_mem hne)).2.2⟩
  | @more s sep cs ss hne hsep _ ih =>
    obtain ⟨init, c, rfl, hc⟩ := ih.2
    refine ⟨⟨_, _, rfl, (capital_spec _ s.capital).2.1⟩, s.letter :: s.options ++ (sep ++ init), c,
      by simp, hc⟩

end Joined

/-! ## Trimming -/

theorem rdropWhile_append {p : Byte → Bool} (cs : List Byte) {back : List Byte}
    (h : ∀ c ∈ back, p c = true) : (cs ++ back).rdropWhile p = cs.rdropWhile p := by
  induction back using List.reverseRecOn with
  | nil => rw [List.append_nil]
  | append_singleton back x ih =>
    rw [← List.append_assoc, List.rdropWhile_concat_pos _ _ _ (h x (by simp))]
    exact ih fun c hc => h c (List.mem_append_left _ hc)

/-- Behind the first character of a string that ends with no blank, blanks are cut off. -/
theorem trim_append {c : Byte} {cs init back : List Byte} {e : Byte} (hends : c :: cs = init ++ [e])
    (he : trailing e = false) (hback : ∀ c ∈ back, trailing c = true) :
    trim (c :: cs ++ back) = c :: cs := by
  rw [List.cons_append, trim, rdropWhile_append cs hback, List.cons.injEq]
  refine ⟨rfl, List.rdropWhile_eq_self_iff.mpr fun hl => ?_⟩
  have hlast : cs.getLast hl = e := by
    rw [← List.getLast_cons hl (a := c)]
    simp [hends]
  simp [hlast, he]

theorem lead_append {c : Byte} {front cs : List Byte} (hfront : ∀ c ∈ front, c ∈ blanks)
    (hc : c ∉ blanks) : lead (front ++ c :: cs) = c :: cs := by
  unfold lead
  rw [List.dropWhile_append_of_pos (by simpa using hfront),
    List.dropWhile_cons_of_neg (by simpa using hc)]

namespace Renders

variable {ss : List Setting} {cs : List Byte}

/-- Trimming leaves the settings with the blanks between them. -/
theorem trim (h : Renders ss cs) : Joined ss (Cfg.trim (lead cs)) := by
  obtain ⟨hfront, hjoined, hback⟩ := h
  obtain ⟨⟨c, cs, rfl, hc⟩, init, e, hends, he⟩ := hjoined.ends
  rwa [List.cons_append, lead_append hfront hc, ← List.cons_append, trim_append hends he hback]

theorem nul_notMem (h : Renders ss cs) : 0 ∉ cs := by
  obtain ⟨hfront, hjoined, hback⟩ := h
  intro h0
  rcases List.mem_append.mp h0 with h0 | h0
  · exact blank_ne_nul 0 (hfront 0 h0) rfl
  · rcases List.mem_append.mp h0 with h0 | h0
    · exact hjoined.nul_notMem h0
    · exact trailing_ne_nul 0 (hback 0 h0) rfl

theorem ne_nil (h : Renders ss cs) : cs ≠ [] := by
  obtain ⟨-, hjoined, -⟩ := h
  obtain ⟨⟨c, cs, rfl, -⟩, -⟩ := hjoined.ends
  simp

/-- What `cfg_init` sees of a property that starts with the settings and ends, or goes
    on with a NUL. -/
theorem text_source (h : Renders ss cs) (hlen : cs.length ≤ 127) {tail : List Byte}
    (htail : ∀ c ∈ tail.head?, c = 0) : text (source (some (cs ++ tail))) = cs := by
  have hne : cs ++ tail ≠ [] := by simp [h.ne_nil]
  have hpos : ∀ c ∈ cs, decide (c ≠ 0) = true := by
    intro c hc
    exact decide_eq_true fun h0 => h.nul_notMem (h0 ▸ hc)
  unfold source text
  rw [Option.getD_some, if_neg hne, List.take_append, List.take_of_length_le hlen,
    List.takeWhile_append_of_pos hpos]
  have hhead : ∀ c ∈ (tail.take (127 - cs.length)).head?, c = 0 := by
    intro c hc
    rw [List.head?_take] at hc
    split_ifs at hc
    · simp at hc
    · exact htail c hc
  cases htake : tail.take (127 - cs.length) with
  | nil => simp
  | cons c rest =>
    rw [htake] at hhead
    have h0 : c = 0 := hhead c rfl
    rw [List.takeWhile_cons_of_neg (by simp [h0]), List.append_nil]

end Renders

/-! ## Answers -/

section Answers

variable {P : ℤ → Prop} {m : Chars} {fuel : ℕ}

/-- The loop finds the option among the characters it is given. -/
theorem optionLoop_returns (o : Byte) {p : ℤ} {cs : List Byte} (h : m.Holds p cs)
    (hP : AllFrom P p cs.length) :
    Returns P (optionLoop o cs.length p) m (if o ∈ cs then 1 else 0) m := by
  induction cs generalizing p with
  | nil => exact returns_pure _
  | cons c cs ih =>
    refine returns_bind (get_returns hP.head h.1) ?_
    by_cases hc : c = o
    · rw [if_pos hc, if_pos (by simp [hc])]
      exact returns_pure _
    · have hmem : o ∈ c :: cs ↔ o ∈ cs := by simp [Ne.symm hc]
      rw [if_neg hc, if_congr hmem rfl rfl]
      exact ih h.2 hP.tail

/-- The length of a word: what stands before the first blank. -/
theorem strcspn_returns {p : ℤ} {word post : List Byte} (hnul : 0 ∉ word ++ post)
    (hword : ∀ c ∈ word, c ∉ blanks) (hpost : ∀ c ∈ post.head?, c ∈ blanks)
    (h : m.Holds p (word ++ post ++ [0])) (hfuel : (word ++ post).length < fuel)
    (hP : AllFrom P p ((word ++ post).length + 1)) :
    Returns P (strcspn fuel p blanks) m word.length m := by
  have hp : p + ((0 : ℕ) : ℤ) = p := add_zero p
  have htake : (word ++ post).takeWhile (fun c => !decide (c ∈ blanks)) = word := by
    rw [List.takeWhile_append_of_pos (by simpa using hword)]
    cases post with
    | nil => simp
    | cons c post =>
      have hc : c ∈ blanks := hpost c rfl
      rw [List.takeWhile_cons_of_neg (by simpa using hc), List.append_nil]
  have hrun := span_returns (fun c => c ∈ blanks) (i := 0) hnul (by rwa [hp]) hfuel (by rwa [hp])
  rwa [htake, Nat.zero_add] at hrun

end Answers

section Joined

variable {m : Chars} {ss : List Setting} {cs : List Byte} {fuel : ℕ} (hjoined : Joined ss cs)
  (hdistinct : (ss.map Setting.letter).Nodup) (h : m.Holds 0 (cs ++ [0])) (hlen : cs.length ≤ 127)
  (hfuel : 128 ≤ fuel)
include hjoined h hlen hfuel

/-- A capital that is no setting's is not found. -/
theorem strchr_absent {c : Byte} (hc : Capital c) (habs : c ∉ ss.map Setting.letter) :
    Returns InOptions (strchr c fuel 0) m none m := by
  apply strchr_none (capital_spec c hc).1 hjoined.nul_notMem (hjoined.capital_notMem hc habs) h
  · omega
  · exact allFrom_zero (by omega)

include hdistinct

/-- A setting is found where its letter stands, with its options behind it. -/
theorem strchr_present {x : Setting} (hx : x ∈ ss) :
    ∃ (i : ℕ) (post : List Byte), Returns InOptions (strchr x.letter fuel 0) m (some (i : ℤ)) m ∧
      m.Holds i (x.letter :: x.options ++ post ++ [0]) ∧
      i + (x.letter :: x.options ++ post).length ≤ 127 ∧ 0 ∉ x.letter :: x.options ++ post ∧
      ∀ c ∈ post.head?, c ∈ blanks := by
  obtain ⟨pre, post, rfl, hpre, hpost⟩ := hjoined.find hdistinct hx
  have hnul := hjoined.nul_notMem
  rw [List.length_append] at hlen
  rw [List.mem_append, not_or] at hnul
  rw [List.append_assoc] at h
  have hrun : Returns InOptions (strchr x.letter fuel 0) m (some (0 + pre.length)) m := by
    apply strchr_returns hnul.1 hpre h
    · omega
    · apply allFrom_zero
      omega
  refine ⟨pre.length, post, ?_, ?_, hlen, hnul.2, hpost⟩
  · rwa [zero_add] at hrun
  · have hrest := (holds_append.mp h).2
    rwa [zero_add] at hrest

theorem cfgGetOption_present {x : Setting} (hx : x ∈ ss) :
    ∃ i, Returns InOptions (cfgGetOption fuel x.letter) m (some i) m ∧
      OptionsAt m i x.options := by
  obtain ⟨i, post, hrun, hholds, -, -, hpost⟩ := strchr_present hjoined hdistinct h hlen hfuel hx
  refine ⟨i + 1, returns_bind hrun (returns_pure _), ?_⟩
  rw [List.append_assoc, List.cons_append] at hholds
  obtain ⟨hoptions, hrest⟩ := holds_append.mp hholds.2
  refine ⟨hoptions, ?_⟩
  cases post with
  | nil => exact .inl hrest.1
  | cons c post =>
    right
    rw [hrest.1]
    exact hpost c rfl

/-- Only the options of the setting are searched: its letter is no option. -/
theorem cfgIsOption_present {x : Setting} (hx : x ∈ ss) {o : Byte} (ho : Small o) :
    Returns InOptions (cfgIsOption fuel x.letter o) m (if o ∈ x.options then 1 else 0) m := by
  obtain ⟨i, post, hrun, hholds, hin, hnul, hpost⟩ :=
    strchr_present hjoined hdistinct h hlen hfuel hx
  have hword : ∀ c ∈ x.letter :: x.options, c ∉ blanks := fun c hc => (x.char_spec c hc).2.1
  have hlength : (x.letter :: x.options).length ≤ (x.letter :: x.options ++ post).length :=
    (List.prefix_append _ _).length_le
  have hcount : Returns InOptions (strcspn fuel i blanks) m (x.letter :: x.options).length m := by
    apply strcspn_returns hnul hword hpost hholds
    · omega
    · exact allFrom_inOptions (by omega)
  have hother : o ≠ x.letter := by
    rintro rfl
    exact (capital_spec _ x.capital).2.2.2 ho
  have hmem : o ∈ x.options ↔ o ∈ x.letter :: x.options := by simp [hother]
  rw [List.append_assoc] at hholds
  rw [if_congr hmem rfl rfl]
  refine returns_bind hrun (returns_bind hcount (optionLoop_returns o (holds_append.mp hholds).1 ?_))
  exact allFrom_inOptions (by omega)

end Joined

/-- **Settings.** For every way to write a list of settings with distinct capitals in at
    most 127 characters, which the firmware returns with or without a NUL behind it,
    `cfg_is_option` and `cfg_get_option` answer after `cfg_init` as the list says. -/
theorem cfg_settings {ss : List Setting} (hdistinct : (ss.map Setting.letter).Nodup)
    {cs tail : List Byte} (hcs : Renders ss cs) (hlen : cs.length ≤ 127)
    (htail : ∀ c ∈ tail.head?, c = 0) {fw : Firmware} (hfw : fw.Answers (some (cs ++ tail)))
    {m : Chars} (hm : ∀ i, InOptions i → m i = 0) {fuel : ℕ} (hfuel : 128 ≤ fuel) :
    ∃ m', Returns InOptions (cfgInit fw fuel) m () m' ∧ ∀ s, Capital s →
      (∀ o, Small o → Returns InOptions (cfgIsOption fuel s o) m'
        (if ∃ x ∈ ss, x.letter = s ∧ o ∈ x.options then 1 else 0) m') ∧
      ∃ p, Returns InOptions (cfgGetOption fuel s) m' p m' ∧
        (p = none ↔ s ∉ ss.map Setting.letter) ∧
        ∀ x ∈ ss, x.letter = s → ∃ i, p = some i ∧ OptionsAt m' i x.options := by
  have hjoined := hcs.trim
  have htext := hcs.text_source hlen htail
  have hshort : (trim (lead cs)).length ≤ 127 :=
    ((trim_isPrefix _).length_le.trans (List.dropWhile_suffix _).length_le).trans hlen
  have hne : lead cs ≠ [] := by
    obtain ⟨⟨c, cs', heq, -⟩, -⟩ := hjoined.ends
    rintro hnil
    rw [hnil] at heq
    exact absurd heq (by simp [trim])
  obtain ⟨m', hinit, hholds⟩ := cfgInit_returns hfw hm (by rwa [htext]) hfuel
  rw [htext] at hholds
  refine ⟨m', hinit, fun s hs => ?_⟩
  by_cases hmem : s ∈ ss.map Setting.letter
  · obtain ⟨x, hx, rfl⟩ := List.mem_map.mp hmem
    have honly : ∀ y ∈ ss, y.letter = x.letter → y = x := fun y hy hxy =>
      List.inj_on_of_nodup_map hdistinct hy hx hxy
    refine ⟨fun o ho => ?_, ?_⟩
    · have hiff : (∃ y ∈ ss, y.letter = x.letter ∧ o ∈ y.options) ↔ o ∈ x.options := by
        constructor
        · rintro ⟨y, hy, hxy, hoy⟩
          rwa [← honly y hy hxy]
        · exact fun hox => ⟨x, hx, rfl, hox⟩
      rw [if_congr hiff rfl rfl]
      exact cfgIsOption_present hjoined hdistinct hholds hshort hfuel hx ho
    · obtain ⟨i, hrun, hoptions⟩ := cfgGetOption_present hjoined hdistinct hholds hshort hfuel hx
      refine ⟨some i, hrun, by simpa using ⟨x, hx, rfl⟩, fun y hy hxy => ⟨i, rfl, ?_⟩⟩
      rwa [honly y hy hxy]
  · have hrun := strchr_absent hjoined hholds hshort hfuel hs hmem
    refine ⟨fun o _ => ?_, none, returns_bind hrun (returns_pure _), by simpa using hmem, ?_⟩
    · have hno : ¬ ∃ x ∈ ss, x.letter = s ∧ o ∈ x.options := by
        rintro ⟨x, hx, rfl, -⟩
        exact hmem (List.mem_map_of_mem hx)
      rw [if_neg hno]
      exact returns_bind hrun (returns_pure _)
    · rintro x hx rfl
      exact absurd (List.mem_map_of_mem hx) hmem

/-- The settings of the default string. -/
def defaultSettings : List Setting :=
  [⟨0x4f, [0x73], by decide, by decide⟩, ⟨0x56, [0x35], by decide, by decide⟩,
    ⟨0x41, [0x70, 0x62], by decide, by decide⟩]

theorem renders_default :
    Renders defaultSettings
      ([0x09, 0x20] ++ ([0x4f, 0x73, 0x20, 0x20, 0x56, 0x35, 0x09, 0x41, 0x70, 0x62] ++
        [0x0d, 0x0a])) := by
  refine .mk (by decide) ?_ (by decide)
  exact .more _ (by decide : [(0x20 : Byte), 0x20] ≠ []) (by decide)
    (.more _ (by decide : [(0x09 : Byte)] ≠ []) (by decide) (.last _))

/-- `"\t Os  V5\tApb\r\n"`, with its terminator. -/
theorem cfg_settings_default :
    ∃ m', Returns InOptions (cfgInit (firmwareOf (some
        ([0x09, 0x20] ++ ([0x4f, 0x73, 0x20, 0x20, 0x56, 0x35, 0x09, 0x41, 0x70, 0x62] ++
          [0x0d, 0x0a]) ++ [0]))) 128) (fun _ => 0) () m' ∧ ∀ s, Capital s →
      (∀ o, Small o → Returns InOptions (cfgIsOption 128 s o) m'
        (if ∃ x ∈ defaultSettings, x.letter = s ∧ o ∈ x.options then 1 else 0) m') ∧
      ∃ p, Returns InOptions (cfgGetOption 128 s) m' p m' ∧
        (p = none ↔ s ∉ defaultSettings.map Setting.letter) ∧
        ∀ x ∈ defaultSettings, x.letter = s → ∃ i, p = some i ∧ OptionsAt m' i x.options :=
  cfg_settings (by decide) renders_default (by decide) (by simp) (firmwareOf_answers _)
    (fun _ _ => rfl) le_rfl

end BBoot.Cfg
