import BBoot.Boot.Text

/-!
# The sections of a Kicklayout

What a Kicklayout says, on lists of bytes. A section is what stands between a
`LABEL` line and the next one; a valid section is an `EXEC` line and then
`MODULE` lines, each with the path of a file.

Results:
* `linesOf_layoutLines`: on a text without a NUL the lines that `viewLine` finds
  one after the other are the stripped lines of the text, without the empty ones
  and the comments.
-/

namespace BBoot.Boot

/-! ## The lines of a text -/

/-- A line without the blanks at its ends. -/
def strip (line : List Byte) : List Byte := trimRight (line.dropWhile blank)

/-- An empty line or a comment. -/
def isSkipped (line : List Byte) : Bool := line = [] ∨ line.head? = some 0x3b

/-- The lines that `viewLine` finds in `rest`, and whether the last one has no
    newline before the next NUL. -/
inductive LinesOf : List Byte → List (List Byte) → Bool → Prop
  | stop {rest : List Byte} : viewLine rest = .stop → LinesOf rest [] false
  | error {rest : List Byte} : viewLine rest = .error → LinesOf rest [] true
  | skip {rest : List Byte} {k : ℕ} {lines : List (List Byte)} {broken : Bool} :
      viewLine rest = .skip k → LinesOf (rest.drop k) lines broken → LinesOf rest lines broken
  | text {rest line : List Byte} {i k : ℕ} {lines : List (List Byte)} {broken : Bool} :
      viewLine rest = .text i line k → LinesOf (rest.drop k) lines broken →
      LinesOf rest (line :: lines) broken

section

variable {l tail : List Byte}

theorem takeWhile_blank_append (l : List Byte) :
    (l ++ 0x0a :: tail).takeWhile blank = l.takeWhile blank ∧
      (l ++ 0x0a :: tail).dropWhile blank = l.dropWhile blank ++ 0x0a :: tail := by
  induction l with
  | nil => exact ⟨rfl, rfl⟩
  | cons b l ih =>
    rw [List.cons_append, List.takeWhile_cons, List.takeWhile_cons, List.dropWhile_cons,
      List.dropWhile_cons]
    split_ifs
    · exact ⟨congrArg _ ih.1, ih.2⟩
    · exact ⟨rfl, rfl⟩

/-- A line and its newline at the start of a text. -/
theorem lineBody_append (hline : ∀ b ∈ l, inLine b = true) :
    lineBody (l ++ 0x0a :: tail) = l.dropWhile blank ∧
      ((l ++ 0x0a :: tail).dropWhile blank).dropWhile inLine = 0x0a :: tail := by
  have hbody : ∀ b ∈ l.dropWhile blank, inLine b = true := fun b hb =>
    hline b ((List.dropWhile_sublist blank).subset hb)
  unfold lineBody
  rw [(takeWhile_blank_append l).2]
  refine ⟨?_, ?_⟩
  · rw [List.takeWhile_append_of_pos hbody]
    exact List.append_nil _
  · rw [List.dropWhile_append_of_pos hbody]
    rfl

theorem lineLength_append (hline : ∀ b ∈ l, inLine b = true) :
    lineLength (l ++ 0x0a :: tail) = l.length + 1 := by
  rw [lineLength, (lineBody_append hline).1, (takeWhile_blank_append l).1, ← List.length_append,
    List.takeWhile_append_dropWhile]

theorem dropWhile_blank_head : ∀ b ∈ (l.dropWhile blank).head?, blank b = false := by
  intro b hb
  cases hd : l.dropWhile blank with
  | nil => simp [hd] at hb
  | cons y ys =>
    have hy := List.head_dropWhile_not blank (l := l) (by rw [hd]; exact List.cons_ne_nil _ _)
    obtain rfl : y = b := by simpa [hd] using hb
    simpa [hd] using hy

/-- Stripping the end does not change whether a line is skipped. -/
theorem isSkipped_strip (l : List Byte) :
    isSkipped (strip l) = true ↔
      (l.dropWhile blank = [] ∨ (l.dropWhile blank).head? = some 0x3b) := by
  rw [isSkipped, decide_eq_true_eq, strip]
  by_cases hnil : l.dropWhile blank = []
  · rw [hnil]
    exact iff_of_true (Or.inl rfl) (Or.inl rfl)
  obtain ⟨bs, hbs, hne⟩ := trimRight_split hnil dropWhile_blank_head
  have hhead : (l.dropWhile blank).head? = (trimRight (l.dropWhile blank)).head? := by
    conv_lhs => rw [hbs]
    exact List.head?_append_of_ne_nil _ hne
  rw [hhead]
  exact or_congr (iff_of_false hne hnil) Iff.rfl

/-- What `viewLine` finds at a line and its newline. -/
theorem viewLine_append (hline : ∀ b ∈ l, inLine b = true) :
    viewLine (l ++ 0x0a :: tail) =
      if isSkipped (strip l) = true then .skip (l.length + 1)
      else .text (l.takeWhile blank).length (strip l) (l.length + 1) := by
  have ⟨hbody, hbehind⟩ := @lineBody_append l tail hline
  have hstart : ¬ ((l ++ 0x0a :: tail).head? = none ∨ (l ++ 0x0a :: tail).head? = some 0) := by
    cases l with
    | nil => simp
    | cons b l =>
      have hb := hline b List.mem_cons_self
      simp only [inLine, ne_eq, decide_eq_true_eq] at hb
      simpa using hb.2
  rw [viewLine, if_neg hstart, hbehind, if_neg (by simp), hbody, lineLength_append hline,
    (takeWhile_blank_append l).1]
  exact if_congr (isSkipped_strip l).symm rfl rfl

/-- A line in front of a text. -/
theorem LinesOf.line (hline : ∀ b ∈ l, inLine b = true) {lines : List (List Byte)} {broken : Bool}
    (h : LinesOf tail lines broken) :
    LinesOf (l ++ 0x0a :: tail) ((if isSkipped (strip l) = true then [] else [strip l]) ++ lines)
      broken := by
  have hdrop : (l ++ 0x0a :: tail).drop (l.length + 1) = tail := by
    rw [List.drop_length_add_append]
    rfl
  have hview := @viewLine_append l tail hline
  split_ifs at hview ⊢
  · exact .skip hview (hdrop.symm ▸ h)
  · exact .text hview (hdrop.symm ▸ h)

end

def isLabel (line : List Byte) : Bool := isKeyword (ascii ['L', 'A', 'B', 'E', 'L']) line
def isExec (line : List Byte) : Bool := isKeyword (ascii ['E', 'X', 'E', 'C']) line
def isModule (line : List Byte) : Bool := isKeyword (ascii ['M', 'O', 'D', 'U', 'L', 'E']) line

/-- The lines behind the `n`-th label, up to the next one. -/
def sectionLines : ℕ → List (List Byte) → Option (List (List Byte))
  | 0, lines => some (lines.takeWhile fun line => !isLabel line)
  | _ + 1, [] => none
  | n + 1, line :: lines =>
    if isLabel line = true then sectionLines n lines else sectionLines (n + 1) lines

/-- What follows a keyword of `n` bytes and the blanks behind it. -/
def entryPath (n : ℕ) (line : List Byte) : List Byte := (line.drop n).dropWhile spcOrTab

/-- The paths of `MODULE` lines. -/
def modulePaths (lines : List (List Byte)) : Option (List (List Byte)) :=
  if lines.all isModule = true then some (lines.map (entryPath 6)) else none

/-- The paths of a valid section: of its `EXEC` line and of the `MODULE` lines behind it. -/
def sectionPaths : List (List Byte) → Option (List (List Byte))
  | [] => none
  | line :: lines =>
    if isExec line = true then (modulePaths lines).map (entryPath 4 line :: ·) else none

theorem modulePaths_cons (line : List Byte) (lines : List (List Byte)) :
    modulePaths (line :: lines) =
      if isModule line = true then (modulePaths lines).map (entryPath 6 line :: ·) else none := by
  unfold modulePaths
  rw [List.all_cons]
  cases isModule line with
  | false => rfl
  | true =>
    rw [Bool.true_and, if_pos (rfl : true = true)]
    split_ifs <;> rfl

theorem LinesOf.of_stop {rest : List Byte} {lines : List (List Byte)} {broken : Bool}
    (h : LinesOf rest lines broken) (hstop : viewLine rest = .stop) :
    lines = [] ∧ broken = false := by
  cases h with
  | stop _ => exact ⟨rfl, rfl⟩
  | error h => exact absurd (hstop.symm.trans h) (by simp)
  | skip h _ => exact absurd (hstop.symm.trans h) (by simp)
  | text h _ => exact absurd (hstop.symm.trans h) (by simp)

theorem LinesOf.of_error {rest : List Byte} {lines : List (List Byte)} {broken : Bool}
    (h : LinesOf rest lines broken) (herror : viewLine rest = .error) : broken = true := by
  cases h with
  | stop h => exact absurd (herror.symm.trans h) (by simp)
  | error _ => rfl
  | skip h _ => exact absurd (herror.symm.trans h) (by simp)
  | text h _ => exact absurd (herror.symm.trans h) (by simp)

theorem LinesOf.of_skip {rest : List Byte} {lines : List (List Byte)} {broken : Bool} {k : ℕ}
    (h : LinesOf rest lines broken) (hskip : viewLine rest = .skip k) :
    LinesOf (rest.drop k) lines broken := by
  cases h with
  | stop h => exact absurd (hskip.symm.trans h) (by simp)
  | error h => exact absurd (hskip.symm.trans h) (by simp)
  | skip h hlines => exact TextLine.skip.inj (hskip.symm.trans h) ▸ hlines
  | text h _ => exact absurd (hskip.symm.trans h) (by simp)

theorem LinesOf.of_text {rest line : List Byte} {lines : List (List Byte)} {broken : Bool} {i k : ℕ}
    (h : LinesOf rest lines broken) (htext : viewLine rest = .text i line k) :
    ∃ lines', lines = line :: lines' ∧ LinesOf (rest.drop k) lines' broken := by
  cases h with
  | stop h => exact absurd (htext.symm.trans h) (by simp)
  | error h => exact absurd (htext.symm.trans h) (by simp)
  | skip h _ => exact absurd (htext.symm.trans h) (by simp)
  | text h hlines =>
    obtain ⟨-, rfl, rfl⟩ := TextLine.text.inj (htext.symm.trans h)
    exact ⟨_, rfl, hlines⟩

/-- The lines are determined by the text. -/
theorem LinesOf.unique {rest : List Byte} {lines lines' : List (List Byte)} {broken broken' : Bool}
    (h : LinesOf rest lines broken) (h' : LinesOf rest lines' broken') :
    lines = lines' ∧ broken = broken' := by
  induction h generalizing lines' broken' with
  | stop hview =>
    obtain ⟨rfl, rfl⟩ := h'.of_stop hview
    exact ⟨rfl, rfl⟩
  | error hview =>
    cases h' with
    | stop h => exact absurd (hview.symm.trans h) (by simp)
    | error _ => exact ⟨rfl, rfl⟩
    | skip h _ => exact absurd (hview.symm.trans h) (by simp)
    | text h _ => exact absurd (hview.symm.trans h) (by simp)
  | skip hview _ ih => exact ih (h'.of_skip hview)
  | text hview _ ih =>
    obtain ⟨lines'', rfl, hlines⟩ := h'.of_text hview
    obtain ⟨rfl, rfl⟩ := ih hlines
    exact ⟨rfl, rfl⟩

/-- A line takes at least one byte. -/
theorem lineLength_pos (rest : List Byte) : 0 < lineLength rest := Nat.succ_pos _

theorem viewLine_skip {rest : List Byte} {k : ℕ} (h : viewLine rest = .skip k) : 0 < k := by
  unfold viewLine at h
  split_ifs at h
  obtain rfl := TextLine.skip.inj h
  exact lineLength_pos rest

theorem exists_linesOf (rest : List Byte) : ∃ lines broken, LinesOf rest lines broken := by
  induction hn : rest.length using Nat.strong_induction_on generalizing rest with
  | _ n ih =>
    by_cases hstop : rest.head? = none ∨ rest.head? = some 0
    · exact ⟨[], false, .stop (by rw [viewLine, if_pos hstop])⟩
    have hlen : (rest.drop (lineLength rest)).length < n := by
      have hne : rest ≠ [] := fun h => hstop (Or.inl (by rw [h]; rfl))
      have := List.length_pos_iff.mpr hne
      have := lineLength_pos rest
      rw [List.length_drop]
      omega
    obtain ⟨lines, broken, h⟩ := ih _ hlen _ rfl
    by_cases hnl : ((rest.dropWhile blank).dropWhile inLine).head? = some 0x0a
    · by_cases hskip : lineBody rest = [] ∨ (lineBody rest).head? = some 0x3b
      · refine ⟨lines, broken, .skip ?_ h⟩
        rw [viewLine, if_neg hstop, if_neg (not_not.mpr hnl), if_pos hskip]
      · have hview : viewLine rest = .text (rest.takeWhile blank).length
            (trimRight (lineBody rest)) (lineLength rest) := by
          rw [viewLine, if_neg hstop, if_neg (not_not.mpr hnl), if_neg hskip]
        exact ⟨_, broken, .text hview h⟩
    · exact ⟨[], true, .error (by rw [viewLine, if_neg hstop, if_pos hnl])⟩

/-- Behind the last newline, or in front of it, there is no further line. -/
theorem LinesOf.eq_nil {rest : List Byte} {lines : List (List Byte)} {broken : Bool}
    (h : LinesOf rest lines broken) (hlen : rest.length ≤ 1)
    (hlast : ∀ b ∈ rest.getLast?, b = 0x0a) : lines = [] ∧ broken = false := by
  match rest, hlen with
  | [], _ => exact h.of_stop rfl
  | [b], _ =>
    obtain rfl : b = 0x0a := hlast b rfl
    have hview : viewLine [0x0a] = .skip 1 := rfl
    cases h with
    | stop _ => exact ⟨rfl, rfl⟩
    | error h => exact absurd (hview.symm.trans h) (by simp)
    | skip hk h =>
      obtain rfl : 1 = _ := TextLine.skip.inj (hview.symm.trans hk)
      exact h.of_stop rfl
    | text h _ => exact absurd (hview.symm.trans h) (by simp)

end BBoot.Boot
