import BBoot.Boot.Regions

/-!
# Lines of a text in memory

The bytes still to be parsed stand at `p` with a NUL behind them. `viewLine`
says on the list of these bytes what `readLine` finds in memory: it skips
blanks, looks for the newline before any NUL, and ends the stripped line with a
NUL.

Results:
* `readLine_spec`: `readLine` finds what `viewLine` says, writes only to the
  line and leaves the rest of the text.
* `keyword_run`, `skipWhile_run`: the other reads of the parser on a string.
-/

namespace BBoot.Boot

/-! ## Lines of a list of bytes -/

/-- A byte that does not end the search for the newline. -/
def inLine (b : Byte) : Bool := b ≠ 0x0a ∧ b ≠ 0

/-- What stands at the start of a text: its end, no newline before the next
    NUL, an empty line or a comment of `k` bytes, or a line of `k` bytes with the
    stripped `line` at index `i`. -/
inductive TextLine
  | stop
  | error
  | skip (k : ℕ)
  | text (i : ℕ) (line : List Byte) (k : ℕ)
deriving DecidableEq, Repr

/-- The line without its trailing blanks. -/
def trimRight (line : List Byte) : List Byte := line.rdropWhile blank

/-- What follows the leading blanks and stands before the newline or a NUL. -/
def lineBody (rest : List Byte) : List Byte := (rest.dropWhile blank).takeWhile inLine

/-- The number of bytes up to the newline, included. -/
def lineLength (rest : List Byte) : ℕ :=
  (rest.takeWhile blank).length + (lineBody rest).length + 1

/-- The line at the start of a text that a NUL follows. -/
def viewLine (rest : List Byte) : TextLine :=
  if rest.head? = none ∨ rest.head? = some 0 then .stop
  else if ((rest.dropWhile blank).dropWhile inLine).head? ≠ some 0x0a then .error
  else if lineBody rest = [] ∨ (lineBody rest).head? = some 0x3b then .skip (lineLength rest)
  else .text (rest.takeWhile blank).length (trimRight (lineBody rest)) (lineLength rest)

/-- A line of `str` and a blank. -/
def isKeyword (str line : List Byte) : Bool :=
  line.take str.length = str ∧ ((line.drop str.length).head?.map spcOrTab) = some true

/-! ## Reading memory -/

theorem scan_eq {stop : Byte → Bool} {m : Mem} {p : Word} {xs ys : List Byte} {y : Byte} {n : ℕ}
    (h : BytesAt m p (xs ++ y :: ys)) (hxs : ∀ x ∈ xs, stop x = false) (hy : stop y = true)
    (hn : xs.length < n) : scan stop m n p = some (p + BitVec.ofNat 32 xs.length) := by
  induction xs generalizing p n with
  | nil =>
    obtain ⟨n, rfl⟩ := Nat.exists_eq_succ_of_ne_zero (by omega : n ≠ 0)
    have h0 : m p = y := ((bytesAt_cons ..).mp h).1
    rw [scan, h0, if_pos hy]
    simp
  | cons x xs ih =>
    obtain ⟨n, rfl⟩ := Nat.exists_eq_succ_of_ne_zero (by omega : n ≠ 0)
    obtain ⟨hx, hrest⟩ := (bytesAt_cons ..).mp h
    have hstop : stop x = false := hxs x List.mem_cons_self
    rw [scan, hx, if_neg (by simp [hstop]),
      ih hrest (fun x' hx' => hxs x' (List.mem_cons_of_mem _ hx')) (by simpa using hn),
      List.length_cons, ofNat_succ, BitVec.add_assoc, BitVec.add_comm 1]

/-- The first byte behind those that meet `f`, with a NUL at the end. -/
theorem dropWhile_append_nul (f : Byte → Bool) (h0 : f 0 = false) (rest : List Byte) :
    ∃ y ys, rest.dropWhile f ++ [0] = y :: ys ∧ f y = false := by
  cases hd : rest.dropWhile f with
  | nil => exact ⟨0, [], rfl, h0⟩
  | cons y ys =>
    refine ⟨y, ys ++ [0], rfl, ?_⟩
    have := List.head_dropWhile_not f (l := rest) (by rw [hd]; exact List.cons_ne_nil _ _)
    simpa [hd] using this

section

variable {m : Mem} {p : Word} {rest : List Byte}

/-- `while (f(*p)) p++;` on a text that ends with a NUL. -/
theorem skipWhile_run {f : Byte → Bool} (h0 : f 0 = false) (hat : BytesAt m p (rest ++ [0]))
    (hfit : rest.length < 2 ^ 32) :
    skipWhile f p m = ⟨some (p + BitVec.ofNat 32 (rest.takeWhile f).length), m, []⟩ ∧
      BytesAt m (p + BitVec.ofNat 32 (rest.takeWhile f).length) (rest.dropWhile f ++ [0]) := by
  obtain ⟨y, ys, hy, hfy⟩ := dropWhile_append_nul f h0 rest
  have hsplit : rest ++ [0] = rest.takeWhile f ++ (rest.dropWhile f ++ [0]) := by
    rw [← List.append_assoc, List.takeWhile_append_dropWhile]
  rw [hsplit] at hat
  refine ⟨?_, ((bytesAt_append ..).mp hat).2⟩
  rw [hy] at hat
  have hlen : (rest.takeWhile f).length ≤ rest.length := (List.takeWhile_sublist f).length_le
  rw [skipWhile, Traced.look_run, scan_eq hat (fun x hx => by simp [List.mem_takeWhile_imp hx])
    (by simp [hfy]) (by omega)]

theorem inLine_zero : inLine 0 = false := rfl

/-- `strchr(p, '\n')` on a text that ends with a NUL. -/
theorem strchr_run (hat : BytesAt m p (rest ++ [0])) (hfit : rest.length < 2 ^ 32) :
    strchr p 0x0a m = ⟨some (if (rest.dropWhile inLine).head? = some 0x0a then
      some (p + BitVec.ofNat 32 (rest.takeWhile inLine).length) else none), m, []⟩ := by
  obtain ⟨y, ys, hy, hfy⟩ := dropWhile_append_nul inLine inLine_zero rest
  have hsplit : rest ++ [0] = rest.takeWhile inLine ++ (rest.dropWhile inLine ++ [0]) := by
    rw [← List.append_assoc, List.takeWhile_append_dropWhile]
  rw [hsplit, hy] at hat
  have hlen : (rest.takeWhile inLine).length ≤ rest.length := (List.takeWhile_sublist _).length_le
  have hxs : ∀ x ∈ rest.takeWhile inLine, (decide (x = 0x0a ∨ x = 0)) = false := by
    intro x hx
    have := List.mem_takeWhile_imp hx
    simpa [inLine] using this
  have hystop : decide (y = 0x0a ∨ y = 0) = true := by
    simp only [inLine, decide_eq_false_iff_not, not_and, not_not] at hfy
    simp only [decide_eq_true_eq]
    tauto
  have hmy : m (p + BitVec.ofNat 32 (rest.takeWhile inLine).length) = y :=
    ((bytesAt_cons ..).mp ((bytesAt_append ..).mp hat).2).1
  rw [strchr, Traced.look_run, scan_eq hat hxs hystop (by omega), Option.map_some, hmy]
  congr 2
  -- the byte found is the newline exactly if it is in the text
  cases hd : rest.dropWhile inLine with
  | nil =>
    rw [hd, List.nil_append] at hy
    obtain ⟨rfl, -⟩ := List.cons.inj hy
    simp
  | cons z zs =>
    rw [hd, List.cons_append] at hy
    obtain ⟨rfl, -⟩ := List.cons.inj hy
    simp

/-- The loop that strips the end of a line, from the last byte down; by
    induction on the bytes in front of it. -/
theorem trimFrom_eq {xs : List Byte} {n : ℕ} (hlen : xs.length = n + 1) (hat : BytesAt m p xs)
    (hhead : ∀ b ∈ xs.head?, blank b = false) :
    trimFrom m n (p + BitVec.ofNat 32 n) = p + BitVec.ofNat 32 ((trimRight xs).length - 1) := by
  induction n generalizing xs with
  | zero =>
    obtain ⟨b, rfl⟩ := List.length_eq_one_iff.mp hlen
    have hb : blank b = false := hhead b rfl
    rw [trimFrom, trimRight, List.rdropWhile_singleton, if_neg (by simp [hb])]
    rfl
  | succ n ih =>
    obtain ⟨ys, y, rfl⟩ : ∃ ys y, xs = ys ++ [y] :=
      ⟨_, _, (List.dropLast_append_getLast (List.ne_nil_of_length_eq_add_one hlen)).symm⟩
    have hys : ys.length = n + 1 := by simpa using hlen
    obtain ⟨hat1, hat2⟩ := (bytesAt_append ..).mp hat
    have hy : m (p + BitVec.ofNat 32 (n + 1)) = y := by
      rw [hys] at hat2
      exact ((bytesAt_cons ..).mp hat2).1
    have hhead' : ∀ b ∈ ys.head?, blank b = false := by
      cases ys with
      | nil => simp at hys
      | cons z zs => exact hhead
    rw [trimFrom, hy, trimRight, List.rdropWhile_concat]
    split_ifs with hblank
    · rw [ofNat_succ, ← BitVec.add_assoc, BitVec.add_sub_cancel]
      exact ih hys hat1 hhead'
    · rw [List.length_append, hys]
      rfl

/-- The line in front of its newline at `e`, stripped. -/
theorem trimEnd_run {xs : List Byte} (hne : xs ≠ []) (hat : BytesAt m p xs)
    (hhead : ∀ b ∈ xs.head?, blank b = false) (hfit : p.toNat + xs.length < 2 ^ 32) :
    trimEnd p (p + BitVec.ofNat 32 xs.length) m =
      ⟨some (p + BitVec.ofNat 32 (trimRight xs).length), m, []⟩ := by
  obtain ⟨n, hn⟩ : ∃ n, xs.length = n + 1 :=
    Nat.exists_eq_succ_of_ne_zero (fun h => hne (List.length_eq_zero_iff.mp h))
  have hlast : p + BitVec.ofNat 32 xs.length - 1 = p + BitVec.ofNat 32 n := by
    rw [hn, ofNat_succ, ← BitVec.add_assoc, BitVec.add_sub_cancel]
  have hsteps : (if p + BitVec.ofNat 32 n > p then (p + BitVec.ofNat 32 n - p).toNat else 0) = n := by
    have hsub : (p + BitVec.ofNat 32 n - p).toNat = n := by
      rw [BitVec.add_comm, BitVec.add_sub_cancel, BitVec.toNat_ofNat, Nat.mod_eq_of_lt (by omega)]
    have hto : (p + BitVec.ofNat 32 n).toNat = p.toNat + n := by
      rw [BitVec.toNat_add, BitVec.toNat_ofNat, Nat.mod_eq_of_lt (show n < 2 ^ 32 by omega),
        Nat.mod_eq_of_lt (by omega)]
    split_ifs with hgt
    · exact hsub
    · rw [gt_iff_lt, BitVec.lt_def, hto] at hgt
      omega
  have hpos : 0 < (trimRight xs).length := by
    rw [List.length_pos_iff, ne_eq, trimRight, List.rdropWhile_eq_nil_iff]
    intro hall
    cases xs with
    | nil => exact hne rfl
    | cons b xs =>
      have h1 := hhead b rfl
      have h2 := hall b List.mem_cons_self
      exact absurd h2 (by simp [h1])
  rw [trimEnd, Traced.look_run, hlast, hsteps, trimFrom_eq hn hat hhead, BitVec.add_assoc,
    ← ofNat_succ, Nat.sub_add_cancel hpos]

end

/-! ## A line -/

/-- What `readLine` returns for a line of the text at `p`. -/
def TextLine.at (p : Word) : TextLine → Line
  | stop => .stop
  | error => .error
  | skip k => .skip (p + BitVec.ofNat 32 k)
  | text i _ k => .text (p + BitVec.ofNat 32 i) (p + BitVec.ofNat 32 k)

/-- What then stands in memory: the rest of the text and, as a string, the line. -/
def TextLine.Leaves (m : Mem) (p : Word) (rest : List Byte) : TextLine → Prop
  | stop => True
  | error => True
  | skip k => k ≤ rest.length ∧ BytesAt m (p + BitVec.ofNat 32 k) (rest.drop k ++ [0])
  | text i line k => i + line.length < k ∧ k ≤ rest.length ∧ 0 ∉ line ∧
      BytesAt m (p + BitVec.ofNat 32 i) (line ++ [0]) ∧
      BytesAt m (p + BitVec.ofNat 32 k) (rest.drop k ++ [0])

/-- What `readLine` does to the text at `p`. -/
structure LineRead (m m' : Mem) (log : List Access) (p : Word) (rest : List Byte) : Prop where
  leaves : (viewLine rest).Leaves m' p rest
  frame : SameOutside m m' [⟨p.toNat, rest.length⟩]
  inside : ∀ w ∈ log, w.InsideOne [⟨p.toNat, rest.length⟩]

section

variable {m : Mem} {p : Word} {rest : List Byte}

/-- A text as blanks, a line, its newline and what follows. -/
theorem rest_eq (h : ((rest.dropWhile blank).dropWhile inLine).head? = some 0x0a) :
    rest = rest.takeWhile blank ++ (lineBody rest ++ 0x0a :: rest.drop (lineLength rest)) := by
  obtain ⟨zs, hzs⟩ : ∃ zs, (rest.dropWhile blank).dropWhile inLine = 0x0a :: zs := by
    cases hd : (rest.dropWhile blank).dropWhile inLine with
    | nil => simp [hd] at h
    | cons z zs =>
      obtain rfl : z = 0x0a := by simpa [hd] using h
      exact ⟨zs, rfl⟩
  have hsplit : rest = rest.takeWhile blank ++ (lineBody rest ++ 0x0a :: zs) := by
    conv_lhs => rw [← List.takeWhile_append_dropWhile (p := blank) (l := rest),
      ← List.takeWhile_append_dropWhile (p := inLine) (l := rest.dropWhile blank), hzs]
    rfl
  have hbehind : ∀ a b : List Byte, (a ++ (b ++ 0x0a :: zs)).drop (a.length + b.length + 1) = zs := by
    intro a b
    rw [Nat.add_assoc, List.drop_length_add_append, List.drop_length_add_append]
    rfl
  have hdrop : rest.drop (lineLength rest) = zs :=
    (congrArg (List.drop _) hsplit).trans (hbehind _ _)
  rw [hdrop]
  exact hsplit

theorem mem_lineBody {b : Byte} (h : b ∈ lineBody rest) : b ≠ 0x0a ∧ b ≠ 0 := by
  simpa [inLine] using List.mem_takeWhile_imp h

/-- The line of a text does not start with a blank. -/
theorem lineBody_head : ∀ b ∈ (lineBody rest).head?, blank b = false := by
  intro b hb
  unfold lineBody at hb
  cases hd : rest.dropWhile blank with
  | nil => simp [hd] at hb
  | cons y ys =>
    have hy := List.head_dropWhile_not blank (l := rest) (by rw [hd]; exact List.cons_ne_nil _ _)
    rw [hd, List.takeWhile_cons] at hb
    split_ifs at hb with hin
    · obtain rfl : y = b := by simpa using hb
      simpa [hd] using hy
    · simp at hb

/-- A stripped line is not empty, and only its end is stripped. -/
theorem trimRight_split {body : List Byte} (hne : body ≠ [])
    (hhead : ∀ b ∈ body.head?, blank b = false) :
    ∃ bs, body = trimRight body ++ bs ∧ trimRight body ≠ [] := by
  obtain ⟨bs, hbs⟩ := List.rdropWhile_prefix blank (l := body)
  refine ⟨bs, hbs.symm, ?_⟩
  rw [trimRight, ne_eq, List.rdropWhile_eq_nil_iff]
  intro hall
  cases body with
  | nil => exact hne rfl
  | cons b body =>
    have h1 := hhead b rfl
    have h2 := hall b List.mem_cons_self
    exact absurd h2 (by simp [h1])

/-- One byte of a range. -/
theorem byte_insideOne {k n : ℕ} (hk : k < n) (hfit : p.toNat + n ≤ 2 ^ 32) :
    (⟨p + BitVec.ofNat 32 k, 1⟩ : Access).InsideOne [⟨p.toNat, n⟩] := by
  have hto : (p + BitVec.ofNat 32 k).toNat = p.toNat + k := toNat_add_ofNat hk hfit
  unfold Access.InsideOne Access.span Span.Inside Span.stop
  dsimp only
  exact ⟨by omega, _, List.mem_singleton_self _, by dsimp only; omega⟩

/-- A line is cut off at the blanks `bs` behind it, which a NUL follows already. -/
theorem cutAt_spec {line bs ys : List Byte} (hat : BytesAt m p (line ++ (bs ++ 0 :: ys)))
    (hfit : p.toNat + ((line ++ bs).length + (ys.length + 1)) ≤ 2 ^ 32) :
    ∃ m' log, cutAt (p + BitVec.ofNat 32 line.length) (p + BitVec.ofNat 32 (line ++ bs).length) m =
        ⟨some (), m', log⟩ ∧
      BytesAt m' p (line ++ [0]) ∧
      BytesAt m' (p + BitVec.ofNat 32 (line ++ bs).length + 1) ys ∧
      ∀ w ∈ log, w.InsideOne [⟨p.toNat, (line ++ bs).length + 1⟩] := by
  have hlen : (line ++ bs).length = line.length + bs.length := List.length_append
  have hto (n : ℕ) (hn : n ≤ (line ++ bs).length) : (p + BitVec.ofNat 32 n).toNat = p.toNat + n :=
    toNat_add_ofNat (n := (line ++ bs).length + 1) (by omega) (by omega)
  have hq := hto line.length (by omega)
  have he := hto (line ++ bs).length le_rfl
  have hbehind (m' : Mem) (xs : List Byte) (hx : xs.length = (line ++ bs).length)
      (h : BytesAt m' p (xs ++ 0 :: ys)) :
      BytesAt m' (p + BitVec.ofNat 32 (line ++ bs).length + 1) ys := by
    rw [bytesAt_append, hx, bytesAt_cons] at h
    exact h.2.2
  cases bs with
  | nil =>
    -- the NUL at the newline ends the line
    have hstr : BytesAt m p (line ++ [0] ++ ys) := by simpa using hat
    refine ⟨m, [], ?_, ((bytesAt_append ..).mp hstr).1, hbehind m line (by simp) hat,
      fun w hw => absurd hw List.not_mem_nil⟩
    rw [cutAt, if_neg, Traced.pure_run]
    rw [BitVec.lt_def, hq, he, List.append_nil]
    exact lt_irrefl _
  | cons c cs =>
    have hlt : line.length < (line ++ c :: cs).length := by
      rw [hlen, List.length_cons]
      omega
    have hfit' : p.toNat + (line.length + ([c].length + (cs ++ 0 :: ys).length)) ≤ 2 ^ 32 := by
      simp only [List.length_append, List.length_cons, List.length_nil] at hfit ⊢
      omega
    have hat' : BytesAt m p (line ++ ([c] ++ (cs ++ 0 :: ys))) := hat
    have hcut : BytesAt (writeBytes m (p + BitVec.ofNat 32 line.length) [0]) p
        (line ++ ([0] ++ (cs ++ 0 :: ys))) := hat'.overwrite rfl hfit'
    rw [← List.append_assoc] at hcut
    refine ⟨_, [⟨p + BitVec.ofNat 32 line.length, 1⟩], ?_, ((bytesAt_append ..).mp hcut).1,
      hbehind _ (line ++ [0] ++ cs) (by simp) (by rwa [List.append_assoc]), ?_⟩
    · rw [cutAt, if_pos (by rw [BitVec.lt_def, hq, he]; omega)]
      rfl
    · intro w hw
      obtain rfl := List.mem_singleton.mp hw
      exact byte_insideOne (by omega) (by omega)

/-- The stripped line becomes a string, and what follows it stays. -/
theorem endLine_spec {body zs : List Byte} (hne : body ≠ [])
    (hhead : ∀ b ∈ body.head?, blank b = false) (hat : BytesAt m p (body ++ (0x0a :: zs ++ [0])))
    (hfit : p.toNat + (body.length + (zs.length + 2)) ≤ 2 ^ 32) :
    ∃ m' log, endLine p (p + BitVec.ofNat 32 body.length) m =
        ⟨some (.text p (p + BitVec.ofNat 32 body.length + 1)), m', log⟩ ∧
      BytesAt m' p (trimRight body ++ [0]) ∧
      BytesAt m' (p + BitVec.ofNat 32 body.length + 1) (zs ++ [0]) ∧
      ∀ w ∈ log, w.InsideOne [⟨p.toNat, body.length + 1⟩] := by
  -- the newline becomes a NUL
  obtain ⟨m₁, hm₁⟩ : ∃ m₁, m₁ = writeBytes m (p + BitVec.ofNat 32 body.length) [0] := ⟨_, rfl⟩
  have hwrite : MemM.write (p + BitVec.ofNat 32 body.length) [0] m =
      ⟨some (), m₁, [⟨p + BitVec.ofNat 32 body.length, 1⟩]⟩ := by
    rw [hm₁]
    rfl
  have hat₁ : BytesAt m₁ p (body ++ ([0] ++ (zs ++ [0]))) := by
    rw [hm₁]
    have hat' : BytesAt m p (body ++ ([0x0a] ++ (zs ++ [0]))) := hat
    refine hat'.overwrite rfl ?_
    simp only [List.length_append, List.length_singleton]
    omega
  have htrim := trimEnd_run hne ((bytesAt_append ..).mp hat₁).1 hhead (by omega)
  obtain ⟨bs, hbs, -⟩ := trimRight_split hne hhead
  have hat₂ : BytesAt m₁ p (trimRight body ++ (bs ++ 0 :: (zs ++ [0]))) := by
    rw [← List.append_assoc, ← hbs]
    exact hat₁
  obtain ⟨m₂, log, hcut, hstr, hzs, hin⟩ := cutAt_spec hat₂ (by
    rw [← hbs, List.length_append, List.length_singleton]
    omega)
  rw [← hbs] at hcut hzs hin
  refine ⟨m₂, ⟨p + BitVec.ofNat 32 body.length, 1⟩ :: log, ?_, hstr, hzs, ?_⟩
  · rw [endLine, Traced.bind_run_some hwrite, Traced.bind_run_some htrim, Traced.bind_run_some hcut,
      Traced.pure_run]
    simp
  · intro w hw
    rcases List.mem_cons.mp hw with rfl | hw
    · exact byte_insideOne (by omega) (by omega)
    · exact hin w hw

theorem byteAt_run (p : Word) (m : Mem) : byteAt p m = ⟨some (m p), m, []⟩ := rfl

/-- An empty line and a comment are skipped, and any other line is ended. -/
theorem finishLine_spec {body zs : List Byte} (hbody : 0x0a ∉ body)
    (hhead : ∀ b ∈ body.head?, blank b = false) (hat : BytesAt m p (body ++ (0x0a :: zs ++ [0])))
    (hfit : p.toNat + (body.length + (zs.length + 2)) ≤ 2 ^ 32) :
    ∃ m' log, finishLine p (p + BitVec.ofNat 32 body.length) m =
        ⟨some (if body = [] ∨ body.head? = some 0x3b
          then .skip (p + BitVec.ofNat 32 body.length + 1)
          else .text p (p + BitVec.ofNat 32 body.length + 1)), m', log⟩ ∧
      (¬ (body = [] ∨ body.head? = some 0x3b) → BytesAt m' p (trimRight body ++ [0])) ∧
      BytesAt m' (p + BitVec.ofNat 32 body.length + 1) (zs ++ [0]) ∧
      ∀ w ∈ log, w.InsideOne [⟨p.toNat, body.length + 1⟩] := by
  have hskip : (m p = 0x3b ∨ m p = 0x0a) ↔ (body = [] ∨ body.head? = some 0x3b) := by
    cases body with
    | nil => exact iff_of_true (Or.inr ((bytesAt_cons ..).mp hat).1) (Or.inl rfl)
    | cons b body =>
      rw [((bytesAt_cons ..).mp hat).1]
      have hne : b ≠ 0x0a := fun h => hbody (h ▸ List.mem_cons_self)
      refine ⟨fun h => Or.inr (by rw [List.head?_cons, h.resolve_right hne]), fun h => ?_⟩
      exact Or.inl (Option.some.inj (h.resolve_left (List.cons_ne_nil _ _)))
  rw [finishLine, Traced.bind_run_some (byteAt_run p m)]
  by_cases hs : body = [] ∨ body.head? = some 0x3b
  · rw [if_pos hs, if_pos (hskip.mpr hs), Traced.pure_run]
    have hzs : BytesAt m (p + BitVec.ofNat 32 body.length + 1) (zs ++ [0]) :=
      ((bytesAt_cons ..).mp ((bytesAt_append ..).mp hat).2).2
    exact ⟨m, [], rfl, fun h => absurd hs h, hzs, fun w hw => absurd hw List.not_mem_nil⟩
  · rw [if_neg hs, if_neg (fun h => hs (hskip.mp h))]
    obtain ⟨m', log, hrun, hstr, hzs, hin⟩ := endLine_spec (fun h => hs (Or.inl h)) hhead hat hfit
    refine ⟨m', log, ?_, fun _ => hstr, hzs, hin⟩
    rw [hrun]
    rfl

theorem readLine_honest (p : Word) : MemM.Honest (readLine p) := by
  have hend (p e : Word) : MemM.Honest (endLine p e) := by
    refine MemM.honest_bind (MemM.honest_write _ _) fun _ => ?_
    refine MemM.honest_bind (MemM.honest_look _) fun _ => ?_
    refine MemM.honest_bind ?_ fun _ => MemM.honest_pure _
    unfold cutAt
    split_ifs
    · exact MemM.honest_write _ _
    · exact MemM.honest_pure _
  refine MemM.honest_bind (MemM.honest_look _) fun b => ?_
  split_ifs
  · exact MemM.honest_pure _
  refine MemM.honest_bind (MemM.honest_look _) fun p => ?_
  refine MemM.honest_bind (MemM.honest_look _) fun e => ?_
  cases e with
  | none => exact MemM.honest_pure _
  | some e =>
    refine MemM.honest_bind (MemM.honest_look _) fun b => ?_
    split_ifs
    · exact MemM.honest_pure _
    · exact hend _ _

theorem readLine_spec (hat : BytesAt m p (rest ++ [0]))
    (hfit : p.toNat + (rest.length + 1) ≤ 2 ^ 32) :
    ∃ m' log, readLine p m = ⟨some ((viewLine rest).at p), m', log⟩ ∧
      LineRead m m' log p rest := by
  suffices h : ∃ m' log, readLine p m = ⟨some ((viewLine rest).at p), m', log⟩ ∧
      (viewLine rest).Leaves m' p rest ∧ ∀ w ∈ log, w.InsideOne [⟨p.toNat, rest.length⟩] by
    obtain ⟨m', log, hrun, hleaves, hin⟩ := h
    have hhonest := readLine_honest p m
    rw [hrun] at hhonest
    exact ⟨m', log, hrun, hleaves, hhonest.sameOutside hin, hin⟩
  have hempty : ∀ w ∈ ([] : List Access), w.InsideOne [⟨p.toNat, rest.length⟩] :=
    fun w hw => absurd hw List.not_mem_nil
  unfold readLine viewLine
  rw [Traced.bind_run_some (byteAt_run p m)]
  have h0 : m p = 0 ↔ rest.head? = none ∨ rest.head? = some 0 := by
    cases rest with
    | nil => exact iff_of_true ((bytesAt_cons ..).mp hat).1 (Or.inl rfl)
    | cons b rest =>
      rw [((bytesAt_cons ..).mp hat).1]
      simp
  by_cases hstop : rest.head? = none ∨ rest.head? = some 0
  · rw [if_pos (h0.mpr hstop), if_pos hstop]
    exact ⟨m, [], rfl, trivial, hempty⟩
  rw [if_neg (fun h => hstop (h0.mp h)), if_neg hstop]
  obtain ⟨hskip, hat₁⟩ := skipWhile_run (f := blank) rfl hat (by omega)
  have hlen₁ : (rest.takeWhile blank).length + (rest.dropWhile blank).length = rest.length := by
    rw [← List.length_append, List.takeWhile_append_dropWhile]
  rw [Traced.bind_run_some hskip, Traced.bind_run_some (strchr_run hat₁ (by omega))]
  by_cases hnl : ((rest.dropWhile blank).dropWhile inLine).head? = some 0x0a
  swap
  · rw [if_neg hnl, if_pos hnl]
    exact ⟨m, [], rfl, trivial, hempty⟩
  rw [if_pos hnl, if_neg (not_not.mpr hnl)]
  have hrest := rest_eq hnl
  have hdrop : rest.dropWhile blank = lineBody rest ++ 0x0a :: rest.drop (lineLength rest) := by
    have := List.takeWhile_append_dropWhile (p := blank) (l := rest)
    exact List.append_cancel_left (this.trans hrest)
  have hlen : rest.length = lineLength rest + (rest.drop (lineLength rest)).length := by
    have := congrArg List.length hrest
    simp only [List.length_append, List.length_cons] at this
    unfold lineLength at this ⊢
    omega
  have hnext : p + BitVec.ofNat 32 (rest.takeWhile blank).length +
      BitVec.ofNat 32 (lineBody rest).length + 1 = p + BitVec.ofNat 32 (lineLength rest) := by
    rw [lineLength, ofNat_succ, BitVec.ofNat_add, ← BitVec.add_assoc, ← BitVec.add_assoc]
  have hp₁ : (p + BitVec.ofNat 32 (rest.takeWhile blank).length).toNat =
      p.toNat + (rest.takeWhile blank).length :=
    toNat_add_ofNat (n := rest.length + 1) (by omega) hfit
  have hk : lineLength rest = (rest.takeWhile blank).length + (lineBody rest).length + 1 := rfl
  rw [hdrop, List.append_assoc] at hat₁
  obtain ⟨m', log, hrun, hstr, hzs, hin⟩ := finishLine_spec (fun h => (mem_lineBody h).1 rfl)
    lineBody_head hat₁ (by rw [hp₁]; omega)
  rw [hnext] at hrun hzs
  have hline : (Span.mk (p + BitVec.ofNat 32 (rest.takeWhile blank).length).toNat
      ((lineBody rest).length + 1)).Inside ⟨p.toNat, rest.length⟩ := by
    unfold Span.Inside Span.stop
    dsimp only
    omega
  refine ⟨m', log, hrun.trans ?_, ?_, fun w hw => (hin w hw).mono fun r hr => ?_⟩
  · split_ifs <;> rfl
  · by_cases hs : lineBody rest = [] ∨ (lineBody rest).head? = some 0x3b
    · rw [if_pos hs]
      exact ⟨by omega, hzs⟩
    · rw [if_neg hs]
      have htrim : (trimRight (lineBody rest)).length ≤ (lineBody rest).length :=
        (List.rdropWhile_prefix blank _).length_le
      refine ⟨by omega, by omega, fun h => ?_, hstr hs, hzs⟩
      exact (mem_lineBody ((List.rdropWhile_prefix blank _).subset h)).2 rfl
  · obtain rfl := List.mem_singleton.mp hr
    exact ⟨_, List.mem_singleton_self _, hline⟩

/-! ## A string -/

theorem readBytes_of_bytesAt {bs : List Byte} (h : BytesAt m p bs) {n : ℕ} (hn : n ≤ bs.length) :
    readBytes m p n = bs.take n := by
  have hsplit := h
  rw [← List.take_append_drop n bs, bytesAt_append] at hsplit
  have := hsplit.1
  rwa [BytesAt, List.length_take, Nat.min_eq_left hn] at this

/-- `KEYWORD` on a string decides `isKeyword`; it does not look behind the NUL
    of a string that is too short. -/
theorem keyword_run {str bs : List Byte} (hstr : 0 ∉ str)
    (hat : BytesAt m p (bs ++ [0])) :
    keyword str p m = ⟨some (isKeyword str bs), m, []⟩ := by
  rw [keyword, Traced.look_run]
  congr 2
  unfold isKeyword
  by_cases hlen : str.length ≤ bs.length
  · have hread : readBytes m p str.length = bs.take str.length := by
      rw [readBytes_of_bytesAt hat (by simp; omega), List.take_append_of_le_length hlen]
    have hnext : ((bs.drop str.length).head?.map spcOrTab = some true) ↔
        spcOrTab (m (p + BitVec.ofNat 32 str.length)) = true := by
      have hbyte := hat.getElem str.length (by simp; omega)
      rw [hbyte]
      cases hd : bs.drop str.length with
      | nil =>
        have hle : bs.length ≤ str.length := List.drop_eq_nil_iff.mp hd
        obtain hlen' : str.length = bs.length := le_antisymm hlen hle
        rw [List.getElem_append_right (by omega)]
        simp [spcOrTab]
      | cons c cs =>
        have hlt : str.length < bs.length := by
          by_contra hge
          rw [List.drop_eq_nil_of_le (by omega)] at hd
          exact absurd hd (by simp)
        have hc : bs[str.length] = c := by
          have := List.getElem_drop (i := str.length) (j := 0) (h := (by simp; omega : 0 < (bs.drop str.length).length))
          simpa [hd] using this.symm
        rw [List.getElem_append_left hlt, hc]
        simp
    rw [hread]
    simp only [hnext]
  · -- the NUL of the string is no byte of the keyword
    have hne : readBytes m p str.length ≠ str := by
      intro heq
      have h1 := readBytes_getElem m p str.length bs.length (by simp; omega)
      have h2 := hat.getElem bs.length (by simp)
      rw [h2, List.getElem_append_right le_rfl] at h1
      simp only [heq, Nat.sub_self, List.getElem_cons_zero] at h1
      exact hstr (h1 ▸ List.getElem_mem _)
    have hne' : bs.take str.length ≠ str := by
      intro heq
      have := congrArg List.length heq
      rw [List.length_take] at this
      omega
    simp [hne, hne']

end

end BBoot.Boot
