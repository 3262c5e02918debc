import BBoot.Common.Chars

/-!
# Console output

`drivers/console.c`: the registered drivers form a list through their `next`
fields, and every call writes its text to each of them. The trace holds the
`write` calls in order, each with the driver and the bytes. A driver is a pointer
of any type `δ`, and `NULL` is `none`. A text is given by its array, `s`, and `p`
and `q` are indices into it.

Results:
* `putcharsFrom_writes`: the loop of `putchars` writes every byte of the text once.
* `console_output`: each driver receives the texts of all calls with every newline
  as `"\r\n"`.
-/

namespace BBoot.Console

open Traced

/-! ## Model -/

/-- `console_out` (line 11) and the `next` field of every driver. -/
structure Drivers (δ : Type) where
  consoleOut : Option δ
  next : δ → Option δ

/-- A program that logs the calls `out->write(bytes)`. -/
abbrev ConsoleM (δ : Type) := Traced (Drivers δ) (δ × List Byte)

section

variable {δ : Type}

/-- `console_add_output_driver` (lines 13–17). -/
def consoleAddOutputDriver [DecidableEq δ] (out : δ) : ConsoleM δ Unit :=
  Traced.update fun con => ⟨some out, Function.update con.next out con.consoleOut⟩

/-- `for (; out; out = out->next) out->write(bytes);` -/
def writeFrom (bytes : List Byte) : ℕ → Option δ → ConsoleM δ Unit
  | 0, _ => Traced.diverge
  | _ + 1, none => pure ()
  | fuel + 1, some out => do
    Traced.emit (out, bytes)
    let next ← Traced.look fun con => some (con.next out)
    writeFrom bytes fuel next

/-- The same from `console_out` on. -/
def writeEach (fuel : ℕ) (bytes : List Byte) : ConsoleM δ Unit := do
  let out ← Traced.look fun con => some con.consoleOut
  writeFrom bytes fuel out

/-- `putchar` (lines 19–30). A `char` is unsigned on PowerPC. -/
def putchar (fuel : ℕ) (c : Word) : ConsoleM δ Word := do
  let cc : Byte := c.setWidth 8
  writeEach fuel (if cc = 0x0a then [0x0d, 0x0a] else [cc])
  pure (cc.setWidth 32)

/-- `for (; q - s < (int)n && *q != '\n'; q++)` (line 38). -/
def lineEnd (s : Chars) (n : Word) : ℕ → ℤ → Option ℤ
  | 0, _ => none
  | fuel + 1, q => if q < n.toInt ∧ s q ≠ 0x0a then lineEnd s n fuel (q + 1) else some q

/-- The `k` bytes from `i` on. -/
def bytesFrom (s : Chars) (i : ℤ) : ℕ → List Byte
  | 0 => []
  | k + 1 => s i :: bytesFrom s (i + 1) k

/-- The loop of `putchars` (lines 36–46). -/
def putcharsFrom (fuel : ℕ) (s : Chars) (n : Word) : ℕ → ℤ → ConsoleM δ Unit
  | 0, _ => Traced.diverge
  | rounds + 1, p =>
    if p < n.toInt then do
      let q ← Traced.look fun _ => lineEnd s n fuel p
      (if q > p then writeEach fuel (bytesFrom s p (q - p).toNat) else pure ())
      if q < n.toInt ∧ s q ≠ 0 then do
        let _ ← putchar fuel 0x0a
        putcharsFrom fuel s n rounds (q + 1)
      else putcharsFrom fuel s n rounds q
    else pure ()

/-- `putchars` (lines 32–47). -/
def putchars (fuel : ℕ) (s : Chars) (n : Word) : ConsoleM δ Unit := putcharsFrom fuel s n fuel 0

/-- `puts` (lines 49–56). -/
def puts (fuel : ℕ) (s : Chars) : ConsoleM δ Word := do
  let len ← Traced.look fun _ => (CharsM.strlen fuel 0 s).val
  let n := BitVec.ofNat 32 len
  putchars fuel s n
  let _ ← putchar fuel 0x0a
  pure (n + 1)

/-- A call of one of the three. -/
inductive Call
  | putchar (c : Word)
  | putchars (s : Chars) (n : Word)
  | puts (s : Chars)

def Call.run (fuel : ℕ) : Call → ConsoleM δ Unit
  | .putchar c => do
    let _ ← Console.putchar fuel c
    pure ()
  | .putchars s n => Console.putchars fuel s n
  | .puts s => do
    let _ ← Console.puts fuel s
    pure ()

/-- One call after the other. -/
def runCalls (fuel : ℕ) : List Call → ConsoleM δ Unit
  | [] => pure ()
  | call :: calls => do
    call.run fuel
    runCalls fuel calls

/-- The drivers are registered one after the other. -/
def register [DecidableEq δ] : List δ → ConsoleM δ Unit
  | [] => pure ()
  | out :: ds => do
    consoleAddOutputDriver out
    register ds

/-- What the driver `d` is handed by the `write` calls of a trace. -/
def received [DecidableEq δ] (d : δ) (log : List (δ × List Byte)) : List Byte :=
  (log.filter fun w => w.1 = d).flatMap Prod.snd

/-- What `d` receives if the drivers `ds` are registered and `calls` made; `next` is what
    the fields hold before. -/
def output [DecidableEq δ] (ds : List δ) (next : δ → Option δ) (fuel : ℕ) (calls : List Call)
    (d : δ) : Option (List Byte) :=
  let run := (do register ds; runCalls fuel calls : ConsoleM δ Unit) ⟨none, next⟩
  run.val.map fun _ => received d run.log

end

/-! ## Texts -/

/-- A text with every newline as `"\r\n"`. -/
def crlf (text : List Byte) : List Byte :=
  text.flatMap fun b => if b = 0x0a then [0x0d, 0x0a] else [b]

/-- The text of a call: a character, the `n` bytes at `s`, or the string at `s` and a
    newline. Lengths are below `2^31`, the bound of an `int` and of `q - s`. -/
inductive Call.Says : Call → List Byte → Prop
  | putchar (c : Word) : Says (.putchar c) [c.setWidth 8]
  | putchars {s : Chars} {n : Word} {text : List Byte} : s.Holds 0 text → text.length = n.toNat →
      n.toNat < 2 ^ 31 → Says (.putchars s n) text
  | puts {s : Chars} {text : List Byte} : s.Holds 0 (text ++ [0]) → 0 ∉ text →
      text.length < 2 ^ 31 → Says (.puts s) (text ++ [0x0a])

theorem crlf_append (text text' : List Byte) : crlf (text ++ text') = crlf text ++ crlf text' :=
  List.flatMap_append

/-- Without a newline nothing changes. -/
theorem crlf_line {text : List Byte} (h : ∀ b ∈ text, b ≠ 0x0a) : crlf text = text := by
  induction text with
  | nil => rfl
  | cons b text ih =>
    rw [crlf, List.flatMap_cons, if_neg (h b List.mem_cons_self)]
    exact congrArg (b :: ·) (ih fun c hc => h c (List.mem_cons_of_mem _ hc))

theorem bytesFrom_eq {s : Chars} {i : ℤ} {text : List Byte} (h : s.Holds i text) :
    bytesFrom s i text.length = text := by
  induction text generalizing i with
  | nil => rfl
  | cons b text ih =>
    obtain ⟨hb, htext⟩ := h
    rw [List.length_cons, bytesFrom, hb, ih htext]

/-- The search stops at the first newline, or at the end of the text. -/
theorem lineEnd_eq {s : Chars} {n : Word} {q : ℤ} {rest : List Byte} {fuel : ℕ}
    (h : s.Holds q rest) (hn : q + rest.length = n.toInt) (hfuel : rest.length < fuel) :
    lineEnd s n fuel q = some (q + (rest.takeWhile fun b => b ≠ 0x0a).length) := by
  induction rest generalizing q fuel with
  | nil =>
    obtain ⟨fuel, rfl⟩ := Nat.exists_eq_succ_of_ne_zero (by omega : fuel ≠ 0)
    rw [List.length_nil] at hn
    rw [lineEnd, if_neg (fun hlt => by omega)]
    simp
  | cons b rest ih =>
    obtain ⟨fuel, rfl⟩ := Nat.exists_eq_succ_of_ne_zero (by omega : fuel ≠ 0)
    obtain ⟨hb, hrest⟩ := h
    rw [List.length_cons] at hn hfuel
    push_cast at hn
    rw [lineEnd, hb, List.takeWhile_cons]
    by_cases hnl : b = 0x0a
    · rw [if_neg (fun hlt => hlt.2 hnl), if_neg (by simpa using hnl)]
      simp
    · rw [if_pos ⟨by omega, hnl⟩, if_pos (by simpa using hnl), ih hrest (by omega) (by omega),
        List.length_cons]
      congr 1
      push_cast
      ring

/-! ## The drivers -/

section

variable {δ : Type} {ds : List δ} {con : Drivers δ} {next : δ → Option δ} {bytes bytes' : List Byte}
  {log log' : List (δ × List Byte)}

/-- From `out` on, the `next` fields lead through the drivers `ds`. -/
def Linked (next : δ → Option δ) : Option δ → List δ → Prop
  | out, [] => out = none
  | out, d :: ds => out = some d ∧ Linked next (next d) ds

theorem writeFrom_run {out : Option δ} {fuel : ℕ} (h : Linked con.next out ds)
    (hfuel : ds.length < fuel) :
    writeFrom bytes fuel out con = ⟨some (), con, ds.map fun d => (d, bytes)⟩ := by
  induction ds generalizing out fuel with
  | nil =>
    obtain ⟨fuel, rfl⟩ := Nat.exists_eq_succ_of_ne_zero (by omega : fuel ≠ 0)
    obtain rfl : out = none := h
    rfl
  | cons d ds ih =>
    obtain ⟨fuel, rfl⟩ := Nat.exists_eq_succ_of_ne_zero (by omega : fuel ≠ 0)
    obtain ⟨rfl, hrest⟩ := h
    have hemit : Traced.emit (d, bytes) con = ⟨some (), con, [(d, bytes)]⟩ := rfl
    have hlook : (Traced.look fun con => some (con.next d) : ConsoleM δ _) con =
        ⟨some (con.next d), con, []⟩ := rfl
    rw [writeFrom, Traced.bind_run_some hemit, Traced.bind_run_some hlook,
      ih hrest (Nat.lt_of_succ_lt_succ hfuel)]
    rfl

/-- The fields of other drivers do not matter. -/
theorem Linked.update [DecidableEq δ] {out d : Option δ} {k : δ} (h : Linked next out ds)
    (hk : k ∉ ds) : Linked (Function.update next k d) out ds := by
  induction ds generalizing out with
  | nil => exact h
  | cons e ds ih =>
    obtain ⟨hout, hrest⟩ := h
    obtain ⟨hke, hkds⟩ := not_or.mp (List.mem_cons.not.mp hk)
    refine ⟨hout, ?_⟩
    rw [Function.update_of_ne (Ne.symm hke)]
    exact ih hrest hkds

variable [DecidableEq δ]

/-- Registered drivers are linked, the last one first. -/
theorem register_run {old : List δ} (h : Linked con.next con.consoleOut old)
    (hds : (old ++ ds).Nodup) :
    ∃ con', register ds con = ⟨some (), con', []⟩ ∧
      Linked con'.next con'.consoleOut (ds.reverse ++ old) := by
  induction ds generalizing con old with
  | nil => exact ⟨con, rfl, h⟩
  | cons d ds ih =>
    have hd : d ∉ old := fun hmem =>
      (List.nodup_append.mp hds).2.2 d hmem d List.mem_cons_self rfl
    have hlinked : Linked (Function.update con.next d con.consoleOut) (some d) (d :: old) := by
      refine ⟨rfl, ?_⟩
      rw [Function.update_self]
      exact h.update hd
    have hperm : (old ++ d :: ds).Perm (d :: old ++ ds) := List.perm_middle
    have hnodup : (d :: old ++ ds).Nodup := hperm.nodup_iff.mp hds
    obtain ⟨con', hrun, hcon'⟩ := @ih ⟨some d, Function.update con.next d con.consoleOut⟩ _ hlinked hnodup
    refine ⟨con', ?_, ?_⟩
    · have hadd : consoleAddOutputDriver d con =
          ⟨some (), ⟨some d, Function.update con.next d con.consoleOut⟩, []⟩ := rfl
      rw [register, Traced.bind_run_some hadd, hrun]
      rfl
    · rw [List.reverse_cons, List.append_assoc]
      exact hcon'

/-! ## What is written -/

/-- Every one of the drivers `ds` is handed the bytes `bytes`. -/
def Hands (ds : List δ) (log : List (δ × List Byte)) (bytes : List Byte) : Prop :=
  ∀ d ∈ ds, received d log = bytes

theorem received_append (d : δ) (log log' : List (δ × List Byte)) :
    received d (log ++ log') = received d log ++ received d log' := by
  rw [received, List.filter_append, List.flatMap_append]
  rfl

theorem Hands.append (h : Hands ds log bytes) (h' : Hands ds log' bytes') :
    Hands ds (log ++ log') (bytes ++ bytes') := fun d hd => by
  rw [received_append, h d hd, h' d hd]

/-- One `write` call for each driver. -/
theorem hands_map (hds : ds.Nodup) (bytes : List Byte) :
    Hands ds (ds.map fun d => (d, bytes)) bytes := by
  intro d hd
  have hfilter : ((ds.map fun d => (d, bytes)).filter fun w => w.1 = d) = [(d, bytes)] := by
    rw [List.filter_map]
    have : ds.filter ((fun w : δ × List Byte => decide (w.1 = d)) ∘ fun d => (d, bytes)) = [d] := by
      have heq : ((fun w : δ × List Byte => decide (w.1 = d)) ∘ fun d => (d, bytes)) =
          fun e => e == d := by
        funext e
        rfl
      rw [heq, List.filter_beq, List.count_eq_one_of_mem hds hd]
      rfl
    rw [this]
    rfl
  rw [received, hfilter]
  exact List.append_nil _

/-- `x` returns, changes nothing, and hands `bytes` to every driver. -/
def Writes {α : Type} (ds : List δ) (con : Drivers δ) (x : ConsoleM δ α) (bytes : List Byte) : Prop :=
  ∃ a log, x con = ⟨some a, con, log⟩ ∧ Hands ds log bytes

theorem Writes.bind {α β : Type} {x : ConsoleM δ α} {f : α → ConsoleM δ β}
    (h : Writes ds con x bytes) (h' : ∀ a, Writes ds con (f a) bytes') :
    Writes ds con (x >>= f) (bytes ++ bytes') := by
  obtain ⟨a, log, hx, hlog⟩ := h
  obtain ⟨c, log', hf, hlog'⟩ := h' a
  exact ⟨c, log ++ log', by rw [Traced.bind_run_some hx, hf], hlog.append hlog'⟩

theorem writes_pure {α : Type} (a : α) : Writes ds con (pure a) [] :=
  ⟨a, [], rfl, fun _ _ => rfl⟩

theorem writes_look {α β : Type} {g : Drivers δ → Option α} {a : α} (h : g con = some a)
    {f : α → ConsoleM δ β} (hf : Writes ds con (f a) bytes) :
    Writes ds con (Traced.look g >>= f) bytes := by
  obtain ⟨c, log, hrun, hlog⟩ := hf
  refine ⟨c, log, ?_, hlog⟩
  have hlook : (Traced.look g : ConsoleM δ α) con = ⟨some a, con, []⟩ := by
    rw [Traced.look_run, h]
  rw [Traced.bind_run_some hlook, hrun, List.nil_append]

section

variable (hds : ds.Nodup) (hcon : Linked con.next con.consoleOut ds) {fuel : ℕ}
  (hfuel : ds.length < fuel)

include hds hcon hfuel

theorem writeEach_writes (bytes : List Byte) : Writes ds con (writeEach fuel bytes) bytes :=
  writes_look rfl ⟨(), _, writeFrom_run hcon hfuel, hands_map hds bytes⟩

theorem putchar_writes (c : Word) : Writes ds con (putchar fuel c) (crlf [c.setWidth 8]) := by
  have hcrlf : crlf [c.setWidth 8] =
      (if c.setWidth 8 = (0x0a : Byte) then [0x0d, 0x0a] else [c.setWidth 8]) ++ [] := rfl
  rw [hcrlf]
  exact (writeEach_writes hds hcon hfuel _).bind fun _ => writes_pure _

/-- **The loop of `putchars`** on the rest of a text: a run up to the next newline, then
    that newline. By induction on the rounds, each of which takes at least one byte. -/
theorem putcharsFrom_writes {s : Chars} {n : Word} {rounds : ℕ} {p : ℤ} {rest : List Byte}
    (h : s.Holds p rest) (hn : p + rest.length = n.toInt) (hlen : rest.length < fuel)
    (hrounds : rest.length < rounds) :
    Writes ds con (putcharsFrom fuel s n rounds p) (crlf rest) := by
  induction rounds generalizing p rest with
  | zero => omega
  | succ rounds ih =>
    rw [putcharsFrom]
    by_cases hlt : p < n.toInt
    · rw [if_pos hlt]
      refine writes_look (lineEnd_eq h hn hlen) ?_
      -- the run up to the newline, and what is behind it
      have hsplit := List.takeWhile_append_dropWhile (p := fun b : Byte => b ≠ 0x0a) (l := rest)
      have hrun : ∀ b ∈ rest.takeWhile fun b => b ≠ 0x0a, b ≠ 0x0a := fun b hb => by
        simpa using List.mem_takeWhile_imp hb
      have hnl : ∀ b ∈ (rest.dropWhile fun b => b ≠ 0x0a).head?, b = 0x0a := by
        intro b hb
        have hstop := List.head?_dropWhile_not (fun b : Byte => b ≠ 0x0a) rest
        rw [Option.mem_def.mp hb] at hstop
        simpa using hstop
      generalize (rest.takeWhile fun b => b ≠ 0x0a) = run at hsplit hrun
      generalize (rest.dropWhile fun b => b ≠ 0x0a) = tail at hsplit hnl
      subst hsplit
      rw [Chars.holds_append] at h
      rw [List.length_append] at hn hlen hrounds
      push_cast at hn
      rw [crlf_append, crlf_line hrun]
      refine Writes.bind ?_ fun _ => ?_
      · cases run with
        | nil =>
          rw [if_neg (by simp)]
          exact writes_pure ()
        | cons b run =>
          rw [if_pos (by simp)]
          have hlen' : (p + ((b :: run).length : ℕ) - p).toNat = (b :: run).length := by omega
          rw [hlen', bytesFrom_eq h.1]
          exact writeEach_writes hds hcon hfuel _
      · cases tail with
        | nil =>
          rw [List.length_nil] at hn hrounds
          rw [if_neg fun hlt' => by omega]
          exact ih trivial (by simpa using hn) (by simp; omega) (by simp; omega)
        | cons b tail =>
          obtain rfl : b = 0x0a := hnl b rfl
          obtain ⟨hb, htail⟩ := h.2
          rw [List.length_cons] at hn hlen hrounds
          push_cast at hn
          rw [if_pos ⟨by omega, by rw [hb]; decide⟩, ← List.singleton_append, crlf_append]
          refine (putchar_writes hds hcon hfuel 0x0a).bind fun _ => ?_
          exact ih htail (by omega) (by omega) (by omega)
    · obtain rfl : rest = [] := List.length_eq_zero_iff.mp (by omega)
      rw [if_neg hlt]
      exact writes_pure ()

theorem putchars_writes {s : Chars} {n : Word} {text : List Byte} (h : s.Holds 0 text)
    (hn : text.length = n.toNat) (hlt : n.toNat < 2 ^ 31) (hlen : text.length < fuel) :
    Writes ds con (putchars fuel s n) (crlf text) := by
  have hint : n.toInt = n.toNat := BitVec.toInt_eq_toNat_of_lt (by omega)
  exact putcharsFrom_writes hds hcon hfuel h (by rw [hint, hn, zero_add]) hlen hlen

omit hds hcon hfuel in
theorem strlen_val {s : Chars} {text : List Byte} (h : s.Holds 0 (text ++ [0])) (hnul : 0 ∉ text)
    (hlen : text.length < fuel) : (CharsM.strlen fuel 0 s).val = some text.length := by
  obtain ⟨log, hrun, -⟩ := CharsM.strlen_returns (P := fun _ => True) hnul h hlen fun _ _ => trivial
  rw [hrun]

/-- `puts` passes on the length of the string as `n`. -/
theorem puts_writes {s : Chars} {text : List Byte} (h : s.Holds 0 (text ++ [0])) (hnul : 0 ∉ text)
    (hlt : text.length < 2 ^ 31) (hlen : text.length < fuel) :
    Writes ds con (puts fuel s) (crlf (text ++ [0x0a])) := by
  have hto : (BitVec.ofNat 32 text.length).toNat = text.length := by
    rw [BitVec.toNat_ofNat, Nat.mod_eq_of_lt (by omega)]
  rw [crlf_append]
  refine writes_look (strlen_val h hnul hlen) ?_
  refine (putchars_writes hds hcon hfuel (Chars.holds_append.mp h).1 hto.symm (by omega) hlen).bind
    fun _ => ?_
  rw [← List.append_nil (crlf [0x0a])]
  exact (putchar_writes hds hcon hfuel 0x0a).bind fun _ => writes_pure _

/-- A longer string has a negative length as an `int`, and only the newline is written. -/
theorem puts_writes_long {s : Chars} {text : List Byte} (h : s.Holds 0 (text ++ [0]))
    (hnul : 0 ∉ text) (hge : 2 ^ 31 ≤ text.length) (hlt : text.length < 2 ^ 32)
    (hlen : text.length < fuel) : Writes ds con (puts fuel s) (crlf [0x0a]) := by
  have hto : (BitVec.ofNat 32 text.length).toNat = text.length := by
    rw [BitVec.toNat_ofNat, Nat.mod_eq_of_lt hlt]
  have hneg : ¬ (0 : ℤ) < (BitVec.ofNat 32 text.length).toInt := by
    rw [BitVec.toInt_eq_toNat_cond, hto]
    split_ifs
    · omega
    · omega
  have hnothing : Writes ds con (putchars fuel s (BitVec.ofNat 32 text.length)) [] := by
    obtain ⟨fuel, rfl⟩ := Nat.exists_eq_succ_of_ne_zero (by omega : fuel ≠ 0)
    rw [putchars, putcharsFrom, if_neg hneg]
    exact writes_pure ()
  rw [← List.nil_append (crlf [0x0a])]
  refine writes_look (strlen_val h hnul hlen) (hnothing.bind fun _ => ?_)
  rw [← List.append_nil (crlf [0x0a])]
  exact (putchar_writes hds hcon hfuel 0x0a).bind fun _ => writes_pure _

theorem call_writes {call : Call} {text : List Byte} (h : call.Says text)
    (hlen : text.length < fuel) : Writes ds con (call.run fuel) (crlf text) := by
  cases h with
  | putchar c =>
    rw [← List.append_nil (crlf _)]
    exact (putchar_writes hds hcon hfuel c).bind fun _ => writes_pure _
  | putchars h hn hlt => exact putchars_writes hds hcon hfuel h hn hlt hlen
  | puts h hnul hlt =>
    rw [List.length_append, List.length_singleton] at hlen
    rw [← List.append_nil (crlf _)]
    exact (puts_writes hds hcon hfuel h hnul hlt (by omega)).bind fun _ => writes_pure _

/-- The texts of several calls, one behind the other. -/
theorem runCalls_writes {calls : List Call} {texts : List (List Byte)}
    (h : List.Forall₂ Call.Says calls texts) (hlen : ∀ text ∈ texts, text.length < fuel) :
    Writes ds con (runCalls fuel calls) (crlf texts.flatten) := by
  induction h with
  | nil => exact writes_pure ()
  | cons hcall _ ih =>
    rw [List.flatten_cons, crlf_append]
    exact (call_writes hds hcon hfuel hcall (hlen _ List.mem_cons_self)).bind fun _ =>
      ih fun text ht => hlen text (List.mem_cons_of_mem _ ht)

end

/-- Enough rounds for the loops over the drivers and over each text. -/
def Enough (fuel : ℕ) (ds : List δ) (texts : List (List Byte)) : Prop :=
  ds.length < fuel ∧ ∀ text ∈ texts, text.length < fuel

/-- What a registered driver receives. -/
theorem output_eq (hds : ds.Nodup) (next : δ → Option δ) {fuel : ℕ} {calls : List Call}
    {texts : List (List Byte)} (h : List.Forall₂ Call.Says calls texts)
    (hfuel : Enough fuel ds texts) {d : δ} (hd : d ∈ ds) :
    output ds next fuel calls d = some (crlf texts.flatten) := by
  have hnone : Linked next none [] := rfl
  obtain ⟨con, hrun, hcon⟩ := @register_run _ _ ⟨none, next⟩ _ _ hnone hds
  rw [List.append_nil] at hcon
  obtain ⟨a, log, hcalls, hlog⟩ := runCalls_writes (List.nodup_reverse.mpr hds) hcon
    (by rw [List.length_reverse]; exact hfuel.1) h hfuel.2
  unfold output
  rw [Traced.bind_run_some hrun, hcalls]
  exact congrArg some (hlog d (List.mem_reverse.mpr hd))

/-- **Every driver receives the text of the calls** with each newline as `"\r\n"`. So it does
    not matter how a text is split into calls, and the drivers all receive the same. -/
theorem console_output (hds : ds.Nodup) (next : δ → Option δ) {fuel : ℕ} {calls : List Call}
    {texts : List (List Byte)} (h : List.Forall₂ Call.Says calls texts)
    (hfuel : Enough fuel ds texts) :
    (∀ d ∈ ds, output ds next fuel calls d = some (crlf texts.flatten)) ∧
      ∀ calls' texts', List.Forall₂ Call.Says calls' texts' → Enough fuel ds texts' →
        texts'.flatten = texts.flatten → ∀ d ∈ ds, ∀ d' ∈ ds,
          output ds next fuel calls' d' = output ds next fuel calls d := by
  refine ⟨fun d hd => output_eq hds next h hfuel hd, ?_⟩
  intro calls' texts' h' hfuel' hsame d hd d' hd'
  rw [output_eq hds next h' hfuel' hd', output_eq hds next h hfuel hd, hsame]

end

/-- An array with the bytes `text` and zeros behind them. -/
def arrayOf (text : List Byte) : Chars := fun i => text.getD i.toNat 0

/-- Of two drivers the first one, and a text given to each of the calls. -/
theorem console_output_two :
    output [0, 1] (fun _ : ℕ => none) 8
      [.putchar 0x161, .putchars (arrayOf [0x0a, 0x00, 0x62, 0x0a]) 3, .puts (arrayOf [0x0a, 0x63])]
      0 = some [0x61, 0x0d, 0x0a, 0x00, 0x62, 0x0d, 0x0a, 0x63, 0x0d, 0x0a] :=
  have hputs : (Call.puts (arrayOf [0x0a, 0x63])).Says [0x0a, 0x63, 0x0a] :=
    @Call.Says.puts _ [0x0a, 0x63] (by simp [Chars.Holds, arrayOf]) (by decide) (by decide)
  (@console_output ℕ [0, 1] _ (by decide) (fun _ => none) 8 _
    [[0x61], [0x0a, 0x00, 0x62], [0x0a, 0x63, 0x0a]]
    (.cons (.putchar 0x161) (.cons (.putchars (by simp [Chars.Holds, arrayOf]) rfl (by decide))
      (.cons hputs .nil))) ⟨by decide, by decide⟩).1 0 (by decide)

end BBoot.Console
