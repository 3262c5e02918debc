import BBoot.Boot.Calls
import BBoot.Zip.RoundTrip

/-!
# Failed claims on pegasos2

The firmware's claim service answers `(void *)-1` when it fails, and `of_claim`
passes that on; the callers test the result against `NULL`. `afterFailure` is
what the loader still does after the first claim that failed.

Results:
* `failure_noticed_iff`: a run notices a failure exactly when the claim that
  failed was for a file whose extraction was refused before it wrote a byte;
  `start` notices one exactly when there is none.
* `failedText_written`: a run that writes through the failed result.
-/

namespace BBoot.Boot

open Zip

/-- A claim that the firmware refused. -/
def Event.failed : Event → Bool
  | .claim _ _ ret => ret = 0xffffffff
  | _ => false

/-- A claim or a write of at least one byte. -/
def Event.acts : Event → Bool
  | .claim _ _ _ => true
  | .write w => w.len ≠ 0
  | _ => false

/-- An extraction that fails without writing. -/
def Event.refused : Event → Bool
  | .extract _ x => x = some ⟨.zError, []⟩
  | _ => false

/-- A call of `prom_getprop`. -/
def Event.isGetprop : Event → Bool
  | .getprop _ _ => true
  | _ => false

/-- The events after the first failed claim. -/
def afterFailure : List Event → Option (List Event)
  | [] => none
  | e :: log => if e.failed = true then some log else afterFailure log

/-- As soon as a claim has failed, nothing is claimed or written any more and
    `NULL` is returned. -/
def FailureNoticed (o : Outcome Machine Event Kick) : Prop :=
  ∀ post, afterFailure o.log = some post → o.val = some .null ∧ ∀ e ∈ post, e.acts = false

/-- A claim that failed is followed by an extraction that is refused. -/
def FailureRefused (o : Outcome Machine Event Kick) : Prop :=
  ∀ post, afterFailure o.log = some post → ∃ e rest, post = e :: rest ∧ e.refused = true

/-- If the claim of the command line buffer fails, the command line stays empty
    and no `getprop` is made. -/
def ArgsNoticed (o : Outcome Machine Event Word) : Prop :=
  ∀ post, afterFailure o.log = some post → o.val = some 0 ∧ ∀ e ∈ post, e.isGetprop = false

theorem afterFailure_append (l l' : List Event) :
    afterFailure (l ++ l') =
      match afterFailure l with
      | none => afterFailure l'
      | some post => some (post ++ l') := by
  induction l with
  | nil => rfl
  | cons e l ih =>
    simp only [List.cons_append, afterFailure]
    split_ifs
    · rfl
    · exact ih

theorem afterFailure_eq_none {l : List Event} (h : ∀ e ∈ l, e.failed = false) :
    afterFailure l = none := by
  induction l with
  | nil => rfl
  | cons e l ih =>
    rw [afterFailure, if_neg (by simp [h e List.mem_cons_self])]
    exact ih fun e' he' => h e' (List.mem_cons_of_mem _ he')

/-! ## One program -/

section

variable {α β : Type} (isNull : α → Prop)

/-- The failure was noticed: the extraction was refused and `NULL` returned. -/
def Refused (val : Option α) (post : List Event) : Prop :=
  (∃ e rest, post = e :: rest ∧ e.refused = true) ∧ (∀ e ∈ post, e.acts = false) ∧
    ∃ v, val = some v ∧ isNull v

/-- It was not: the program went on, or never returns. -/
def WentOn (val : Option α) (post : List Event) : Prop :=
  (∃ e rest, post = e :: rest ∧ e.refused = false) ∧ (val = none ∨ ∃ e ∈ post, e.acts = true)

/-- After the first claim that failed, one of the two. -/
def Verdict (o : Outcome Machine Event α) : Prop :=
  ∀ post, afterFailure o.log = some post → Refused isNull o.val post ∨ WentOn o.val post

variable {isNull}

/-- A program that claims nothing. -/
theorem Verdict.of_logs {x : BootM α} (h : Traced.Logs (fun e => e.failed = false) x) (s : Machine) :
    Verdict isNull (x s) := by
  intro post hpost
  rw [afterFailure_eq_none (h s)] at hpost
  exact absurd hpost (by simp)

/-- A sequence: a program that noticed a failure ends the whole. -/
theorem Verdict.bind {isNull' : β → Prop} {x : BootM α} {f : α → BootM β} {s : Machine}
    (hx : Verdict isNull (x s)) (hf : ∀ a s', Verdict isNull' (f a s'))
    (hnull : ∀ a, isNull a → ∃ v, isNull' v ∧ f a = pure v) : Verdict isNull' ((x >>= f) s) := by
  intro post hpost
  rw [Traced.bind_run] at hpost ⊢
  cases hv : (x s).val with
  | none =>
    rw [hv] at hpost
    rcases hx post hpost with ⟨-, -, v, hval, -⟩ | ⟨h1, -⟩
    · rw [hv] at hval
      exact absurd hval (by simp)
    · exact Or.inr ⟨h1, Or.inl rfl⟩
  | some a =>
    rw [hv] at hpost
    dsimp only at hpost ⊢
    rw [afterFailure_append] at hpost
    cases hpre : afterFailure (x s).log with
    | none =>
      rw [hpre] at hpost
      exact hf a _ post hpost
    | some pre =>
      rw [hpre] at hpost
      obtain rfl : pre ++ (f a (x s).state).log = post := by simpa using hpost
      rcases hx pre hpre with ⟨h1, h2, v, hval, hvnull⟩ | ⟨⟨e, rest, he, href⟩, hact⟩
      · obtain rfl : a = v := by rw [hv] at hval; simpa using hval
        obtain ⟨w, hw, hfa⟩ := hnull a hvnull
        rw [hfa, Traced.pure_run, List.append_nil]
        exact Or.inl ⟨h1, h2, w, rfl, hw⟩
      · refine Or.inr ⟨⟨e, rest ++ (f a (x s).state).log, by rw [he, List.cons_append], href⟩, ?_⟩
        rw [hv] at hact
        obtain ⟨e', he', hacts⟩ := hact.resolve_left (by simp)
        exact Or.inr ⟨e', List.mem_append_left _ he', hacts⟩

/-- What claims nothing may come first. -/
theorem Verdict.after {isNull' : β → Prop} {x : BootM α} {f : α → BootM β} {s : Machine}
    (hx : Traced.Logs (fun e => e.failed = false) x) (hf : ∀ a s', Verdict isNull' (f a s')) :
    Verdict isNull' ((x >>= f) s) := by
  have hclean : Verdict (fun _ => False) (x s) := .of_logs hx s
  exact hclean.bind hf fun _ h => h.elim

theorem Verdict.pure (a : α) (s : Machine) : Verdict isNull ((pure a : BootM α) s) :=
  .of_logs (Traced.Logs.pure _ a) s

/-- A claim: what follows it after a failure decides. -/
theorem Verdict.of_claim {b : Brd} {r : Request} {addr : Word} {f : Word → BootM α} {s : Machine}
    (hf : ∀ ret s', Verdict isNull (f ret s'))
    (hfail : ∀ s', Refused isNull (f 0xffffffff s').val (f 0xffffffff s').log ∨
      WentOn (f 0xffffffff s').val (f 0xffffffff s').log) :
    Verdict isNull ((claim b r addr >>= f) s) := by
  intro post hpost
  have hrun : claim b r addr s = ⟨some (b.claim s.claims addr r.size),
    { s with claims := s.claims + 1 }, [.claim r addr (b.claim s.claims addr r.size)]⟩ := rfl
  rw [Traced.bind_run_some hrun] at hpost ⊢
  simp only [List.singleton_append, afterFailure, Event.failed, decide_eq_true_eq] at hpost
  split_ifs at hpost with hret
  · obtain rfl := Option.some.inj hpost
    rw [hret]
    exact hfail _
  · exact hf _ _ post hpost

end

/-! ## What claims nothing, and what acts -/

section

variable {α β : Type}

/-- No event of the program is a failed claim. -/
abbrev NoFail (x : BootM α) : Prop := Traced.Logs (fun e => e.failed = false) x

theorem noFail_onMem (x : MemM α) : NoFail (onMem x) := by
  intro s e he
  obtain ⟨w, -, rfl⟩ := List.mem_map.mp he
  rfl

theorem noFail_onZip (f : Mem → ZipT → Reads α) : NoFail (onZip f) := by
  intro s e he
  obtain rfl := List.mem_singleton.mp he
  rfl

theorem noFail_onExtract (puff : Puff) (buffer : Word) : NoFail (onExtract puff buffer) := by
  intro s e he
  obtain rfl := List.mem_singleton.mp he
  rfl

theorem noFail_storeIf (c : Bool) (r : Request) (addr : Word) : NoFail (storeIf c r addr) := by
  intro s e he
  unfold storeIf at he
  split_ifs at he
  · obtain rfl := List.mem_singleton.mp he
    rfl
  · exact absurd he List.not_mem_nil

theorem noFail_update (f : Machine → Machine) : NoFail (Traced.update f) :=
  fun _ _ he => absurd he List.not_mem_nil

theorem noFail_zipFind (name : CStr) : NoFail (zipFind name) :=
  (noFail_onZip _).bind fun _ => (noFail_update _).bind fun _ => Traced.Logs.pure _ _

theorem noFail_zipExtract (puff : Puff) (r : Request) (buffer : Word) :
    NoFail (zipExtract puff r buffer) :=
  (noFail_onExtract _ _).bind fun _ => (noFail_storeIf _ _ _).bind fun _ =>
    (noFail_onMem _).bind fun _ => Traced.Logs.pure _ _

/-- Every run of the program claims or writes something, or does not return. -/
def Acts (x : BootM α) : Prop := ∀ s, (x s).val = none ∨ ∃ e ∈ (x s).log, e.acts = true

theorem Acts.bind {x : BootM α} (h : Acts x) (f : α → BootM β) : Acts (x >>= f) := by
  intro s
  rw [Traced.bind_run]
  cases hv : (x s).val with
  | none => exact Or.inl rfl
  | some a =>
    obtain ⟨e, he, hacts⟩ := (h s).resolve_left (by simp [hv])
    exact Or.inr ⟨e, List.mem_append_left _ he, hacts⟩

theorem Acts.after (x : BootM α) {f : α → BootM β} (h : ∀ a, Acts (f a)) : Acts (x >>= f) := by
  intro s
  rw [Traced.bind_run]
  cases (x s).val with
  | none => exact Or.inl rfl
  | some a =>
    refine (h a (x s).state).imp id ?_
    rintro ⟨e, he, hacts⟩
    exact ⟨e, List.mem_append_right _ he, hacts⟩

/-- A program on memory that writes something. -/
theorem acts_onMem {x : MemM α} (h : ∀ m, (x m).val = none ∨ ∃ w ∈ (x m).log, w.len ≠ 0) :
    Acts (onMem x) := by
  intro s
  refine (h s.mem).imp id ?_
  rintro ⟨w, hw, hlen⟩
  exact ⟨.write w, List.mem_map_of_mem hw, by simpa [Event.acts] using hlen⟩

theorem acts_write (p : Word) {bs : List Byte} (h : bs ≠ []) : Acts (onMem (MemM.write p bs)) :=
  acts_onMem fun _ => Or.inr ⟨⟨p, bs.length⟩, List.mem_singleton_self _, by simpa using h⟩

theorem acts_claim (b : Brd) (r : Request) (addr : Word) : Acts (claim b r addr) :=
  fun _ => Or.inr ⟨_, List.mem_singleton_self _, rfl⟩

theorem acts_alistInit (l : Word) : Acts (onMem (alistInit l)) := by
  apply acts_onMem
  intro m
  rw [alistInit_run]
  exact Or.inr ⟨⟨l, 4⟩, List.mem_cons_self, by simp⟩

/-- `add_module` writes at least the terminator of the name. -/
theorem acts_addModule (list mod data len name : Word) :
    Acts (onMem (addModule list mod data len name)) := by
  apply acts_onMem
  intro m
  unfold addModule fillModule
  rw [Traced.bind_assoc, Traced.bind_run]
  cases hs : (string name m).val with
  | none => exact Or.inl rfl
  | some s =>
    right
    dsimp only
    rw [Traced.bind_assoc, Traced.bind_run]
    refine ⟨⟨mod + sizeofModule, (s.bytes ++ [0]).length⟩, ?_, by simp⟩
    exact List.mem_append_right _ (List.mem_append_left _ (List.mem_singleton_self _))

end

/-! ## The claims of the loader -/

section

variable {α : Type} {isNull : α → Prop} (puff : Puff)

/-- A claim for a file fails: the extraction that follows is refused, or the
    loader goes on. -/
theorem extract_after_failure (r : Request) (buffer : Word) (f : ZStatus → BootM α)
    (herror : ∃ v, isNull v ∧ f .zError = pure v) (hok : Acts (f .zOk)) (s : Machine) :
    Refused isNull ((zipExtract puff r buffer >>= f) s).val
        ((zipExtract puff r buffer >>= f) s).log ∨
      WentOn ((zipExtract puff r buffer >>= f) s).val
        ((zipExtract puff r buffer >>= f) s).log := by
  cases hx : (zipFileExtract puff s.mem s.z buffer).val with
  | none =>
    have hrun : onExtract puff buffer s = ⟨none, s,
        [.extract (zipFileExtract puff s.mem s.z buffer).log none]⟩ := by
      unfold onExtract
      rw [hx]
    right
    unfold zipExtract
    rw [Traced.bind_assoc, Traced.bind_run, hrun]
    exact ⟨⟨_, [], rfl, rfl⟩, Or.inl rfl⟩
  | some x =>
    obtain ⟨status, out⟩ := x
    rw [Traced.bind_run_some (zipExtract_run puff r buffer s hx)]
    cases status with
    | zOk =>
      right
      refine ⟨⟨_, _, rfl, rfl⟩, (hok _).imp id ?_⟩
      rintro ⟨e, he, hacts⟩
      exact ⟨e, List.mem_append_right _ he, hacts⟩
    | zError =>
      obtain ⟨v, hnull, hf⟩ := herror
      dsimp only
      rw [hf, Traced.pure_run, List.append_nil]
      cases out with
      | nil =>
        left
        refine ⟨⟨_, _, rfl, rfl⟩, ?_, v, rfl, hnull⟩
        intro e he
        simp only [starts, reduceCtorEq, ne_eq, not_true_eq_false, or_self, decide_false,
          Bool.false_eq_true, if_false, List.nil_append, List.mem_cons, List.not_mem_nil,
          or_false] at he
        rcases he with rfl | rfl <;> rfl
      | cons c out =>
        right
        refine ⟨⟨_, _, rfl, rfl⟩, Or.inr ⟨.write ⟨buffer, (c :: out).length⟩, ?_, rfl⟩⟩
        exact List.mem_cons_of_mem _ (List.mem_append_right _ (List.mem_singleton_self _))

/-- A claim for anything else fails: the loader goes on. -/
theorem store_after_failure (r : Request) (addr : Word) {f : Unit → BootM α}
    (h : Acts (f ())) (s : Machine) :
    WentOn ((storeIf true r addr >>= f) s).val ((storeIf true r addr >>= f) s).log := by
  have hrun : storeIf true r addr s = ⟨some (), s, [.store r addr]⟩ := rfl
  rw [Traced.bind_run_some hrun]
  refine ⟨⟨_, _, rfl, rfl⟩, (h s).imp id ?_⟩
  rintro ⟨e, he, hacts⟩
  exact ⟨e, List.mem_cons_of_mem _ he, hacts⟩

end

theorem noFail_addPlaced (data bin name list : Word) (place : Option (Word × Word)) :
    NoFail (addPlaced data bin name list place) := by
  cases place with
  | none => exact Traced.Logs.pure _ _
  | some place =>
    exact (noFail_onZip _).bind fun _ => (noFail_onMem _).bind fun _ => (noFail_onMem _).bind
      fun _ => Traced.Logs.pure _ _

theorem acts_addPlaced (data bin name list mod inc : Word) :
    Acts (addPlaced data bin name list (some (mod, inc))) :=
  Acts.after _ fun _ => Acts.bind (acts_addModule _ _ _ _ _) _

theorem verdict_placeModule (b : Brd) (data avail clen nlen bin name list : Word) (s : Machine) :
    Verdict (· = 0) ((placeModule b data avail clen nlen >>= addPlaced data bin name list) s) := by
  unfold placeModule
  split_ifs with hdata
  · rw [Traced.pure_bind]
    exact .of_logs (noFail_addPlaced _ _ _ _ _) s
  · rw [Traced.bind_assoc]
    apply Verdict.of_claim
    · intro mod s'
      split_ifs
      · rw [Traced.pure_bind]
        exact .pure _ _
      · rw [Traced.bind_assoc]
        refine .after (noFail_storeIf _ _ _) fun _ _ => ?_
        rw [Traced.pure_bind]
        exact .of_logs (noFail_addPlaced _ _ _ _ _) _
    · intro s'
      rw [if_neg (by decide), Traced.bind_assoc]
      right
      apply store_after_failure
      rw [Traced.pure_bind]
      exact acts_addPlaced _ _ _ _ _ _

/-- Without a claim for the `module_t` the loader adds the module at once. -/
theorem acts_placeModule (b : Brd) (data avail clen nlen bin name list : Word) :
    Acts (placeModule b data avail clen nlen >>= addPlaced data bin name list) := by
  unfold placeModule
  split_ifs
  · rw [Traced.pure_bind]
    exact acts_addPlaced _ _ _ _ _ _
  · exact Acts.bind (Acts.bind (acts_claim _ _ _) _) _

theorem verdict_extractModule (b : Brd) (puff : Puff) (data avail clen nlen name list : Word)
    (s : Machine) : Verdict (· = 0) (extractModule b puff data avail clen nlen name list s) := by
  unfold extractModule
  apply Verdict.of_claim
  · intro bin s'
    split_ifs
    · exact .pure _ _
    refine .after (noFail_zipExtract _ _ _) fun extracted s'' => ?_
    split_ifs
    · exact .pure _ _
    · exact verdict_placeModule b data avail clen nlen bin name list s''
  · intro s'
    rw [if_neg (by decide)]
    refine extract_after_failure puff _ _ _ ?_ ?_ s'
    · exact ⟨0, rfl, if_pos rfl⟩
    · exact acts_placeModule b data avail clen nlen _ name list

theorem verdict_loadModuleFromZip (b : Brd) (puff : Puff) (path data avail list : Word)
    (s : Machine) : Verdict (· = 0) (loadModuleFromZip b puff path data avail list s) := by
  unfold loadModuleFromZip
  refine .after (noFail_onMem _) fun str _ => ?_
  split_ifs
  · exact .pure _ _
  refine .after (noFail_zipFind _) fun found _ => ?_
  split_ifs
  · exact .pure _ _
  refine .after (noFail_onZip _) fun clen s' => ?_
  exact verdict_extractModule b puff data avail clen _ _ list s'

theorem verdict_newList (b : Brd) (st : Layout) (s : Machine) :
    Verdict (· = .fail) (newList b st s) := by
  unfold newList
  apply Verdict.of_claim
  · intro kicklist s'
    split_ifs
    · exact .pure _ _
    · exact .after (noFail_storeIf _ _ _) fun _ _ => .after (noFail_onMem _) fun _ _ => .pure _ _
  · intro s'
    rw [if_neg (by decide)]
    right
    exact store_after_failure _ _ (Acts.bind (acts_alistInit _) _) s'

theorem verdict_loadEntry (b : Brd) (puff : Puff) (st : Layout) (p data : Word) (s : Machine) :
    Verdict (· = .fail) (loadEntry b puff st p data s) := by
  unfold loadEntry
  refine .after (noFail_onMem _) fun path s' => ?_
  refine .bind (verdict_loadModuleFromZip b puff path data st.avail st.kicklist s') (fun inc s'' => ?_) ?_
  · split_ifs <;> exact .pure _ _
  · rintro inc rfl
    exact ⟨.fail, rfl, if_pos rfl⟩

theorem verdict_layoutEntry (b : Brd) (puff : Puff) (config : ℤ) (st : Layout) (p : Word)
    (s : Machine) : Verdict (· = .fail) (layoutEntry b puff config st p s) := by
  unfold layoutEntry
  split_ifs
  · exact .pure _ _
  refine .after (noFail_onMem _) fun succ _ => ?_
  split_ifs
  all_goals
    refine .after (noFail_onMem _) fun found _ => ?_
    split_ifs
    · exact verdict_loadEntry _ _ _ _ _ _
    · exact .pure _ _

theorem verdict_layoutBody (b : Brd) (puff : Puff) (config : ℤ) (st : Layout) (s : Machine) :
    Verdict (· = .fail) (layoutBody b puff config st s) := by
  unfold layoutBody
  refine .after (noFail_onMem _) fun line _ => ?_
  cases line with
  | stop => exact .pure _ _
  | error => exact .pure _ _
  | skip next => exact .pure _ _
  | text p next =>
    refine .after (noFail_onMem _) fun label _ => ?_
    split_ifs
    · exact verdict_newList _ _ _
    · exact .pure _ _
    · exact verdict_layoutEntry _ _ _ _ _ _
    · exact verdict_layoutEntry _ _ _ _ _ _

theorem noFail_layoutEnd (st : Layout) : NoFail (layoutEnd st) := by
  unfold layoutEnd
  split_ifs
  · exact Traced.Logs.pure _ _
  · refine (noFail_onMem _).bind fun succ => ?_
    split_ifs <;> exact Traced.Logs.pure _ _

/-- The loop; by induction on the rounds. -/
theorem verdict_layoutLoop (b : Brd) (puff : Puff) (config : ℤ) (kicklayout kicklayoutLen : Word)
    (fuel : ℕ) (st : Layout) (s : Machine) :
    Verdict (· = .null) (layoutLoop b puff config kicklayout kicklayoutLen fuel st s) := by
  induction fuel generalizing st s with
  | zero =>
    intro post hpost
    exact absurd hpost (by simp [layoutLoop, Traced.diverge, afterFailure])
  | succ fuel ih =>
    rw [layoutLoop]
    split_ifs
    · refine .bind (verdict_layoutBody b puff config st s) (fun r s' => ?_) ?_
      · cases r with
        | next st' => exact ih st' s'
        | done st' => exact .of_logs (noFail_layoutEnd st') s'
        | fail => exact .pure _ _
      · rintro r rfl
        exact ⟨.null, rfl, rfl⟩
    · exact .of_logs (noFail_layoutEnd st) s

theorem verdict_loadKicklayout (b : Brd) (puff : Puff) (zipdata ziplen : Word) (s : Machine) :
    Verdict (· = none) (loadKicklayout b puff zipdata ziplen s) := by
  unfold loadKicklayout
  refine .after (noFail_zipFind _) fun found _ => ?_
  split_ifs
  · exact .pure _ _
  refine .after (noFail_onZip _) fun kicklayoutLen _ => ?_
  apply Verdict.of_claim
  · intro kicklayout s'
    split_ifs
    · exact .pure _ _
    refine .after (noFail_zipExtract _ _ _) fun extracted _ => ?_
    split_ifs
    · exact .pure _ _
    · exact .after (noFail_onMem _) fun _ _ => .after (noFail_onMem _) fun _ _ => .pure _ _
  · intro s'
    rw [if_neg (by decide)]
    refine extract_after_failure puff _ _ _ ?_ ?_ s'
    · exact ⟨none, rfl, if_pos rfl⟩
    · exact Acts.bind (acts_write _ (by simp)) _

theorem verdict_bootAosZipkick (b : Brd) (puff : Puff) (fuel : ℕ) (zipdata ziplen : Word)
    (config : ℤ) (s : Machine) :
    Verdict (· = .null) (bootAosZipkick b puff fuel zipdata ziplen config s) := by
  unfold bootAosZipkick
  refine .after (noFail_onZip _) fun len _ => ?_
  split_ifs
  · exact .pure _ _
  have hopen : NoFail (zipOpen zipdata len) :=
    (noFail_onZip _).bind fun _ => (noFail_update _).bind fun _ => Traced.Logs.pure _ _
  refine .after hopen fun opened s' => ?_
  split_ifs
  · exact .pure _ _
  refine .bind (verdict_loadKicklayout b puff zipdata len s') (fun r s'' => ?_) ?_
  · cases r with
    | none => exact .pure _ _
    | some r => exact verdict_layoutLoop _ _ _ _ _ _ _ _
  · rintro r rfl
    exact ⟨.null, rfl, rfl⟩

/-- The two ways a failure can go, told apart by what follows the claim. -/
theorem Verdict.noticed_iff {o : Outcome Machine Event Kick} (h : Verdict (· = .null) o) :
    FailureNoticed o ↔ FailureRefused o := by
  constructor
  · intro hn post hpost
    obtain ⟨hval, hacts⟩ := hn post hpost
    rcases h post hpost with ⟨hrefused, -⟩ | ⟨-, hwent⟩
    · exact hrefused
    · rcases hwent with hnone | ⟨e, he, hact⟩
      · exact absurd (hval.symm.trans hnone) (by simp)
      · exact absurd (hacts e he) (by simp [hact])
  · intro hr post hpost
    obtain ⟨e, rest, rfl, href⟩ := hr post hpost
    rcases h _ hpost with ⟨-, hacts, v, hval, rfl⟩ | ⟨⟨e', rest', heq, href'⟩, -⟩
    · exact ⟨hval, hacts⟩
    · obtain ⟨rfl, -⟩ := List.cons.inj heq
      exact absurd href (by simp [href'])

/-- What `start` does when it claims the command line buffer. -/
theorem startArgs_run (b : Brd) (getprop : Word → ℤ) (avail : Word) (argsLen : ℤ) (s : Machine)
    (h : argsLen > 0) :
    ∃ ret, ret = b.claim s.claims avail (BitVec.ofInt 32 argsLen) ∧
      (startArgs b getprop avail argsLen s).log =
        .claim (.args (BitVec.ofInt 32 argsLen)) avail ret ::
          (if ret = 0 then [] else [.getprop ret (BitVec.ofInt 32 argsLen)]) := by
  refine ⟨_, rfl, ?_⟩
  have hrun : claim b (.args (BitVec.ofInt 32 argsLen)) avail s =
      ⟨some (b.claim s.claims avail (BitVec.ofInt 32 argsLen)), { s with claims := s.claims + 1 },
        [.claim (.args (BitVec.ofInt 32 argsLen)) avail
          (b.claim s.claims avail (BitVec.ofInt 32 argsLen))]⟩ := rfl
  rw [startArgs, if_pos h, Traced.bind_run_some hrun]
  generalize b.claim s.claims avail (BitVec.ofInt 32 argsLen) = ret
  by_cases hret : ret = 0
  · rw [if_pos hret, if_pos hret]
    rfl
  · rw [if_neg hret, if_neg hret]
    have hemit (s : Machine) : Traced.emit (Event.getprop ret (BitVec.ofInt 32 argsLen)) s =
        ⟨some (), s, [Event.getprop ret (BitVec.ofInt 32 argsLen)]⟩ := rfl
    rw [Traced.bind_run_some (hemit _)]
    split_ifs <;> rfl

/-- For every pattern of granted claims: `boot_aos_zipkick` notices the first
    claim that fails exactly if it was for a file whose extraction is then
    refused before it writes a byte; `start` notices the failure of its claim
    only if there is none. -/
theorem failure_noticed_iff (grants : ℕ → Bool) (puff : Puff) (s : Machine) :
    (∀ (fuel : ℕ) (zipdata ziplen : Word) (config : ℤ),
      FailureNoticed (bootAosZipkick (ofClaim grants) puff fuel zipdata ziplen config s) ↔
        FailureRefused (bootAosZipkick (ofClaim grants) puff fuel zipdata ziplen config s)) ∧
    ∀ (getprop : Word → ℤ) (avail : Word) (argsLen : ℤ),
      ArgsNoticed (startArgs (ofClaim grants) getprop avail argsLen s) ↔
        ¬ (argsLen > 0 ∧
          (ofClaim grants).claim s.claims avail (BitVec.ofInt 32 argsLen) = 0xffffffff) := by
  constructor
  · intro fuel zipdata ziplen config
    exact Verdict.noticed_iff (verdict_bootAosZipkick _ _ _ _ _ _ _)
  · intro getprop avail argsLen
    by_cases hlen : argsLen > 0
    · obtain ⟨ret, hret, hlog⟩ := startArgs_run (ofClaim grants) getprop avail argsLen s hlen
      unfold ArgsNoticed
      rw [hlog, ← hret]
      by_cases hfail : ret = 0xffffffff
      · subst hfail
        refine iff_of_false ?_ (not_not.mpr ⟨hlen, rfl⟩)
        intro h
        have := (h _ rfl).2 _ List.mem_cons_self
        exact absurd this (by simp [Event.isGetprop])
      · refine iff_of_true ?_ fun h => hfail h.2
        intro post hpost
        rw [afterFailure_eq_none] at hpost
        · exact absurd hpost (by simp)
        · intro e he
          rcases List.mem_cons.mp he with rfl | he
          · simpa [Event.failed] using hfail
          · split_ifs at he
            · exact absurd he List.not_mem_nil
            · obtain rfl := List.mem_singleton.mp he
              rfl
    · refine iff_of_true ?_ fun h => hlen h.1
      intro post hpost
      rw [startArgs, if_neg hlen] at hpost
      exact absurd hpost (by simp [Traced.pure_run, afterFailure])

/-- An archive that holds only a Kicklayout. -/
def layoutArchive : List Byte :=
  archive [storedFile kicklayoutName (ascii ['L', 'A', 'B', 'E', 'L', ' ', 'a']) (by decide)
    (by decide) (by decide)] []

/-- A Kicklayout in an archive, stored. -/
def storedLayout (text : List Byte) (text_lt : text.length < 2 ^ 32) : ZipEntry :=
  storedFile kicklayoutName text (by decide) (by decide) text_lt

/-- A loader that starts with `bs` at `0x600000`. -/
def machineOf (bs : List Byte) : Machine := ⟨memOf 0x600000 bs, ⟨0, 0, 0, 0⟩, 0⟩

theorem not_noticed_of_acts {o : Outcome Machine Event Kick}
    (h : (afterFailure o.log).any (·.any Event.acts) = true) : ¬ FailureNoticed o := by
  intro hn
  cases hpost : afterFailure o.log with
  | none => simp [hpost] at h
  | some post =>
    rw [hpost] at h
    obtain ⟨e, he, hacts⟩ := List.any_eq_true.mp h
    exact absurd ((hn post hpost).2 e he) (by simp [hacts])

/-- The first claim, for the Kicklayout, fails, and the text is extracted to
    `0xffffffff`. -/
theorem failedText_written :
    ¬ FailureNoticed (bootAosZipkick (ofClaim fun _ => false) puffStored 1 0x600000
      (BitVec.ofNat 32 layoutArchive.length) 1 (machineOf layoutArchive)) :=
  not_noticed_of_acts (by decide +kernel)

end BBoot.Boot
