import Mathlib

/-!
# Programs with a state and a trace

`Traced σ ε α` is a program on a state `σ` that logs events `ε` and may fail to
return (`val = none`). The trace holds only the events of the program itself,
so it is appended to whatever happened before.

`Ensures A x s past Q` says that `x`, started in `s` after the events `past`,
ends with `Q`, provided the whole trace meets the assumption `A`. An assumption
that holds of a trace holds of its prefixes (`PrefixClosed`), which is what the
rule for sequences needs.

Results:
* `ensures_bind`: the rule for sequences.
* `returns_bind`: the same for a run that is known to return.
* `Logs.bind`: what every event of a program meets.
-/

namespace BBoot

/-- Where a program ends. -/
structure Outcome (σ ε α : Type) where
  val : Option α
  state : σ
  log : List ε

/-- A program on the state `σ` that logs events `ε`. -/
def Traced (σ ε α : Type) : Type := σ → Outcome σ ε α

namespace Traced

variable {σ ε α β : Type}

/-- One program after another. -/
def bind (x : Traced σ ε α) (f : α → Traced σ ε β) : Traced σ ε β := fun s =>
  match (x s).val with
  | none => ⟨none, (x s).state, (x s).log⟩
  | some a =>
    ⟨(f a (x s).state).val, (f a (x s).state).state, (x s).log ++ (f a (x s).state).log⟩

instance : Monad (Traced σ ε) where
  pure a := fun s => ⟨some a, s, []⟩
  bind := Traced.bind

/-- A program that does not return. -/
def diverge : Traced σ ε α := fun s => ⟨none, s, []⟩

/-- A value read off the state, if there is one. -/
def look (f : σ → Option α) : Traced σ ε α := fun s => ⟨f s, s, []⟩

/-- One event. -/
def emit (e : ε) : Traced σ ε Unit := fun s => ⟨some (), s, [e]⟩

/-- A change of the state. -/
def update (f : σ → σ) : Traced σ ε Unit := fun s => ⟨some (), f s, []⟩

theorem pure_run (a : α) (s : σ) : (pure a : Traced σ ε α) s = ⟨some a, s, []⟩ := rfl

theorem look_run (f : σ → Option α) (s : σ) : (look f : Traced σ ε α) s = ⟨f s, s, []⟩ := rfl

theorem bind_run (x : Traced σ ε α) (f : α → Traced σ ε β) (s : σ) :
    (x >>= f) s =
      match (x s).val with
      | none => ⟨none, (x s).state, (x s).log⟩
      | some a =>
        ⟨(f a (x s).state).val, (f a (x s).state).state, (x s).log ++ (f a (x s).state).log⟩ := rfl

theorem bind_run_some {x : Traced σ ε α} {s : σ} {a : α} {s' : σ} {log : List ε}
    (h : x s = ⟨some a, s', log⟩) (f : α → Traced σ ε β) :
    (x >>= f) s = ⟨(f a s').val, (f a s').state, log ++ (f a s').log⟩ := by
  rw [bind_run, h]

theorem bind_assoc {γ : Type} (x : Traced σ ε α) (f : α → Traced σ ε β) (g : β → Traced σ ε γ) :
    (x >>= f) >>= g = x >>= fun a => f a >>= g := by
  funext s
  simp only [bind_run]
  cases (x s).val with
  | none => rfl
  | some a =>
    dsimp only
    cases (f a (x s).state).val with
    | none => rfl
    | some b => simp only [List.append_assoc]

theorem pure_bind (a : α) (f : α → Traced σ ε β) : pure a >>= f = f a := by
  funext s
  rw [bind_run_some (pure_run a s), List.nil_append]

/-! ## What a program ends with -/

/-- What holds of a trace holds of its beginnings. -/
def PrefixClosed (A : List ε → Prop) : Prop := ∀ past log, A (past ++ log) → A past

/-- `x`, started in `s` after the events `past`, ends with `Q` if the trace up
    to there meets `A`. -/
def Ensures (A : List ε → Prop) (x : Traced σ ε α) (s : σ) (past : List ε)
    (Q : Option α → σ → List ε → Prop) : Prop :=
  A (past ++ (x s).log) → Q (x s).val (x s).state (past ++ (x s).log)

section Ensures

variable {A : List ε → Prop} {s : σ} {past : List ε} {Q Q' : Option α → σ → List ε → Prop}

theorem ensures_conseq {x : Traced σ ε α} (h : Ensures A x s past Q)
    (hQ : ∀ v s' log, A log → Q v s' log → Q' v s' log) : Ensures A x s past Q' :=
  fun hA => hQ _ _ _ hA (h hA)

/-- The trace at the end starts with what happened before. -/
theorem ensures_extends {x : Traced σ ε α} (h : Ensures A x s past Q) :
    Ensures A x s past fun v s' log => past <+: log ∧ Q v s' log :=
  fun hA => ⟨List.prefix_append _ _, h hA⟩

/-- What happened before meets the assumption too. -/
theorem ensures_past (hA : PrefixClosed A) {x : Traced σ ε α} (h : A past → Ensures A x s past Q) :
    Ensures A x s past Q := fun htrace => h (hA _ _ htrace) htrace

theorem ensures_pure {a : α} (h : A past → Q (some a) s past) : Ensures A (pure a) s past Q := by
  intro hA
  rw [pure_run, List.append_nil] at hA ⊢
  exact h hA

theorem ensures_diverge (h : A past → Q none s past) : Ensures A diverge s past Q := by
  intro hA
  show Q none s (past ++ [])
  rw [List.append_nil]
  apply h
  simpa [diverge] using hA

/-- The rule for a sequence: what follows starts where the first part ended. -/
theorem ensures_bind (hA : PrefixClosed A) {x : Traced σ ε α} {f : α → Traced σ ε β}
    {Q : Option β → σ → List ε → Prop}
    (h : Ensures A x s past fun v s' log =>
      match v with
      | none => Q none s' log
      | some a => Ensures A (f a) s' log Q) : Ensures A (x >>= f) s past Q := by
  intro htrace
  rw [bind_run] at htrace ⊢
  cases hv : (x s).val with
  | none =>
    rw [hv] at htrace
    have := h htrace
    rwa [hv] at this
  | some a =>
    rw [hv] at htrace
    simp only [← List.append_assoc] at htrace ⊢
    have := h (hA _ _ htrace)
    rw [hv] at this
    exact this htrace

/-- A sequence whose first part is known. -/
theorem ensures_step (hA : PrefixClosed A) {x : Traced σ ε α} {f : α → Traced σ ε β}
    {Q : Option β → σ → List ε → Prop} {a : α} {s' : σ} {log : List ε}
    (h : x s = ⟨some a, s', log⟩) (hf : A (past ++ log) → Ensures A (f a) s' (past ++ log) Q) :
    Ensures A (x >>= f) s past Q := by
  refine ensures_bind (x := x) (f := f) (Q := Q) hA fun htrace => ?_
  rw [h] at htrace ⊢
  exact hf htrace

end Ensures

/-! ## Runs that are known -/

/-- `x`, started in `s`, returns `a` in the state `s'`, and its events meet `P`. -/
def Returns (P : ε → Prop) (x : Traced σ ε α) (s : σ) (a : α) (s' : σ) : Prop :=
  ∃ log, x s = ⟨some a, s', log⟩ ∧ ∀ e ∈ log, P e

section Returns

variable {P : ε → Prop} {s s' s'' : σ}

theorem returns_pure (a : α) : Returns P (pure a) s a s := ⟨[], rfl, by simp⟩

theorem returns_look {f : σ → Option α} {a : α} (h : f s = some a) : Returns P (look f) s a s :=
  ⟨[], by rw [look_run, h], by simp⟩

theorem returns_emit {e : ε} (h : P e) : Returns P (emit e) s () s := ⟨[e], rfl, by simpa⟩

theorem returns_update (f : σ → σ) : Returns P (update f) s () (f s) := ⟨[], rfl, by simp⟩

theorem returns_bind {x : Traced σ ε α} {f : α → Traced σ ε β} {a : α} {b : β}
    (hx : Returns P x s a s') (hf : Returns P (f a) s' b s'') : Returns P (x >>= f) s b s'' := by
  obtain ⟨log, hx, hlog⟩ := hx
  obtain ⟨log', hf, hlog'⟩ := hf
  refine ⟨log ++ log', ?_, ?_⟩
  · rw [bind_run_some hx, hf]
  · intro e he
    rcases List.mem_append.mp he with he | he
    · exact hlog e he
    · exact hlog' e he

end Returns

/-! ## What every event meets -/

/-- Every event of every run of `x` meets `P`. -/
def Logs (P : ε → Prop) (x : Traced σ ε α) : Prop := ∀ s, ∀ e ∈ (x s).log, P e

theorem Logs.pure (P : ε → Prop) (a : α) : Logs P (pure a : Traced σ ε α) := by
  intro s e he
  simp [pure_run] at he

theorem Logs.bind {P : ε → Prop} {x : Traced σ ε α} {f : α → Traced σ ε β} (hx : Logs P x)
    (hf : ∀ a, Logs P (f a)) : Logs P (x >>= f) := by
  intro s e he
  rw [bind_run] at he
  cases hv : (x s).val with
  | none =>
    rw [hv] at he
    exact hx s e he
  | some a =>
    rw [hv] at he
    rcases List.mem_append.mp he with he | he
    · exact hx s e he
    · exact hf a _ e he

end Traced

end BBoot
