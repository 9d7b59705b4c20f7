import Mathlib.Data.List.Basic

/-!
# Channels that open with a greeting

A first-in-first-out channel runs from a speaker to a hearer. The speaker first
says a greeting and then only what belongs to the talk; either end may leave at
any moment. `Orderly` says what can be on its way, so that the hearer, whenever it
takes a message, gets the kind of message it waits for.
-/
namespace Pmd.Foundation

inductive Speaker where
  | silent
  | talking
  | gone
  deriving DecidableEq

inductive Hearer where
  /-- The greeting has not been heard. -/
  | waiting
  | hearing
  | gone
  deriving DecidableEq

variable {M : Type*}

/-- The messages on their way, between a speaker and a hearer. -/
inductive Orderly (G L : M → Prop) : Speaker → Hearer → List M → Prop
  | quiet {sp : Speaker} {hr : Hearer} (hs : sp ≠ .talking) (hh : hr ≠ .hearing) :
      Orderly G L sp hr []
  | greeting {sp : Speaker} {m : M} {rest : List M} (hs : sp ≠ .silent) (hm : G m)
      (hrest : ∀ x ∈ rest, L x) : Orderly G L sp .waiting (m :: rest)
  | talk {sp : Speaker} {ms : List M} (hs : sp ≠ .silent) (hms : ∀ x ∈ ms, L x) :
      Orderly G L sp .hearing ms
  | lost {sp : Speaker} {ms : List M} (hs : sp ≠ .silent) : Orderly G L sp .gone ms

namespace Orderly
variable {G L : M → Prop} {sp : Speaker} {hr : Hearer} {m : M} {ms : List M}

theorem greet (h : Orderly G L .silent hr ms) (hm : G m) :
    Orderly G L .talking hr (ms ++ [m]) := by
  cases h with
  | quiet _ hh =>
    cases hr with
    | waiting => exact .greeting (by decide) hm (by simp)
    | hearing => exact absurd rfl hh
    | gone => exact .lost (by decide)
  | greeting hs => exact absurd rfl hs
  | talk hs => exact absurd rfl hs
  | lost hs => exact absurd rfl hs

theorem say (h : Orderly G L .talking hr ms) (hm : L m) : Orderly G L .talking hr (ms ++ [m]) := by
  have hall : ∀ {xs : List M}, (∀ x ∈ xs, L x) → ∀ x ∈ xs ++ [m], L x := by
    intro xs hxs x hx
    rcases List.mem_append.mp hx with hx | hx
    · exact hxs x hx
    · rw [List.mem_singleton.mp hx]
      exact hm
  cases h with
  | quiet hs _ => exact absurd rfl hs
  | greeting hs hg hrest => exact .greeting hs hg (hall hrest)
  | talk hs hms => exact .talk hs (hall hms)
  | lost hs => exact .lost hs

/-- The speaker leaves; what it has said stays on its way. -/
theorem leave (h : Orderly G L sp hr ms) : Orderly G L .gone hr ms := by
  cases h with
  | quiet _ hh => exact .quiet (by decide) hh
  | greeting _ hm hrest => exact .greeting (by decide) hm hrest
  | talk _ hms => exact .talk (by decide) hms
  | lost _ => exact .lost (by decide)

/-- The hearer takes the greeting. -/
theorem hear (h : Orderly G L sp .waiting (m :: ms)) : G m ∧ Orderly G L sp .hearing ms := by
  cases h with
  | greeting hs hm hrest => exact ⟨hm, .talk hs hrest⟩

theorem take (h : Orderly G L sp .hearing (m :: ms)) : L m ∧ Orderly G L sp .hearing ms := by
  cases h with
  | talk hs hms =>
    exact ⟨hms m List.mem_cons_self, .talk hs fun x hx => hms x (List.mem_cons_of_mem _ hx)⟩

/-- A silent speaker has sent nothing. -/
theorem eq_nil (h : Orderly G L .silent hr ms) : ms = [] := by
  cases h with
  | quiet => rfl
  | greeting hs => exact absurd rfl hs
  | talk hs => exact absurd rfl hs
  | lost hs => exact absurd rfl hs

/-- The hearer leaves, whatever it has taken last. -/
theorem drop {xs : List M} (h : Orderly G L sp hr (xs ++ ms)) : Orderly G L sp .gone ms := by
  by_cases hs : sp = .silent
  · subst hs
    rw [(List.append_eq_nil_iff.mp h.eq_nil).2]
    exact .quiet (by decide) (by decide)
  · exact .lost hs

end Orderly
end Pmd.Foundation
