import Mathlib.Order.Basic
import Mathlib.Data.Set.Basic

/-!
# Knowledge that spreads in rounds

Each member of a group knows something, in an ordered type. In a round nobody forgets,
and along each edge everything known at the start of the round is passed on. After as
many rounds as paths are long, what one member knew is known to all; and if nothing new
has entered the group in the meantime, all know the same.
-/
namespace Pmd.Foundation

variable {ι R V L : Type*}

/-- A path of at most so many edges leads from one member to the other. -/
inductive Within (E : ι → ι → Prop) : ℕ → ι → ι → Prop
  | start (i : ι) : Within E 0 i i
  | wait {k : ℕ} {i j : ι} (h : Within E k i j) : Within E (k + 1) i j
  | pass {k : ℕ} {i j l : ι} (h : Within E k i j) (he : E j l) : Within E (k + 1) i l

/-- `know t i` is what `i` knows after `t` of the `k` rounds. -/
structure Spreads [LE L] (E : ι → ι → Prop) (know : ℕ → ι → L) (k : ℕ) : Prop where
  keeps : ∀ t < k, ∀ i, know t i ≤ know (t + 1) i
  passes : ∀ t < k, ∀ i j, E i j → know t i ≤ know (t + 1) j

namespace Spreads
variable {E : ι → ι → Prop} {k : ℕ}

theorem le_of_within [Preorder L] {know : ℕ → ι → L} (h : Spreads E know k) {t : ℕ} {i j : ι}
    (hw : Within E t i j) (ht : t ≤ k) : know 0 i ≤ know t j := by
  induction hw with
  | start i => exact le_rfl
  | wait _ ih => exact (ih (Nat.le_of_succ_le ht)).trans (h.keeps _ ht _)
  | pass _ he ih => exact (ih (Nat.le_of_succ_le ht)).trans (h.passes _ ht _ _ he)

/-- All members of `N` know the same when every entry of what they know was known in `N`
at the start. -/
theorem agree [PartialOrder V] {know : ℕ → ι → R → V} (h : Spreads E know k) {N : Set ι}
    (hconn : ∀ i ∈ N, ∀ j ∈ N, Within E k i j)
    (hold : ∀ j ∈ N, ∀ r, ∃ i ∈ N, know k j r ≤ know 0 i r) {i j : ι} (hi : i ∈ N) (hj : j ∈ N) :
    know k i = know k j := by
  have hle : ∀ i ∈ N, ∀ j ∈ N, know k i ≤ know k j := by
    intro i hi j hj r
    obtain ⟨l, hl, hlr⟩ := hold i hi r
    exact hlr.trans (h.le_of_within (hconn l hl j hj) le_rfl r)
  exact le_antisymm (hle i hi j hj) (hle j hj i hi)

end Spreads
end Pmd.Foundation
