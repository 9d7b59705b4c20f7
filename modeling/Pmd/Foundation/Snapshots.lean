import Pmd.Foundation.Replicas

/-!
# Closed cuts and the past of a replica

A vector is closed when it covers all that the writes it covers were made on. If a
closed vector knows a replica up to one of its own writes, it covers everything that
replica held when it made the write.
-/
namespace Pmd.Foundation

variable {R P V ι : Type*}

/-- With a write the cut holds what the write was made on. -/
def Closed (G : Set (Write R P V)) (v : VersionVector R) : Prop := ∀ w ∈ cut G v, w.past ≤ v

namespace Closed
variable {G H : Set (Write R P V)} {v w : VersionVector R}

theorem sup (hv : Closed G v) (hw : Closed G w) : Closed G (v ⊔ w) := by
  intro x hx
  rw [cut_sup] at hx
  rcases hx with hx | hx
  · exact (hv x hx).trans le_sup_left
  · exact (hw x hx).trans le_sup_right

theorem congr (h : Closed G v) (hcut : cut H v = cut G v) : Closed H v := by
  intro x hx
  rw [hcut] at hx
  exact h x hx

end Closed

/-- The replica under `r` has written last, and nothing has reached it since. -/
def Fresh (r : R) (s : Replica R P V) : Prop :=
  ∃ w ∈ s.writes, w.dot = ⟨r, s.vv r⟩ ∧ ∀ k, k ≠ r → s.vv k ≤ w.past k

theorem Fresh.append [DecidableEq R] (r : R) (s : Replica R P V) (p : P) (x : Option V) :
    Fresh r (s.append r p x) := by
  refine ⟨Replica.next r s.vv p x, .inl rfl, ?_, fun k hk => ?_⟩
  · simp [Replica.append, Replica.next]
  · simp [Replica.append, Replica.next, Function.update_of_ne hk]

/-- A closed vector that knows a fresh replica up to its last write covers all it held. -/
theorem Fresh.vv_le {G : Set (Write R P V)} {r : R} {s : Replica R P V} {v : VersionVector R}
    (h : Fresh r s) (hG : s.writes ⊆ G) (hv : Closed G v) (hr : s.vv r = v r) : s.vv ≤ v := by
  obtain ⟨w, hw, hdot, hpast⟩ := h
  have hcov : Covers v w.dot := by
    rw [Covers, hdot]
    exact hr.le
  have hle := hv w ⟨hG hw, hcov⟩
  intro k
  by_cases hk : k = r
  · rw [hk, hr]
  · exact (hpast k hk).trans (hle k)

end Pmd.Foundation
