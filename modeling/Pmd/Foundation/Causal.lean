import Mathlib.Data.List.Infix
import Mathlib.Data.Set.Insert
import Mathlib.Order.Lattice
import Mathlib.Order.Lattice.Nat
import Mathlib.Order.Basic

/-!
# Writes, version vectors and causal cuts

Replicas tag each write with a fresh dot and the version vector it was made at.
A version vector `v` cuts a log of writes: `cut G v` holds the writes of `G`
that `v` covers. A replica whose document is the cut of the common log at its
own vector has no gap, and this is kept by fresh writes and by merging any part
of another cut that leaves out only what the receiver already covers.
-/
namespace Pmd.Foundation

abbrev VersionVector (R : Type*) := R → ℕ

structure Dot (R : Type*) where
  replica : R
  counter : ℕ
  deriving DecidableEq

/-- One `set` or `remove`; the latter has no value. -/
structure Write (R P V : Type*) where
  dot : Dot R
  path : P
  value : Option V
  past : VersionVector R

variable {R P V K : Type*}

def Covers (v : VersionVector R) (d : Dot R) : Prop := d.counter ≤ v d.replica

instance (v : VersionVector R) (d : Dot R) : Decidable (Covers v d) :=
  inferInstanceAs (Decidable (_ ≤ _))

theorem Covers.mono {v w : VersionVector R} {d : Dot R} (h : Covers v d) (hvw : v ≤ w) :
    Covers w d :=
  le_trans h (hvw d.replica)

theorem covers_sup {v w : VersionVector R} {d : Dot R} :
    Covers (v ⊔ w) d ↔ Covers v d ∨ Covers w d := by
  simp [Covers]

/-- A write is superseded by a later write at its path or above it, since a value
replaces all that is nested at its path; a removal is effective only against the
values of the replica that made it. -/
def Write.Supersedes (w u : Write R (List K) V) : Prop :=
  w.path <+: u.path ∧ Covers w.past u.dot ∧ (w.value.isSome ∨ w.dot.replica = u.dot.replica)

instance [DecidableEq K] [DecidableEq R] (w u : Write R (List K) V) :
    Decidable (w.Supersedes u) :=
  inferInstanceAs (Decidable (_ ∧ _ ∧ _))

def Survives (W : Set (Write R (List K) V)) (u : Write R (List K) V) : Prop :=
  u ∈ W ∧ ∀ w ∈ W, ¬ w.Supersedes u

/-- Whether a write survives depends only on the writes at its path and above it. -/
theorem survives_congr {W X : Set (Write R (List K) V)} {u : Write R (List K) V}
    (h : ∀ w, w.path <+: u.path → (w ∈ W ↔ w ∈ X)) : Survives W u ↔ Survives X u := by
  refine and_congr (h u List.prefix_rfl) (forall_congr' fun w => ?_)
  constructor
  · exact fun hw hm hs => hw ((h w hs.1).mpr hm) hs
  · exact fun hw hm hs => hw ((h w hs.1).mp hm) hs

/-- No two writes of the log share a dot. -/
def DotsIdentify (W : Set (Write R P V)) : Prop :=
  ∀ u ∈ W, ∀ w ∈ W, u.dot = w.dot → u = w

theorem DotsIdentify.subset {W X : Set (Write R P V)} (h : DotsIdentify W) (hX : X ⊆ W) :
    DotsIdentify X :=
  fun u hu w hw => h u (hX hu) w (hX hw)

def cut (G : Set (Write R P V)) (v : VersionVector R) : Set (Write R P V) :=
  {w | w ∈ G ∧ Covers v w.dot}

/-- The writes of the cut that a replica at `u` is missing. -/
def missing (G : Set (Write R P V)) (v u : VersionVector R) : Set (Write R P V) :=
  {w | w ∈ cut G v ∧ ¬ Covers u w.dot}

theorem cut_subset (G : Set (Write R P V)) (v : VersionVector R) : cut G v ⊆ G :=
  fun _ h => h.1

theorem cut_mono (G : Set (Write R P V)) {v w : VersionVector R} (h : v ≤ w) :
    cut G v ⊆ cut G w :=
  fun _ hu => ⟨hu.1, hu.2.mono h⟩

theorem cut_sup (G : Set (Write R P V)) (v w : VersionVector R) :
    cut G (v ⊔ w) = cut G v ∪ cut G w := by
  ext u
  simp only [cut, Set.mem_ofPred_eq, Set.mem_union, covers_sup]
  tauto

/-- Merging what a replica at `u` is missing into a replica at or above `u`
gives the cut at the join of the vectors: nothing is lost. -/
theorem cut_union_missing (G : Set (Write R P V)) {v w u : VersionVector R} (hu : u ≤ w) :
    cut G w ∪ missing G v u = cut G (w ⊔ v) := by
  rw [cut_sup]
  ext x
  constructor
  · rintro (hx | hx)
    · exact .inl hx
    · exact .inr hx.1
  · rintro (hx | hx)
    · exact .inl hx
    · by_cases hc : Covers u x.dot
      · exact .inl ⟨hx.1, hc.mono hu⟩
      · exact .inr ⟨hx, hc⟩

section Fresh
variable {G : Set (Write R P V)} {x : Write R P V}

/-- A vector that has not reached the dot of a new write cuts the same set. -/
theorem cut_insert_of_not_covers {v : VersionVector R} (h : ¬ Covers v x.dot) :
    cut (insert x G) v = cut G v := by
  ext w
  constructor
  · rintro ⟨hw | hw, hc⟩
    · exact absurd (hw ▸ hc) h
    · exact ⟨hw, hc⟩
  · rintro ⟨hw, hc⟩
    exact ⟨.inr hw, hc⟩

/-- The writer's own cut gains exactly the new write. -/
theorem cut_insert_update [DecidableEq R] {v : VersionVector R} {r : R}
    (hx : x.dot = ⟨r, v r + 1⟩) (hG : ∀ w ∈ G, w.dot.replica = r → w.dot.counter ≤ v r) :
    cut (insert x G) (Function.update v r (v r + 1)) = insert x (cut G v) := by
  ext w
  constructor
  · rintro ⟨hw | hw, hc⟩
    · exact .inl hw
    · refine .inr ⟨hw, ?_⟩
      by_cases hr : w.dot.replica = r
      · have hle := hG w hw hr
        rw [Covers, hr]
        exact hle
      · rw [Covers, Function.update_of_ne hr] at hc
        exact hc
  · rintro (hw | ⟨hw, hc⟩)
    · subst hw
      exact ⟨.inl rfl, by simp [Covers, hx]⟩
    · refine ⟨.inr hw, hc.mono ?_⟩
      exact le_update_self_iff.mpr (Nat.le_succ _)

theorem DotsIdentify.insert {r : R} {n : ℕ} (h : DotsIdentify G) (hx : x.dot = ⟨r, n + 1⟩)
    (hG : ∀ w ∈ G, w.dot.replica = r → w.dot.counter ≤ n) : DotsIdentify (Insert.insert x G) := by
  have hfresh : ∀ w ∈ G, w.dot ≠ x.dot := by
    intro w hw he
    have hle := hG w hw (by rw [he, hx])
    rw [he, hx] at hle
    exact absurd hle (by simp)
  rintro u (hu | hu) w (hw | hw) he
  · rw [hu, hw]
  · exact absurd (hu ▸ he.symm) (hfresh w hw)
  · exact absurd (hw ▸ he) (hfresh u hu)
  · exact h u hu w hw he

end Fresh
end Pmd.Foundation
