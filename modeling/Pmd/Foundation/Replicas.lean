import Pmd.Foundation.Causal
import Mathlib.Logic.Function.Basic

/-!
# Families of replicas

A replica holds a set of writes and a version vector. A family of named replicas
is coherent when each holds the cut of the common log at its own vector and
nobody is ahead of a replica on its own name. Fresh writes, and merging any part
of another cut that leaves out only what the receiver covers, keep a family
coherent; and they extend it: vectors grow, and what an old vector cuts from the
log does not change.
-/
namespace Pmd.Foundation

@[ext] structure Replica (R P V : Type*) where
  writes : Set (Write R P V)
  vv : VersionVector R

variable {R P V ι : Type*}

namespace Replica

/-- The write replica `r` makes next at the vector `v`. -/
def next (r : R) (v : VersionVector R) (p : P) (x : Option V) : Write R P V :=
  ⟨⟨r, v r + 1⟩, p, x, v⟩

def append [DecidableEq R] (r : R) (s : Replica R P V) (p : P) (x : Option V) : Replica R P V where
  writes := insert (next r s.vv p x) s.writes
  vv := Function.update s.vv r (s.vv r + 1)

def absorb (s : Replica R P V) (W : Set (Write R P V)) (v : VersionVector R) :
    Replica R P V where
  writes := s.writes ∪ W
  vv := s.vv ⊔ v

end Replica

def commonLog (ρ : ι → Replica R P V) : Set (Write R P V) := {w | ∃ i, w ∈ (ρ i).writes}

section CommonLog
variable [DecidableEq ι] (ρ : ι → Replica R P V) (i : ι)

theorem commonLog_append [DecidableEq R] (r : R) (p : P) (x : Option V) :
    commonLog (Function.update ρ i ((ρ i).append r p x)) =
      insert (Replica.next r (ρ i).vv p x) (commonLog ρ) := by
  ext w
  constructor
  · rintro ⟨j, hj⟩
    by_cases hji : j = i
    · subst hji
      rw [Function.update_self] at hj
      exact hj.imp id fun hw => ⟨j, hw⟩
    · rw [Function.update_of_ne hji] at hj
      exact .inr ⟨j, hj⟩
  · rintro (hw | ⟨j, hj⟩)
    · exact ⟨i, by rw [Function.update_self]; exact .inl hw⟩
    · by_cases hji : j = i
      · subst hji
        exact ⟨j, by rw [Function.update_self]; exact .inr hj⟩
      · exact ⟨j, by rw [Function.update_of_ne hji]; exact hj⟩

theorem commonLog_absorb {W : Set (Write R P V)} {u v : VersionVector R}
    (hW : W = missing (commonLog ρ) v u) :
    commonLog (Function.update ρ i ((ρ i).absorb W v)) = commonLog ρ := by
  ext w
  constructor
  · rintro ⟨k, hk⟩
    by_cases hki : k = i
    · subst hki
      rw [Function.update_self] at hk
      rcases hk with hk | hk
      · exact ⟨k, hk⟩
      · rw [hW] at hk
        exact hk.1.1
    · rw [Function.update_of_ne hki] at hk
      exact ⟨k, hk⟩
  · rintro ⟨k, hk⟩
    by_cases hki : k = i
    · subst hki
      exact ⟨k, by rw [Function.update_self]; exact .inl hk⟩
    · exact ⟨k, by rw [Function.update_of_ne hki]; exact hk⟩

end CommonLog

structure Coherent (name : ι → R) (ρ : ι → Replica R P V) : Prop where
  cuts : ∀ i, (ρ i).writes = cut (commonLog ρ) (ρ i).vv
  own : ∀ i j, (ρ j).vv (name i) ≤ (ρ i).vv (name i)
  identify : DotsIdentify (commonLog ρ)

/-- `σ` is a later stage of `ρ`. -/
structure Extends (ρ σ : ι → Replica R P V) : Prop where
  vv : ∀ i, (ρ i).vv ≤ (σ i).vv
  cut : ∀ i v, v ≤ (ρ i).vv → cut (commonLog σ) v = cut (commonLog ρ) v

namespace Extends
variable {ρ σ τ : ι → Replica R P V}

theorem refl (ρ : ι → Replica R P V) : Extends ρ ρ := ⟨fun _ => le_rfl, fun _ _ _ => rfl⟩

theorem trans (h₁ : Extends ρ σ) (h₂ : Extends σ τ) : Extends ρ τ where
  vv i := (h₁.vv i).trans (h₂.vv i)
  cut i v hv := by rw [h₂.cut i v (hv.trans (h₁.vv i)), h₁.cut i v hv]

theorem missing (h : Extends ρ σ) {i : ι} {v : VersionVector R} (hv : v ≤ (ρ i).vv)
    (u : VersionVector R) :
    missing (commonLog σ) v u = missing (commonLog ρ) v u := by
  simp only [Foundation.missing, h.cut i v hv]

/-- Coherent families only gain writes. -/
theorem writes {name : ι → R} (h : Extends ρ σ) (hρ : Coherent name ρ) (hσ : Coherent name σ)
    (i : ι) : (ρ i).writes ⊆ (σ i).writes := by
  rw [hρ.cuts, hσ.cuts, ← h.cut i _ le_rfl]
  exact cut_mono _ (h.vv i)

end Extends

namespace Coherent
variable {name : ι → R} {ρ : ι → Replica R P V}

theorem counter_le (h : Coherent name ρ) {w : Write R P V} (hw : w ∈ commonLog ρ) {i : ι}
    (hr : w.dot.replica = name i) : w.dot.counter ≤ (ρ i).vv (name i) := by
  obtain ⟨j, hj⟩ := hw
  rw [h.cuts] at hj
  have hc : w.dot.counter ≤ (ρ j).vv w.dot.replica := hj.2
  rw [hr] at hc
  exact hc.trans (h.own i j)

/-- Replicas with the same vector hold the same writes. -/
theorem writes_eq (h : Coherent name ρ) {i j : ι} (hv : (ρ i).vv = (ρ j).vv) :
    (ρ i).writes = (ρ j).writes := by
  rw [h.cuts i, h.cuts j, hv]

/-- A replica holds all writes made under its own name. -/
theorem mem_own (h : Coherent name ρ) {w : Write R P V} (hw : w ∈ commonLog ρ) {i : ι}
    (hr : w.dot.replica = name i) : w ∈ (ρ i).writes := by
  rw [h.cuts]
  refine ⟨hw, ?_⟩
  rw [Covers, hr]
  exact h.counter_le hw hr

section Append
variable (h : Coherent name ρ) (i : ι) (p : P) (x : Option V)
include h

theorem not_covers_next (j : ι) : ¬ Covers (ρ j).vv (Replica.next (name i) (ρ i).vv p x).dot := by
  have hle := h.own i j
  simp only [Covers, Replica.next]
  omega

variable [DecidableEq R] [DecidableEq ι]

theorem extends_append : Extends ρ (Function.update ρ i ((ρ i).append (name i) p x)) where
  vv j := by
    by_cases hji : j = i
    · subst hji
      rw [Function.update_self]
      exact le_update_self_iff.mpr (Nat.le_succ _)
    · rw [Function.update_of_ne hji]
  cut j v hv := by
    rw [commonLog_append]
    exact cut_insert_of_not_covers fun hc => h.not_covers_next i p x j (hc.mono hv)

theorem append (hname : Function.Injective name) :
    Coherent name (Function.update ρ i ((ρ i).append (name i) p x)) where
  cuts j := by
    rw [commonLog_append]
    by_cases hji : j = i
    · subst hji
      rw [Function.update_self]
      have hcut := cut_insert_update (G := commonLog ρ)
        (x := Replica.next (name j) (ρ j).vv p x) (v := (ρ j).vv) (r := name j) rfl
        fun w hw hr => h.counter_le hw hr
      rw [Replica.append, hcut, ← h.cuts]
    · rw [Function.update_of_ne hji, cut_insert_of_not_covers (h.not_covers_next i p x j), ← h.cuts]
  own j k := by
    by_cases hki : k = i
    · subst hki
      rw [Function.update_self]
      by_cases hjk : j = k
      · subst hjk
        rw [Function.update_self]
      · have hvv : ((ρ k).append (name k) p x).vv (name j) = (ρ k).vv (name j) :=
          Function.update_of_ne (hname.ne hjk) _ _
        rw [Function.update_of_ne hjk, hvv]
        exact h.own j k
    · rw [Function.update_of_ne hki]
      exact (h.own j k).trans ((extends_append h i p x).vv j (name j))
  identify := by
    rw [commonLog_append]
    exact h.identify.insert rfl fun w hw hr => h.counter_le hw hr

end Append

section Absorb
variable [DecidableEq ι] (h : Coherent name ρ) (i : ι) {j : ι} {W : Set (Write R P V)}
  {u v : VersionVector R} (hW : W = missing (commonLog ρ) v u) (hv : v ≤ (ρ j).vv)
include hW

theorem extends_absorb : Extends ρ (Function.update ρ i ((ρ i).absorb W v)) where
  vv k := by
    by_cases hki : k = i
    · subst hki
      rw [Function.update_self]
      exact le_sup_left
    · rw [Function.update_of_ne hki]
  cut k w _ := by rw [commonLog_absorb ρ i hW]

include h hv

theorem absorb (hu : u ≤ (ρ i).vv) : Coherent name (Function.update ρ i ((ρ i).absorb W v)) where
  cuts k := by
    rw [commonLog_absorb ρ i hW]
    by_cases hki : k = i
    · subst hki
      rw [Function.update_self, Replica.absorb, hW, h.cuts k, cut_union_missing _ hu]
    · rw [Function.update_of_ne hki, ← h.cuts]
  own k l := by
    refine le_trans ?_ ((extends_absorb i hW).vv k (name k))
    by_cases hli : l = i
    · subst hli
      rw [Function.update_self]
      exact sup_le (h.own k l) ((hv (name k)).trans (h.own k j))
    · rw [Function.update_of_ne hli]
      exact h.own k l
  identify := by
    rw [commonLog_absorb ρ i hW]
    exact h.identify

end Absorb

/-- Every replica has made one write of its own. -/
theorem first [DecidableEq R] (hname : Function.Injective name) (p : ι → P) (x : ι → Option V) :
    Coherent name fun i => (⟨∅, ⊥⟩ : Replica R P V).append (name i) (p i) (x i) := by
  have hlog : ∀ w, w ∈ commonLog (fun i => (⟨∅, ⊥⟩ : Replica R P V).append (name i) (p i) (x i)) ↔
      ∃ i, w = Replica.next (name i) ⊥ (p i) (x i) := by
    intro w
    simp [commonLog, Replica.append]
  have hcov : ∀ i j, Covers ((⟨∅, ⊥⟩ : Replica R P V).append (name i) (p i) (x i)).vv
      (Replica.next (name j) ⊥ (p j) (x j)).dot ↔ j = i := by
    intro i j
    by_cases hij : j = i
    · subst hij
      simp [Covers, Replica.append, Replica.next]
    · simp [Covers, Replica.append, Replica.next, hij, Function.update_of_ne (hname.ne hij)]
  refine ⟨fun i => ?_, fun i j => ?_, fun u hu w hw he => ?_⟩
  · ext w
    simp only [cut, Set.mem_ofPred_eq, hlog]
    constructor
    · intro hw
      have hw : w = Replica.next (name i) ⊥ (p i) (x i) := by simpa [Replica.append] using hw
      exact ⟨⟨i, hw⟩, by rw [hw, hcov]⟩
    · rintro ⟨⟨j, rfl⟩, hc⟩
      rw [hcov] at hc
      subst hc
      exact .inl rfl
  · by_cases hij : i = j
    · rw [hij]
    · simp [Replica.append, Function.update_of_ne (hname.ne hij)]
  · obtain ⟨i, rfl⟩ := (hlog u).mp hu
    obtain ⟨j, rfl⟩ := (hlog w).mp hw
    have hij : name i = name j := congrArg Dot.replica he
    rw [hname hij]

end Coherent
end Pmd.Foundation
