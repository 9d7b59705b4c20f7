import Pmd.Foundation.Simulation
import Pmd.Foundation.Snapshots
import Mathlib.Data.Set.Lattice

/-!
# A causally consistent store

Replicas hold sets of entries. A replica makes a new entry on all that it holds, or takes
over whole what some replica held at some moment: a design with neither vectors nor
deltas. With an entry a replica then always holds all that the entry was made on.

A coherent family of replicas with version vectors represents such a store: a fresh write
is a new entry, and merging what a cut of the log has beyond what the replica covers is
taking over that cut.
-/
namespace Pmd.Foundation

structure Store (ι E : Type*) where
  holds : ι → Set E
  /-- All that replicas have held. -/
  moments : Set (Set E)
  /-- What was held where an entry was made. -/
  past : E → Set E

inductive StoreAct (ι E : Type*) where
  | write (i : ι) (e : E)
  | learn (i : ι) (V : Set E)

namespace Store
variable {ι E : Type*} [DecidableEq ι]

open Classical in
/-- Replica `i` makes the entry `e`. -/
noncomputable def write (s : Store ι E) (i : ι) (e : E) : Store ι E where
  holds := Function.update s.holds i (insert e (s.holds i))
  moments := insert (insert e (s.holds i)) s.moments
  past := Function.update s.past e (s.holds i)

/-- Replica `i` takes over `V`. -/
def learn (s : Store ι E) (i : ι) (V : Set E) : Store ι E where
  holds := Function.update s.holds i (s.holds i ∪ V)
  moments := insert (s.holds i ∪ V) s.moments
  past := s.past

open Classical in
noncomputable def step (s : Store ι E) : StoreAct ι E → Option (Store ι E)
  | .write i e => if ∀ V ∈ s.moments, e ∉ V then some (s.write i e) else none
  | .learn i V => if V ∈ s.moments then some (s.learn i V) else none

/-- At first each replica holds an entry of its own. -/
noncomputable def system (ι E : Type*) [DecidableEq ι] : System (Store ι E) (StoreAct ι E) where
  init s := ∃ first : ι → E, s.holds = (fun i => {first i}) ∧ s.moments = Set.range s.holds ∧
    ∀ i, s.past (first i) = ∅
  step := step

variable {s s' : Store ι E} {i : ι}

section
variable (s i) (e : E) (V : Set E)

theorem write_holds : (s.write i e).holds = Function.update s.holds i (insert e (s.holds i)) := rfl

theorem learn_holds : (s.learn i V).holds = Function.update s.holds i (s.holds i ∪ V) := rfl

@[simp] theorem write_past_self : (s.write i e).past e = s.holds i := by
  simp [Store.write]

@[simp] theorem write_past_ne {u : E} (h : u ≠ e) : (s.write i e).past u = s.past u := by
  simp [Store.write, h]

end

theorem step_write {e : E} (h : ∀ V ∈ s.moments, e ∉ V) :
    (system ι E).step s (.write i e) = some (s.write i e) := if_pos h

theorem step_learn {V : Set E} (h : V ∈ s.moments) :
    (system ι E).step s (.learn i V) = some (s.learn i V) := if_pos h

theorem moments_leads (hl : (system ι E).Leads System.any s s') : s.moments ⊆ s'.moments := by
  refine hl.preserves (I := fun s' => s.moments ⊆ s'.moments) (fun u a v hu _ hs => ?_) subset_rfl
  cases a with
  | write i e =>
    obtain ⟨-, hs⟩ := Option.ite_none_right_eq_some.mp hs
    cases hs
    exact hu.trans (Set.subset_insert _ _)
  | learn i V =>
    obtain ⟨-, hs⟩ := Option.ite_none_right_eq_some.mp hs
    cases hs
    exact hu.trans (Set.subset_insert _ _)

/-- What has been held holds with an entry all that the entry was made on. -/
structure Consistent (s : Store ι E) : Prop where
  current : ∀ i, s.holds i ∈ s.moments
  closed : ∀ V ∈ s.moments, ∀ e ∈ V, s.past e ⊆ V

namespace Consistent

theorem init {s : Store ι E} (h : (system ι E).init s) : s.Consistent := by
  obtain ⟨first, hholds, hmoments, hpast⟩ := h
  refine ⟨fun i => hmoments ▸ Set.mem_range_self i, fun V hV e he => ?_⟩
  rw [hmoments, hholds] at hV
  obtain ⟨i, rfl⟩ := hV
  rw [Set.mem_singleton_iff.mp he, hpast]
  exact Set.empty_subset _

theorem write (hs : s.Consistent) {e : E} (hnew : ∀ V ∈ s.moments, e ∉ V) :
    (s.write i e).Consistent where
  current j := by
    by_cases hj : j = i
    · subst hj
      exact .inl (Function.update_self _ _ _)
    · refine .inr ?_
      rw [write_holds, Function.update_of_ne hj]
      exact hs.current j
  closed V hV u hu := by
    by_cases hue : u = e
    · subst hue
      rcases hV with rfl | hV
      · rw [write_past_self]
        exact Set.subset_insert _ _
      · exact absurd hu (hnew V hV)
    · rw [write_past_ne s i e hue]
      rcases hV with rfl | hV
      · exact (hs.closed _ (hs.current i) u (hu.resolve_left hue)).trans (Set.subset_insert _ _)
      · exact hs.closed V hV u hu

theorem learn (hs : s.Consistent) {V : Set E} (hV : V ∈ s.moments) : (s.learn i V).Consistent where
  current j := by
    by_cases hj : j = i
    · subst hj
      exact .inl (Function.update_self _ _ _)
    · refine .inr ?_
      rw [learn_holds, Function.update_of_ne hj]
      exact hs.current j
  closed U hU u hu := by
    rcases hU with rfl | hU
    · rcases hu with hu | hu
      · exact (hs.closed _ (hs.current i) u hu).trans Set.subset_union_left
      · exact (hs.closed V hV u hu).trans Set.subset_union_right
    · exact hs.closed U hU u hu

theorem reach (h : (system ι E).Reach System.any s) : s.Consistent := by
  refine h.invariant (I := Consistent) (fun _ h => init h) fun s a s' hs _ h => ?_
  cases a with
  | write i e =>
    obtain ⟨hnew, h⟩ := Option.ite_none_right_eq_some.mp h
    cases h
    exact hs.write hnew
  | learn i V =>
    obtain ⟨hV, h⟩ := Option.ite_none_right_eq_some.mp h
    cases h
    exact hs.learn hV

end Consistent
end Store

/-! ## Families of replicas as stores -/

section Represents
variable {ι R P V : Type*}

/-- The replicas hold what the store holds, and its moments are cuts of the common log. -/
structure Represents (name : ι → R) (ρ : ι → Replica R P V) (s : Store ι (Write R P V)) :
    Prop where
  coherent : Coherent name ρ
  closed : ∀ i, Closed (commonLog ρ) (ρ i).vv
  holds : ∀ i, s.holds i = (ρ i).writes
  current : ∀ i, (ρ i).writes ∈ s.moments
  moments : ∀ U ∈ s.moments, ∃ i v, v ≤ (ρ i).vv ∧ U = cut (commonLog ρ) v
  past : ∀ w ∈ commonLog ρ, s.past w = cut (commonLog ρ) w.past

namespace Represents
variable {name : ι → R} {ρ : ι → Replica R P V} {s : Store ι (Write R P V)}

theorem subset_log (h : Represents name ρ s) {U : Set (Write R P V)} (hU : U ∈ s.moments) :
    U ⊆ commonLog ρ := by
  obtain ⟨i, v, -, rfl⟩ := h.moments U hU
  exact cut_subset _ _

/-- What a write was made on does not change any more. -/
theorem cut_past (h : Represents name ρ s) {σ : ι → Replica R P V} (hx : Extends ρ σ)
    {w : Write R P V} (hw : w ∈ commonLog ρ) :
    cut (commonLog σ) w.past = cut (commonLog ρ) w.past := by
  obtain ⟨i, hi⟩ := hw
  rw [h.coherent.cuts i] at hi
  exact hx.cut i _ (h.closed i w hi)

theorem next_notMem_log (h : Represents name ρ s) (i : ι) (p : P) (x : Option V) :
    Replica.next (name i) (ρ i).vv p x ∉ commonLog ρ := by
  rintro ⟨j, hj⟩
  rw [h.coherent.cuts j] at hj
  exact h.coherent.not_covers_next i p x j hj.2

variable [DecidableEq ι]

/-- A fresh write is a new entry. -/
theorem append [DecidableEq R] (h : Represents name ρ s) (hname : Function.Injective name)
    (i : ι) (p : P) (x : Option V) :
    (Store.system ι (Write R P V)).step s (.write i (Replica.next (name i) (ρ i).vv p x)) =
        some (s.write i (Replica.next (name i) (ρ i).vv p x)) ∧
      Represents name (Function.update ρ i ((ρ i).append (name i) p x))
        (s.write i (Replica.next (name i) (ρ i).vv p x)) := by
  have hcoh := h.coherent.append i p x hname
  have hext := h.coherent.extends_append i p x
  have hnot := h.next_notMem_log i p x
  have hnew : ((ρ i).append (name i) p x).writes =
      insert (Replica.next (name i) (ρ i).vv p x) (s.holds i) := by
    rw [h.holds]
    rfl
  refine ⟨Store.step_write fun U hU hw => hnot (h.subset_log hU hw), hcoh, fun j w hw => ?_,
    fun j => ?_, fun j => ?_, fun U hU => ?_, fun w hw => ?_⟩
  · refine le_trans ?_ (hext.vv j)
    rw [← hcoh.cuts j] at hw
    by_cases hj : j = i
    · subst hj
      rw [Function.update_self] at hw
      rcases hw with rfl | hw
      · exact le_rfl
      · exact h.closed j w (h.coherent.cuts j ▸ hw)
    · rw [Function.update_of_ne hj] at hw
      exact h.closed j w (h.coherent.cuts j ▸ hw)
  · rw [Store.write_holds]
    by_cases hj : j = i
    · subst hj
      rw [Function.update_self, Function.update_self, hnew]
    · rw [Function.update_of_ne hj, Function.update_of_ne hj, h.holds]
  · by_cases hj : j = i
    · subst hj
      rw [Function.update_self, hnew]
      exact .inl rfl
    · rw [Function.update_of_ne hj]
      exact .inr (h.current j)
  · rcases hU with rfl | hU
    · refine ⟨i, _, le_rfl, ?_⟩
      rw [← hcoh.cuts i, Function.update_self, hnew]
    · obtain ⟨j, v, hv, rfl⟩ := h.moments U hU
      exact ⟨j, v, hv.trans (hext.vv j), (hext.cut j v hv).symm⟩
  · rw [commonLog_append] at hw
    rcases hw with rfl | hw
    · rw [Store.write_past_self, h.holds, h.coherent.cuts i]
      exact (hext.cut i _ le_rfl).symm
    · have hne : w ≠ Replica.next (name i) (ρ i).vv p x := fun heq => hnot (heq ▸ hw)
      rw [Store.write_past_ne s i _ hne, h.past w hw, h.cut_past hext hw]

/-- Merging what the receiver is missing of a moment is taking it over. -/
theorem absorb (h : Represents name ρ s) (i : ι) {j : ι} {W : Set (Write R P V)}
    {u v : VersionVector R} (hW : W = missing (commonLog ρ) v u) (hv : v ≤ (ρ j).vv)
    (hu : u ≤ (ρ i).vv) (hclosed : Closed (commonLog ρ) v) (hV : cut (commonLog ρ) v ∈ s.moments) :
    (Store.system ι (Write R P V)).step s (.learn i (cut (commonLog ρ) v)) =
        some (s.learn i (cut (commonLog ρ) v)) ∧
      Represents name (Function.update ρ i ((ρ i).absorb W v))
        (s.learn i (cut (commonLog ρ) v)) := by
  have hcoh := h.coherent.absorb i hW hv hu
  have hext : Extends ρ _ := Coherent.extends_absorb i hW
  have hlog := commonLog_absorb ρ i hW
  have hnew : ((ρ i).absorb W v).writes = s.holds i ∪ cut (commonLog ρ) v := by
    rw [h.holds, Replica.absorb, hW, h.coherent.cuts i, cut_union_missing _ hu, cut_sup]
  refine ⟨Store.step_learn hV, hcoh, fun k => ?_, fun k => ?_, fun k => ?_, fun U hU => ?_,
    fun w hw => ?_⟩
  · rw [hlog]
    by_cases hk : k = i
    · subst hk
      rw [Function.update_self]
      exact (h.closed k).sup hclosed
    · rw [Function.update_of_ne hk]
      exact h.closed k
  · rw [Store.learn_holds]
    by_cases hk : k = i
    · subst hk
      rw [Function.update_self, Function.update_self, hnew]
    · rw [Function.update_of_ne hk, Function.update_of_ne hk, h.holds]
  · by_cases hk : k = i
    · subst hk
      rw [Function.update_self, hnew]
      exact .inl rfl
    · rw [Function.update_of_ne hk]
      exact .inr (h.current k)
  · rcases hU with rfl | hU
    · refine ⟨i, _, le_rfl, ?_⟩
      rw [← hcoh.cuts i, Function.update_self, hnew]
    · obtain ⟨k, w, hw, rfl⟩ := h.moments U hU
      exact ⟨k, w, hw.trans (hext.vv k), (hext.cut k w hw).symm⟩
  · rw [hlog] at hw ⊢
    exact h.past w hw

end Represents
end Represents

end Pmd.Foundation
