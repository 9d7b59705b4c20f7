import Mathlib.Logic.Relation
import Mathlib.Data.List.Basic

/-!
# Transition systems with named actions

A system is a set of initial states and a partial step function. Runs are lists
of actions. `Reach C` collects the states of those runs in which every step met
`C`, a condition on the action and on the state before it; an invariant is
proved from one step and holds of all of them.
-/
namespace Pmd.Foundation

structure System (σ α : Type*) where
  init : σ → Prop
  step : σ → α → Option σ

namespace System
variable {σ α : Type*} (M : System σ α)

/-- The condition that every step meets. -/
def any : σ → α → Prop := fun _ _ => True

def run : σ → List α → Option σ
  | s, [] => some s
  | s, a :: as => (M.step s a).bind fun t => run t as

/-- Every step of the run `as` from `s` meets `C` in the state it is taken in. -/
def Meets (C : σ → α → Prop) : σ → List α → Prop
  | _, [] => True
  | s, a :: as => C s a ∧ ∀ t, M.step s a = some t → Meets C t as

def Move (C : σ → α → Prop) (s t : σ) : Prop := ∃ a, C s a ∧ M.step s a = some t

def Leads (C : σ → α → Prop) : σ → σ → Prop := Relation.ReflTransGen (M.Move C)

def Reach (C : σ → α → Prop) (t : σ) : Prop := ∃ s, M.init s ∧ M.Leads C s t

variable {M}

theorem run_step {s t u : σ} {a : α} {as : List α} (h : M.step s a = some t)
    (hr : M.run t as = some u) : M.run s (a :: as) = some u := by
  rw [run, h]
  exact hr

theorem run_append {s : σ} {as bs : List α} :
    M.run s (as ++ bs) = (M.run s as).bind fun t => M.run t bs := by
  induction as generalizing s with
  | nil => rfl
  | cons a as ih =>
    rw [List.cons_append, run, run, Option.bind_assoc]
    simp only [ih]

/-- What one step preserves, every run preserves. -/
theorem run_preserves {I : σ → Prop} {C : σ → α → Prop}
    (hstep : ∀ s a t, I s → C s a → M.step s a = some t → I t) {s t : σ} {as : List α}
    (h : M.run s as = some t) (hc : M.Meets C s as) (hi : I s) : I t := by
  induction as generalizing s with
  | nil =>
    cases h
    exact hi
  | cons a as ih =>
    rw [run] at h
    obtain ⟨u, hu, hrest⟩ := Option.bind_eq_some_iff.mp h
    exact ih hrest (hc.2 u hu) (hstep s a u hi hc.1 hu)

/-- Some step of the run is an event. -/
def Happens (E : σ → α → Prop) : σ → List α → Prop
  | _, [] => False
  | s, a :: as => E s a ∨ ∃ t, M.step s a = some t ∧ Happens E t as

/-- Where every step keeps `Q` or is an event, a run from `Q` ends in `Q`, or an event has
happened. -/
theorem run_keeps_or_happens {Q : σ → Prop} {E : σ → α → Prop}
    (hstep : ∀ s a t, Q s → M.step s a = some t → Q t ∨ E s a) {s t : σ} {as : List α}
    (h : M.run s as = some t) (hs : Q s) : Q t ∨ M.Happens E s as := by
  induction as generalizing s with
  | nil =>
    cases h
    exact .inl hs
  | cons a as ih =>
    obtain ⟨u, hu, hrest⟩ := Option.bind_eq_some_iff.mp h
    rcases hstep s a u hs hu with hq | he
    · exact (ih hrest hq).imp_right fun hlater => .inr ⟨u, hu, hlater⟩
    · exact .inr (.inl he)

theorem exists_of_happens {E : σ → α → Prop} {s : σ} {as : List α} (h : M.Happens E s as) :
    ∃ a ∈ as, ∃ t, E t a := by
  induction as generalizing s with
  | nil => exact h.elim
  | cons a as ih =>
    rcases h with he | ⟨t, -, h⟩
    · exact ⟨a, List.mem_cons_self, s, he⟩
    · obtain ⟨b, hb, hE⟩ := ih h
      exact ⟨b, List.mem_cons_of_mem _ hb, hE⟩

/-- The weights of the steps of a run. -/
def total (w : σ → α → ℕ) : σ → List α → ℕ
  | _, [] => 0
  | s, a :: as => w s a + (M.step s a).elim 0 fun t => total w t as

/-- How many steps of the run are events. -/
abbrev count (M : System σ α) (E : σ → α → Bool) : σ → List α → ℕ :=
  M.total fun s a => (E s a).toNat

theorem total_zero (s : σ) (as : List α) : M.total (fun _ _ => 0) s as = 0 := by
  induction as generalizing s with
  | nil => rfl
  | cons a as ih =>
    rw [total, Nat.zero_add]
    cases M.step s a with
    | none => rfl
    | some t => exact ih t

/-- What is observed of the steps of a run. -/
def observe {β : Type*} (o : σ → α → Option β) : σ → List α → List β
  | _, [] => []
  | s, a :: as => (o s a).toList ++ (M.step s a).elim [] fun t => observe o t as

theorem observe_concat {β : Type*} {o : σ → α → Option β} {s t : σ} {as : List α} {a : α}
    (h : M.run s as = some t) :
    M.observe o s (as ++ [a]) = M.observe o s as ++ (o t a).toList := by
  induction as generalizing s with
  | nil =>
    cases h
    rw [List.nil_append, observe, observe, List.nil_append]
    cases M.step t a <;> exact List.append_nil _
  | cons b as ih =>
    obtain ⟨u, hu, hrest⟩ := Option.bind_eq_some_iff.mp h
    rw [List.cons_append, observe, observe, hu, Option.elim_some, Option.elim_some, ih hrest,
      List.append_assoc]

theorem observe_none {β : Type*} (s : σ) (as : List α) :
    M.observe (fun _ _ => (none : Option β)) s as = [] := by
  induction as generalizing s with
  | nil => rfl
  | cons a as ih =>
    rw [observe]
    cases M.step s a with
    | none => rfl
    | some t => exact ih t

theorem observe_bind {β γ : Type*} (o : σ → α → Option β) (f : β → Option γ) (s : σ)
    (as : List α) :
    M.observe (fun s a => (o s a).bind f) s as = (M.observe o s as).filterMap f := by
  induction as generalizing s with
  | nil => rfl
  | cons a as ih =>
    have hone : ((o s a).bind f).toList = (o s a).toList.filterMap f := by
      cases o s a with
      | none => rfl
      | some b =>
        rw [Option.bind_some, Option.toList_some, List.filterMap_cons]
        cases f b <;> rfl
    rw [observe, observe, List.filterMap_append, hone]
    cases M.step s a with
    | none => rfl
    | some t => rw [Option.elim_some, Option.elim_some, ih t]

/-- The queue rule: where a step takes from the front of a queue what it gives out and adds
at its end what comes in, a run gives out what was queued and came in, in order. -/
theorem run_queue {β : Type*} {o i : σ → α → Option β} {f : σ → List β}
    (hstep : ∀ s a t, M.step s a = some t → (o s a).toList ++ f t = f s ++ (i s a).toList)
    {s t : σ} {as : List α} (h : M.run s as = some t) :
    M.observe o s as ++ f t = f s ++ M.observe i s as := by
  induction as generalizing s with
  | nil =>
    cases h
    rw [observe, observe, List.nil_append, List.append_nil]
  | cons a as ih =>
    obtain ⟨u, hu, hrest⟩ := Option.bind_eq_some_iff.mp h
    rw [observe, observe, hu, Option.elim_some, Option.elim_some, List.append_assoc, ih hrest,
      ← List.append_assoc, hstep s a u hu, List.append_assoc]

theorem run_concat {s t u : σ} {as : List α} {a : α} (h : M.run s as = some t)
    (ha : M.step t a = some u) : M.run s (as ++ [a]) = some u := by
  rw [run_append, h, Option.bind_some, run, ha]
  rfl

section
variable {I : σ → Prop} {C : σ → α → Prop} {φ : σ → ℕ}

/-- The accounting rule: where a step pays its weight `w` from the balance `φ`, and its
weight `v` is paid in, a run pays no more than the balance it began with and what came in. -/
theorem run_total_le {w v : σ → α → ℕ}
    (hkeep : ∀ s a t, I s → C s a → M.step s a = some t → I t)
    (hstep : ∀ s a t, I s → C s a → M.step s a = some t → w s a + φ t ≤ v s a + φ s) {s t : σ}
    {as : List α} (h : M.run s as = some t) (hc : M.Meets C s as) (hi : I s) :
    M.total w s as + φ t ≤ M.total v s as + φ s := by
  induction as generalizing s with
  | nil =>
    cases h
    exact Nat.le_refl _
  | cons a as ih =>
    obtain ⟨u, hu, hrest⟩ := Option.bind_eq_some_iff.mp h
    have hone := hstep s a u hi hc.1 hu
    have hmany := ih hrest (hc.2 u hu) (hkeep s a u hi hc.1 hu)
    rw [total, total, hu, Option.elim_some, Option.elim_some]
    omega

end

theorem meets_cons {C : σ → α → Prop} {s t : σ} {a : α} {as : List α} (h : M.step s a = some t) :
    M.Meets C s (a :: as) ↔ C s a ∧ M.Meets C t as := by
  rw [Meets, h]
  simp

theorem meets_any (s : σ) (as : List α) : M.Meets any s as := by
  induction as generalizing s with
  | nil => trivial
  | cons a as ih => exact ⟨trivial, fun t _ => ih t⟩

theorem meets_of_mem {C : σ → α → Prop} {s : σ} {as : List α} (h : ∀ a ∈ as, ∀ s, C s a) :
    M.Meets C s as := by
  induction as generalizing s with
  | nil => trivial
  | cons a as ih =>
    exact ⟨h a List.mem_cons_self s, fun t _ => ih fun b hb => h b (List.mem_cons_of_mem _ hb)⟩

theorem Leads.of_run {C : σ → α → Prop} {s t : σ} {as : List α} (h : M.run s as = some t)
    (hc : M.Meets C s as) : M.Leads C s t :=
  run_preserves (I := fun u => M.Leads C s u) (C := C)
    (fun _ a _ hl hca hs => hl.tail ⟨a, hca, hs⟩) h hc .refl

theorem Leads.preserves {I : σ → Prop} {C : σ → α → Prop}
    (hstep : ∀ s a t, I s → C s a → M.step s a = some t → I t) {s t : σ}
    (h : M.Leads C s t) (hi : I s) : I t := by
  induction h with
  | refl => exact hi
  | tail _ hm ih =>
    obtain ⟨a, hc, hs⟩ := hm
    exact hstep _ a _ ih hc hs

/-- Where every step keeps `Q` or is an event, a state that a run reaches from `Q` meets
`Q`, or an event has happened on the way. -/
theorem Leads.keeps_or_event {Q : σ → Prop} {E : σ → σ → Prop} {C : σ → α → Prop}
    (hstep : ∀ s a t, Q s → C s a → M.step s a = some t → Q t ∨ E s t) {s t : σ}
    (h : M.Leads C s t) (hs : Q s) :
    Q t ∨ ∃ u a v, M.Leads C s u ∧ C u a ∧ M.step u a = some v ∧ E u v ∧ M.Leads C v t := by
  induction h with
  | refl => exact .inl hs
  | @tail u v hl hm ih =>
    obtain ⟨a, hc, ha⟩ := hm
    rcases ih with hu | ⟨u', a', v', hl', hc', ha', he, hl''⟩
    · rcases hstep u a v hu hc ha with hv | he
      · exact .inl hv
      · exact .inr ⟨u, a, v, hl, hc, ha, he, .refl⟩
    · exact .inr ⟨u', a', v', hl', hc', ha', he, hl''.tail ⟨a, hc, ha⟩⟩

theorem Leads.mono {C D : σ → α → Prop} (hCD : ∀ s a, C s a → D s a) {s t : σ}
    (h : M.Leads C s t) : M.Leads D s t := by
  refine Relation.ReflTransGen.mono ?_ _ _ h
  rintro u v ⟨a, hc, hs⟩
  exact ⟨a, hCD u a hc, hs⟩

/-- The progress rule: where each state short of the goal has a step that lowers the
variant, the goal is reached. -/
theorem leads_of_variant {ι : Type*} {r : ι → ι → Prop} (hr : WellFounded r) (v : σ → ι)
    {I G : σ → Prop} {C : σ → α → Prop}
    (hstep : ∀ s, I s → ¬ G s → ∃ a t, C s a ∧ M.step s a = some t ∧ I t ∧ r (v t) (v s)) {s : σ}
    (hs : I s) : ∃ t, M.Leads C s t ∧ I t ∧ G t := by
  induction h : v s using hr.induction generalizing s with
  | _ x ih =>
    by_cases hg : G s
    · exact ⟨s, .refl, hs, hg⟩
    · obtain ⟨a, t, hc, ht, hi, hlt⟩ := hstep s hs hg
      obtain ⟨u, hu, hgoal⟩ := ih (v t) (h ▸ hlt) hi rfl
      exact ⟨u, .head ⟨a, hc, ht⟩ hu, hgoal⟩

/-- The invariant rule: true initially and kept by every step that meets `C`. -/
theorem Reach.invariant {I : σ → Prop} {C : σ → α → Prop} (hinit : ∀ s, M.init s → I s)
    (hstep : ∀ s a t, I s → C s a → M.step s a = some t → I t) {s : σ}
    (h : M.Reach C s) : I s := by
  obtain ⟨s₀, h₀, hl⟩ := h
  exact hl.preserves hstep (hinit s₀ h₀)

theorem Reach.mono {C D : σ → α → Prop} (hCD : ∀ s a, C s a → D s a) {s : σ}
    (h : M.Reach C s) : M.Reach D s := by
  obtain ⟨s₀, h₀, hl⟩ := h
  exact ⟨s₀, h₀, hl.mono hCD⟩

theorem Reach.leads {C : σ → α → Prop} {s t : σ} (h : M.Reach C s) (hl : M.Leads C s t) :
    M.Reach C t := by
  obtain ⟨s₀, h₀, hs⟩ := h
  exact ⟨s₀, h₀, hs.trans hl⟩

/-- The system restricted to the steps that pass the test `c`. -/
def guard (M : System σ α) (c : σ → α → Bool) : System σ α where
  init := M.init
  step s a := if c s a then M.step s a else none

theorem run_of_guard {c : σ → α → Bool} {C : σ → α → Prop} (hc : ∀ s a, c s a = true → C s a)
    {s t : σ} {as : List α} (h : (M.guard c).run s as = some t) :
    M.run s as = some t ∧ M.Meets C s as := by
  induction as generalizing s with
  | nil => exact ⟨h, trivial⟩
  | cons a as ih =>
    obtain ⟨u, hu, hrest⟩ := Option.bind_eq_some_iff.mp h
    obtain ⟨hca, hs⟩ := Option.ite_none_right_eq_some.mp hu
    obtain ⟨hrun, hmeets⟩ := ih hrest
    refine ⟨run_step hs hrun, hc s a hca, fun v hv => ?_⟩
    rw [hs, Option.some.injEq] at hv
    rwa [← hv]

theorem Leads.of_guard {c : σ → α → Bool} {C : σ → α → Prop} (hc : ∀ s a, c s a = true → C s a)
    {s t : σ} {as : List α} (h : (M.guard c).run s as = some t) : M.Leads C s t := by
  obtain ⟨hrun, hmeets⟩ := run_of_guard hc h
  exact .of_run hrun hmeets

/-- A run that is evaluated: if every step passes `c` and the last state passes
`p`, such a state is reachable. -/
theorem Reach.of_eval {c : σ → α → Bool} {C : σ → α → Prop} {s₀ : Option σ} {as : List α}
    {p : σ → Bool} (h : (s₀.bind fun s => (M.guard c).run s as).any p = true)
    (hc : ∀ s a, c s a = true → C s a) (h₀ : ∀ s, s₀ = some s → M.init s) :
    ∃ t, M.Reach C t ∧ p t = true := by
  obtain ⟨t, ht, hp⟩ := (Option.any_eq_true p _).mp h
  obtain ⟨s, hs, hrun⟩ := Option.bind_eq_some_iff.mp ht
  exact ⟨t, ⟨s, h₀ s hs, .of_guard hc hrun⟩, hp⟩

theorem Leads.of_eval {c : σ → α → Bool} {C : σ → α → Prop} {s : σ} {as : List α} {p : σ → Bool}
    (h : ((M.guard c).run s as).any p = true) (hc : ∀ s a, c s a = true → C s a) :
    ∃ t, M.Leads C s t ∧ p t = true := by
  obtain ⟨t, ht, hp⟩ := (Option.any_eq_true p _).mp h
  exact ⟨t, .of_guard hc ht, hp⟩

end System
end Pmd.Foundation
