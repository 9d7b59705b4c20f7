import Pmd.Foundation.Runs

/-!
# Forward simulation

A relation between the states of two systems simulates the first by the second if every
step of the first, from related states, is matched by a run of the second. Then every run
of the first is matched, and what holds of the second in all its states holds of those
that are related to the states of the first.
-/
namespace Pmd.Foundation

variable {σ τ α β : Type*} {M : System σ α} {N : System τ β} {C : σ → α → Prop}
  {R : σ → τ → Prop}

/-- The steps of `M` that meet `C` are matched by runs of `N`. -/
structure Simulates (M : System σ α) (C : σ → α → Prop) (N : System τ β) (R : σ → τ → Prop) :
    Prop where
  init : ∀ s, M.init s → ∃ t, N.init t ∧ R s t
  step : ∀ s a s' t, R s t → C s a → M.step s a = some s' →
    ∃ t', N.Leads System.any t t' ∧ R s' t'

namespace Simulates
variable {s s' : σ} {t : τ}

theorem leads (h : Simulates M C N R) (hl : M.Leads C s s') (hR : R s t) :
    ∃ t', N.Leads System.any t t' ∧ R s' t' := by
  refine hl.preserves (I := fun s' => ∃ t', N.Leads System.any t t' ∧ R s' t')
    (fun u a v hu hc hs => ?_) ⟨t, .refl, hR⟩
  obtain ⟨t', ht', hR'⟩ := hu
  obtain ⟨t'', ht'', hR''⟩ := h.step u a v t' hR' hc hs
  exact ⟨t'', ht'.trans ht'', hR''⟩

theorem reach (h : Simulates M C N R) (hr : M.Reach C s) :
    ∃ t, N.Reach System.any t ∧ R s t := by
  obtain ⟨s₀, h₀, hl⟩ := hr
  obtain ⟨t₀, ht₀, hR⟩ := h.init s₀ h₀
  obtain ⟨t, ht, hR⟩ := h.leads hl hR
  exact ⟨t, ⟨t₀, ht₀, ht⟩, hR⟩

end Simulates
end Pmd.Foundation
