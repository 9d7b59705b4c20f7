import Pmd.Daemon.HeartbeatWindow
import Pmd.Daemon.Session
import Pmd.Platform.Reference
import Mathlib.Analysis.SpecialFunctions.Exp
import Mathlib.Analysis.SpecialFunctions.Log.Base
import Mathlib.Analysis.SpecialFunctions.Sqrt

/-!
# The suspicion level

`phi` fits a distribution to the recorded intervals and measures how unlikely the
current silence is, on a logarithmic scale capped at 100. Numbers are real here. With
two intervals in the window the level of a silent peer passes every threshold below
the cap; with fewer it is zero, by design, and stays there.
-/
namespace Pmd
open Filter Topology

/-- Intervals are recorded in nanoseconds and measured in milliseconds. -/
noncomputable def milliseconds (d : ℕ) : ℝ := d / 1000000

/-- The logistic approximation of the standard normal distribution. -/
noncomputable def normalCdf (x : ℝ) : ℝ := 1 / (1 + Real.exp (-1.5976 * x))

namespace PhiAccrualDetector

noncomputable def mean (p : PhiAccrualDetector) : ℝ :=
  if p.intervals = [] then 0 else (p.intervals.map milliseconds).sum / p.intervals.length

noncomputable def stdDeviation (p : PhiAccrualDetector) : ℝ :=
  if p.intervals.length < 2 then 0
  else √((p.intervals.map fun d => (milliseconds d - p.mean) * (milliseconds d - p.mean)).sum /
    p.intervals.length)

/-- The level at an instant, zero without enough data to form a distribution. -/
noncomputable def phiAt (p : PhiAccrualDetector) (now : ℕ) : ℝ :=
  match p.lastHeartbeat with
  | none => 0
  | some last =>
    if p.intervals.length < 2 then 0
    else
      let elapsedMs := milliseconds (now - last)
      let stdDev := max p.stdDeviation p.minStdDeviationMs
      let y := (elapsedMs - p.mean) / stdDev
      let oneMinusP := max (1 - normalCdf y) 1e-100;
      -Real.logb 10 oneMinusP

variable {p : PhiAccrualDetector}

theorem phiAt_eq_zero (h : p.intervals.length < 2) (now : ℕ) : p.phiAt now = 0 := by
  rw [phiAt]
  split
  · rfl
  · rw [if_pos h]

theorem tendsto_milliseconds (last : ℕ) :
    Tendsto (fun now : ℕ => milliseconds (now - last)) atTop atTop := by
  refine Tendsto.atTop_div_const (by norm_num) ?_
  exact tendsto_natCast_atTop_atTop.comp (tendsto_sub_atTop_nat last)

theorem tendsto_normalCdf : Tendsto (fun x => 1 - normalCdf x) atTop (𝓝 0) := by
  have hexp : Tendsto (fun x : ℝ => Real.exp (-1.5976 * x)) atTop (𝓝 0) :=
    Real.tendsto_exp_atBot.comp (tendsto_id.const_mul_atTop_of_neg (by norm_num))
  have hcdf : Tendsto normalCdf atTop (𝓝 (1 / (1 + 0))) :=
    (tendsto_const_nhds.div (tendsto_const_nhds.add hexp) (by norm_num))
  have hone : Tendsto (fun _ : ℝ => (1 : ℝ)) atTop (𝓝 1) := tendsto_const_nhds
  simpa using hone.sub hcdf

/-- With two intervals in the window the level of a silent peer passes every threshold
below the cap. -/
theorem eventually_lt_phiAt {last : ℕ} {θ : ℝ} (hlast : p.lastHeartbeat = some last)
    (hlen : 2 ≤ p.intervals.length) (hstd : 0 < p.minStdDeviationMs) (hθ : θ < 100) :
    ∀ᶠ now in atTop, θ < p.phiAt now := by
  have hσ : 0 < max p.stdDeviation p.minStdDeviationMs :=
    lt_max_of_lt_right (by exact_mod_cast hstd)
  have hy : Tendsto (fun now : ℕ => (milliseconds (now - last) - p.mean) /
      max p.stdDeviation p.minStdDeviationMs) atTop atTop :=
    (tendsto_atTop_add_const_right _ (-p.mean) (tendsto_milliseconds last)).atTop_div_const hσ
  have hbound : (0 : ℝ) < 10 ^ (-θ) := Real.rpow_pos_of_pos (by norm_num) _
  filter_upwards [(tendsto_normalCdf.comp hy).eventually_lt_const hbound] with now hnow
  have hcap : (1e-100 : ℝ) < 10 ^ (-θ) := by
    have hten : (1e-100 : ℝ) = 10 ^ (-100 : ℝ) := by
      rw [Real.rpow_neg (by norm_num)]
      norm_num
    rw [hten]
    exact Real.rpow_lt_rpow_of_exponent_lt (by norm_num) (by linarith)
  have hmax : max (1 - normalCdf ((milliseconds (now - last) - p.mean) /
      max p.stdDeviation p.minStdDeviationMs)) 1e-100 < 10 ^ (-θ) := max_lt hnow hcap
  have hpos : (0 : ℝ) < max (1 - normalCdf ((milliseconds (now - last) - p.mean) /
      max p.stdDeviation p.minStdDeviationMs)) 1e-100 := lt_max_of_lt_right (by norm_num)
  simp only [phiAt, hlast, if_neg (not_lt.mpr hlen)]
  rw [lt_neg, Real.logb_lt_iff_lt_rpow (by norm_num) hpos]
  exact hmax

/-- After these heartbeats the level passes the threshold for good exactly if there is
enough data, or if the threshold is below zero. -/
theorem eventually_lt_phiAt_recorded_iff (size : ℕ) {minStd : ℚ} {arrivals : List ℕ} {θ : ℝ}
    (hstd : 0 < minStd) (hθ : θ < 100) (h : arrivals.Pairwise (· ≤ ·)) :
    (∀ᶠ now in atTop, θ < (recorded size minStd arrivals).phiAt now) ↔
      θ < 0 ∨ 2 ≤ size ∧ 3 ≤ arrivals.length := by
  have hlen := length_recorded_intervals size minStd h
  by_cases henough : 2 ≤ size ∧ 3 ≤ arrivals.length
  · refine iff_of_true ?_ (.inr henough)
    obtain ⟨last, hlast⟩ : ∃ last, arrivals.getLast? = some last := by
      rw [← Option.isSome_iff_exists, List.getLast?_isSome]
      rintro rfl
      simp at henough
    exact eventually_lt_phiAt (recorded_lastHeartbeat.trans hlast) (by omega)
      (by rwa [recorded_minStdDeviationMs]) hθ
  · have hzero := phiAt_eq_zero (p := recorded size minStd arrivals) (by omega)
    simp only [hzero, eventually_const, or_iff_left henough]

end PhiAccrualDetector

variable {P : Platform}

/-- The phi check of a session leaves the loop if the handle of its peer holds this
detector. -/
def PhiCheckCloses (P : Platform) (cfg : Config) (p : PhiAccrualDetector) (now : ℕ) : Prop :=
  ∀ (cookie : Bytes) (t : TaskId) (st : DaemonState P) (s : Session P) (peer : PeerId P)
    (h : PeerHandle P) (nonce : Nonce) (epoch : Option ℕ),
    st.peers.lookup peer.nodeId = some h →
    h.phiDetector = { p with lastHeartbeatEpoch := h.phiDetector.lastHeartbeatEpoch } →
    s.phase = .live peer .phiCheck →
    sessionStep cfg cookie t st s (.lock nonce epoch now) =
      some ⟨st, s.goto (.live peer .cleanup), none⟩

/-- From some instant on a peer that falls silent after these heartbeats is suspect,
and the phi check closes the session with it. -/
def SilentSuspected (P : Platform) (cfg : Config) (arrivals : List ℕ) : Prop :=
  let p := PhiAccrualDetector.recorded cfg.phiWindowSize cfg.phiMinStdDeviationMs arrivals
  ∃ T, ∀ now, T < now → (cfg.phiThreshold : ℝ) < p.phiAt now ∧ PhiCheckCloses P cfg p now

/-- The platform compares the level as it is computed here. -/
def ComparesPhi (P : Platform) : Prop :=
  ∀ p now θ, P.phiExceeds p now θ = true ↔ (θ : ℝ) < p.phiAt now

theorem ComparesPhi.closes (hP : ComparesPhi P) {cfg : Config} {p : PhiAccrualDetector} {now : ℕ}
    (h : (cfg.phiThreshold : ℝ) < p.phiAt now) : PhiCheckCloses P cfg p now := by
  intro cookie t st s peer handle nonce epoch hlookup hdetector hphase
  have hphi : P.phiExceeds handle.phiDetector now cfg.phiThreshold = true := by
    rw [hP, hdetector]
    exact h
  rw [sessionStep, hphase]
  simp only [stageStep, hlookup, Option.any_some, hphi, if_true]

/-- A silent peer becomes suspect exactly if the window takes two intervals and three
heartbeats have arrived, or if the threshold is below zero. -/
theorem silentSuspected_iff (hP : ComparesPhi P) (cfg : Config)
    (hstd : 0 < cfg.phiMinStdDeviationMs) (hθ : cfg.phiThreshold < 100) (arrivals : List ℕ)
    (h : arrivals.Pairwise (· ≤ ·)) :
    SilentSuspected P cfg arrivals ↔
      cfg.phiThreshold < 0 ∨ 2 ≤ cfg.phiWindowSize ∧ 3 ≤ arrivals.length := by
  have hiff := PhiAccrualDetector.eventually_lt_phiAt_recorded_iff cfg.phiWindowSize
    hstd (show (cfg.phiThreshold : ℝ) < 100 by exact_mod_cast hθ) h
  rw [Rat.cast_lt_zero] at hiff
  rw [← hiff, eventually_atTop]
  constructor
  · rintro ⟨T, hT⟩
    exact ⟨T + 1, fun now hnow => (hT now hnow).1⟩
  · rintro ⟨T, hT⟩
    refine ⟨T, fun now hnow => ?_⟩
    have hlt := hT now hnow.le
    exact ⟨hlt, hP.closes hlt⟩

section
open Reference Classical

/-- The reference platform with the comparison of the level. -/
noncomputable def phiPlatform : Platform :=
  { platform with phiExceeds := fun p now θ => decide ((θ : ℝ) < p.phiAt now) }

theorem comparesPhi_phiPlatform : ComparesPhi phiPlatform := fun _ _ _ => decide_eq_true_iff

theorem silentSuspected_iff_regular : SilentSuspected phiPlatform config [0, 1000, 2000] :=
  (silentSuspected_iff comparesPhi_phiPlatform config (by decide +kernel) (by decide +kernel)
    [0, 1000, 2000] (by decide)).mpr (.inr (by decide))

/-- A peer that authenticates and then hangs is never suspect. -/
theorem hangs_never_suspect : ¬ ∀ (cfg : Config) (arrivals : List ℕ),
    0 < cfg.phiMinStdDeviationMs → cfg.phiThreshold < 100 → arrivals.Pairwise (· ≤ ·) →
      ∃ T, ∀ now, T < now → (cfg.phiThreshold : ℝ) < (PhiAccrualDetector.recorded
        cfg.phiWindowSize cfg.phiMinStdDeviationMs arrivals).phiAt now := by
  intro h
  obtain ⟨T, hT⟩ := h config [] (by decide +kernel) (by decide +kernel) List.Pairwise.nil
  have hlt := hT (T + 1) (Nat.lt_succ_self T)
  rw [PhiAccrualDetector.phiAt_eq_zero (by decide)] at hlt
  have hthreshold : config.phiThreshold = 8 := rfl
  rw [hthreshold] at hlt
  norm_num at hlt

end

end Pmd
