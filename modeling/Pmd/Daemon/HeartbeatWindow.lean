import Pmd.Daemon.FailureDetector
import Mathlib.Data.List.DropRight
import Mathlib.Data.List.Sort
import Mathlib.Data.Int.Order.Basic

/-!
# The window of heartbeat intervals

A detector records the differences between arrivals. It evicts before it inserts, so
a window of size zero still holds the newest interval; every other window holds the
most recent ones up to its size.
-/
namespace Pmd
namespace PhiAccrualDetector

/-- A new detector after heartbeats at these instants. -/
def recorded (maxWindowSize : ℕ) (minStdDeviationMs : ℚ) (arrivals : List ℕ) :
    PhiAccrualDetector :=
  arrivals.foldl (fun p now => p.heartbeatAt now) (new maxWindowSize minStdDeviationMs)

/-- The differences between consecutive instants, in order. -/
def differences : List ℕ → List ℤ
  | a :: b :: rest => ((b : ℤ) - a) :: differences (b :: rest)
  | _ => []

variable {size : ℕ} {minStd : ℚ} {arrivals : List ℕ}

theorem recorded_concat (arrivals : List ℕ) (now : ℕ) :
    recorded size minStd (arrivals ++ [now]) = (recorded size minStd arrivals).heartbeatAt now := by
  simp [recorded]

theorem differences_concat (l : List ℕ) (a b : ℕ) :
    differences (l ++ [a] ++ [b]) = differences (l ++ [a]) ++ [(b : ℤ) - a] := by
  induction l with
  | nil => rfl
  | cons c l ih =>
    cases l with
    | nil => rfl
    | cons d l => simpa [differences] using ih

theorem length_differences (l : List ℕ) : (differences l).length = l.length - 1 := by
  fun_induction differences with
  | case1 a b rest ih => simpa using ih
  | case2 l h =>
    match l with
    | [] => rfl
    | [_] => rfl
    | a :: b :: rest => exact absurd rfl (h a b rest)

@[simp] theorem recorded_maxWindowSize :
    (recorded size minStd arrivals).maxWindowSize = size := by
  induction arrivals using List.reverseRecOn with
  | nil => rfl
  | append_singleton arrivals now ih =>
    rw [recorded_concat, heartbeatAt]
    split <;> exact ih

@[simp] theorem recorded_minStdDeviationMs :
    (recorded size minStd arrivals).minStdDeviationMs = minStd := by
  induction arrivals using List.reverseRecOn with
  | nil => rfl
  | append_singleton arrivals now ih =>
    rw [recorded_concat, heartbeatAt]
    split <;> exact ih

theorem recorded_lastHeartbeat :
    (recorded size minStd arrivals).lastHeartbeat = arrivals.getLast? := by
  induction arrivals using List.reverseRecOn with
  | nil => rfl
  | append_singleton arrivals now ih =>
    rw [recorded_concat, heartbeatAt, List.getLast?_concat]
    split <;> rfl

/-- Evicting before inserting keeps the last `max size 1` elements. -/
theorem evict_then_insert {α : Type} (l : List α) (x : α) (size : ℕ) :
    (if size ≤ (l.rtake (max size 1)).length then (l.rtake (max size 1)).tail
      else l.rtake (max size 1)) ++ [x] = (l ++ [x]).rtake (max size 1) := by
  obtain ⟨k, hk⟩ : ∃ k, max size 1 = k + 1 := ⟨max size 1 - 1, by omega⟩
  rw [hk, List.rtake_concat_succ, List.append_cancel_right_eq, List.rtake, List.rtake,
    List.length_drop]
  split
  · rw [List.tail_drop]
    by_cases hlen : l.length ≤ k
    · have hnil : l = [] ∨ size = k + 1 := by
        rcases Nat.eq_zero_or_pos l.length with h | h
        · exact .inl (List.eq_nil_iff_length_eq_zero.mpr h)
        · omega
      rcases hnil with rfl | hsize
      · simp
      · omega
    · congr 1
      omega
  · congr 1
    omega

theorem recorded_intervals (size : ℕ) (minStd : ℚ) (h : arrivals.Pairwise (· ≤ ·)) :
    (recorded size minStd arrivals).intervals.map (fun d : ℕ => (d : ℤ)) =
      (differences arrivals).rtake (max size 1) := by
  induction arrivals using List.reverseRecOn with
  | nil => simp [recorded, new, differences]
  | append_singleton arrivals now ih =>
    rw [List.pairwise_append] at h
    have hlast : (recorded size minStd arrivals).lastHeartbeat = arrivals.getLast? :=
      recorded_lastHeartbeat
    rw [recorded_concat, heartbeatAt, hlast]
    rcases List.eq_nil_or_concat' arrivals with rfl | ⟨l, last, rfl⟩
    · simp [recorded, new, differences]
    · have hle : last ≤ now := h.2.2 last (by simp) now (by simp)
      rw [List.getLast?_concat, differences_concat, ← evict_then_insert, ← ih h.1,
        recorded_maxWindowSize, List.length_map]
      dsimp only
      rw [List.map_append, List.map_singleton, Int.ofNat_sub hle]
      split
      · rw [List.map_tail]
      · rfl

theorem length_recorded_intervals (size : ℕ) (minStd : ℚ) (h : arrivals.Pairwise (· ≤ ·)) :
    (recorded size minStd arrivals).intervals.length =
      min (arrivals.length - 1) (max size 1) := by
  have hlen := congrArg List.length (recorded_intervals size minStd h)
  rw [List.length_map, List.rtake, List.length_drop, length_differences] at hlen
  omega

/-- The stored intervals are the last `min(n, maxWindowSize)` differences, there are at
most `maxWindowSize` of them, and the last heartbeat is the last arrival. -/
def HoldsRecentPast (maxWindowSize : ℕ) (p : PhiAccrualDetector) (arrivals : List ℕ) : Prop :=
  p.intervals.map (fun d : ℕ => (d : ℤ)) = (differences arrivals).rtake maxWindowSize ∧
    p.intervals.length ≤ maxWindowSize ∧ p.lastHeartbeat = arrivals.getLast?

/-- The window is the recent past exactly if its size is not zero or there is no
interval yet. -/
theorem holdsRecentPast_iff (size : ℕ) (minStd : ℚ) (arrivals : List ℕ)
    (h : arrivals.Pairwise (· ≤ ·)) :
    HoldsRecentPast size (recorded size minStd arrivals) arrivals ↔
      1 ≤ size ∨ arrivals.length ≤ 1 := by
  have hlen := length_recorded_intervals size minStd h
  constructor
  · rintro ⟨-, hle, -⟩
    omega
  · intro hcond
    refine ⟨?_, by omega, recorded_lastHeartbeat⟩
    rw [recorded_intervals size minStd h]
    rcases hcond with hsize | hone
    · rw [max_eq_left hsize]
    · have hnil : differences arrivals = [] := by
        rw [List.eq_nil_iff_length_eq_zero, length_differences]
        omega
      rw [hnil, List.rtake_nil, List.rtake_nil]

theorem holdsRecentPast_iff_two : HoldsRecentPast 2 (recorded 2 500 [0, 10, 30, 60])
    [0, 10, 30, 60] :=
  (holdsRecentPast_iff 2 500 [0, 10, 30, 60] (by decide)).mpr (.inl (by decide))

/-- With a window of size zero two heartbeats leave one interval. -/
theorem window_zero_holds_one : ¬ ∀ (size : ℕ) (minStd : ℚ) (arrivals : List ℕ),
    arrivals.Pairwise (· ≤ ·) →
      HoldsRecentPast size (recorded size minStd arrivals) arrivals := by
  intro h
  have hlen := (h 0 500 [0, 10] (by decide)).2.1
  have hone : (recorded 0 500 [0, 10]).intervals = [10] := rfl
  rw [hone] at hlen
  exact absurd hlen (by decide)

end PhiAccrualDetector
end Pmd
