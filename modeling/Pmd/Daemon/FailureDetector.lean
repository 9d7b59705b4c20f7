import Mathlib.Data.Rat.Defs
import Mathlib.Data.List.Basic

/-!
# Phi accrual failure detector: recorded data

Instants and inter-arrival times are exact durations in nanoseconds. The
suspicion level itself is a real number; the daemon only ever compares it with
its threshold, and that comparison is a parameter of the platform.
-/
namespace Pmd

structure PhiAccrualDetector where
  intervals : List ℕ
  maxWindowSize : ℕ
  lastHeartbeat : Option ℕ
  lastHeartbeatEpoch : Option ℕ
  minStdDeviationMs : ℚ

namespace PhiAccrualDetector

def new (maxWindowSize : ℕ) (minStdDeviationMs : ℚ) : PhiAccrualDetector where
  intervals := []
  maxWindowSize := maxWindowSize
  lastHeartbeat := none
  lastHeartbeatEpoch := none
  minStdDeviationMs := minStdDeviationMs

/-- Eviction happens before insertion, and only once a previous arrival is known. -/
def heartbeatAt (now : ℕ) (p : PhiAccrualDetector) : PhiAccrualDetector :=
  match p.lastHeartbeat with
  | none => { p with lastHeartbeat := some now }
  | some last =>
    let kept := if p.maxWindowSize ≤ p.intervals.length then p.intervals.tail else p.intervals
    { p with intervals := kept ++ [now - last], lastHeartbeat := some now }

def heartbeat (epoch : Option ℕ) (now : ℕ) (p : PhiAccrualDetector) : PhiAccrualDetector :=
  heartbeatAt now { p with lastHeartbeatEpoch := epoch }

end PhiAccrualDetector
end Pmd
