import Mathlib.Algebra.Order.BigOperators.Group.List
import Mathlib.Data.Int.Order.Basic
import Mathlib.Data.Prod.Lex
import Mathlib.Tactic.IntervalCases
import Mathlib.Tactic.Linarith
import Mathlib.Tactic.Ring

/-!
# The proleptic Gregorian calendar

Days are counted the plain way: whole years since 1970, whole months of the year,
days of the month. The count has a closed form, it grows with the date in the order
of year, month and day, and a 400-year era is split into centuries, four-year blocks
and years.
-/
namespace Pmd.Foundation

/-- The total length of the first `n` spans. -/
def tally (length : ℕ → ℤ) (n : ℕ) : ℤ := ((List.range n).map length).sum

@[simp] theorem tally_zero (length : ℕ → ℤ) : tally length 0 = 0 := rfl

theorem tally_succ (length : ℕ → ℤ) (n : ℕ) :
    tally length (n + 1) = tally length n + length n := by
  simp [tally, List.range_succ]

/-- A span ends before a later one begins. -/
theorem tally_add_le {length : ℕ → ℤ} (hpos : ∀ k, 0 ≤ length k) {m n : ℕ} (h : m < n) :
    tally length m + length m ≤ tally length n := by
  induction n with
  | zero => exact absurd h (Nat.not_lt_zero m)
  | succ n ih =>
    rw [tally_succ]
    rcases Nat.lt_succ_iff_lt_or_eq.mp h with h | rfl
    · have := ih h
      have := hpos n
      omega
    · exact le_rfl

/-- The 4/100/400 rule. -/
def isLeapYear (y : ℤ) : Bool := y % 4 = 0 ∧ (y % 100 ≠ 0 ∨ y % 400 = 0)

def yearLength (y : ℤ) : ℤ := if isLeapYear y then 366 else 365

def monthLength (y m : ℤ) : ℤ :=
  if m = 2 then if isLeapYear y then 29 else 28
  else if m = 4 ∨ m = 6 ∨ m = 9 ∨ m = 11 then 30 else 31

/-- The days of the years from 1970 up to `y`. -/
def daysBeforeYear (y : ℤ) : ℤ := tally (fun k => yearLength (1970 + k)) (y - 1970).toNat

/-- The days of the months of `y` up to `m`. -/
def daysBeforeMonth (y m : ℤ) : ℤ := tally (fun k => monthLength y (k + 1)) (m - 1).toNat

structure DateTime where
  year : ℤ
  month : ℤ
  day : ℤ
  hour : ℤ
  minute : ℤ
  second : ℤ
  deriving DecidableEq

namespace DateTime

structure Valid (t : DateTime) : Prop where
  month : 1 ≤ t.month ∧ t.month ≤ 12
  day : 1 ≤ t.day ∧ t.day ≤ monthLength t.year t.month
  hour : 0 ≤ t.hour ∧ t.hour < 24
  minute : 0 ≤ t.minute ∧ t.minute < 60
  second : 0 ≤ t.second ∧ t.second < 60

/-- Days since 1970-01-01. -/
def epochDays (t : DateTime) : ℤ :=
  daysBeforeYear t.year + daysBeforeMonth t.year t.month + (t.day - 1)

def secondOfDay (t : DateTime) : ℤ := t.hour * 3600 + t.minute * 60 + t.second

/-- Seconds since 1970-01-01 00:00:00. -/
def epochSeconds (t : DateTime) : ℤ := t.epochDays * 86400 + t.secondOfDay

/-- Chronological order is the order of the fields from the year down. -/
def fields (t : DateTime) : ℤ ×ₗ ℤ ×ₗ ℤ ×ₗ ℤ ×ₗ ℤ ×ₗ ℤ :=
  toLex (t.year, toLex (t.month, toLex (t.day, toLex (t.hour, toLex (t.minute, t.second)))))

end DateTime

theorem isLeapYear_iff {y : ℤ} :
    isLeapYear y = true ↔ y % 4 = 0 ∧ (y % 100 ≠ 0 ∨ y % 400 = 0) :=
  decide_eq_true_iff

theorem yearLength_eq (y : ℤ) : yearLength y =
    365 + (y / 4 - (y - 1) / 4) - (y / 100 - (y - 1) / 100) + (y / 400 - (y - 1) / 400) := by
  rw [yearLength]
  split
  · rename_i h
    rw [isLeapYear_iff] at h
    omega
  · rename_i h
    rw [isLeapYear_iff] at h
    omega

theorem yearLength_nonneg (y : ℤ) : 0 ≤ yearLength y := by
  rw [yearLength]
  split <;> decide

theorem monthLength_nonneg (y m : ℤ) : 0 ≤ monthLength y m := by
  rw [monthLength]
  split_ifs <;> decide

theorem daysBeforeYear_eq {y : ℤ} (h : 1970 ≤ y) : daysBeforeYear y =
    365 * (y - 1970) + (y - 1) / 4 - (y - 1) / 100 + (y - 1) / 400 - 477 := by
  obtain ⟨n, rfl⟩ : ∃ n : ℕ, y = 1970 + n := ⟨(y - 1970).toNat, by omega⟩
  have hn : (1970 + (n : ℤ) - 1970).toNat = n := by omega
  rw [daysBeforeYear, hn]
  clear h hn
  induction n with
  | zero => rfl
  | succ n ih =>
    rw [tally_succ, ih, yearLength_eq]
    push_cast
    omega

theorem daysBeforeMonth_succ (y : ℤ) {m : ℤ} (hm : 1 ≤ m) :
    daysBeforeMonth y (m + 1) = daysBeforeMonth y m + monthLength y m := by
  have hn : (m + 1 - 1).toNat = (m - 1).toNat + 1 := by omega
  have hlast : ((m - 1).toNat : ℤ) + 1 = m := by omega
  rw [daysBeforeMonth, hn, tally_succ, hlast, daysBeforeMonth]

/-- From March on, five months have 153 days. -/
theorem marchMonth_succ {m : ℤ} (hm : 3 ≤ m ∧ m ≤ 11) : (153 * (m + 1 - 3) + 2) / 5 =
    (153 * (m - 3) + 2) / 5 + if m = 4 ∨ m = 6 ∨ m = 9 ∨ m = 11 then 30 else 31 := by
  obtain ⟨hlo, hhi⟩ := hm
  interval_cases m <;> rfl

theorem daysBeforeMonth_eq (y : ℤ) {m : ℤ} (hm : 1 ≤ m ∧ m ≤ 12) : daysBeforeMonth y m =
    if m ≤ 2 then 31 * (m - 1)
    else (if isLeapYear y then 60 else 59) + (153 * (m - 3) + 2) / 5 := by
  obtain ⟨hlo, hhi⟩ := hm
  induction m, hlo using Int.leInduction with
  | base => simp [daysBeforeMonth]
  | succ m hm ih =>
    rw [daysBeforeMonth_succ y hm, ih (by omega), monthLength]
    by_cases hmarch : 3 ≤ m
    · have hbefore : ¬ m ≤ 2 := by omega
      have hafter : ¬ m + 1 ≤ 2 := by omega
      have hnot : ¬ m = 2 := by omega
      rw [marchMonth_succ ⟨hmarch, by omega⟩, if_neg hbefore, if_neg hafter, if_neg hnot, add_assoc]
    · split_ifs <;> omega

/-- The months of a year make up the year. -/
theorem daysBeforeMonth_add_monthLength_le (y : ℤ) {m : ℤ} (hm : 1 ≤ m ∧ m ≤ 12) :
    daysBeforeMonth y m + monthLength y m ≤ yearLength y := by
  rw [daysBeforeMonth_eq y hm, yearLength, monthLength]
  split_ifs <;> omega

theorem daysBeforeMonth_nonneg (y m : ℤ) : 0 ≤ daysBeforeMonth y m := by
  refine List.sum_nonneg fun d hd => ?_
  obtain ⟨k, -, rfl⟩ := List.mem_map.mp hd
  exact monthLength_nonneg y _

namespace DateTime
variable {s t : DateTime}

theorem fields_injective : Function.Injective fields := by
  intro s t h
  cases s
  cases t
  simp only [fields, EmbeddingLike.apply_eq_iff_eq, Prod.mk.injEq] at h
  simp [h]

theorem secondOfDay_bounds (h : t.Valid) : 0 ≤ t.secondOfDay ∧ t.secondOfDay < 86400 := by
  have := h.hour
  have := h.minute
  have := h.second
  rw [secondOfDay]
  omega

theorem epochDays_lt_of_year (hs : s.Valid) (ht : t.Valid) (h₀ : 1970 ≤ s.year)
    (h : s.year < t.year) : s.epochDays < t.epochDays := by
  have hyear := tally_add_le (fun k => yearLength_nonneg (1970 + k))
    (m := (s.year - 1970).toNat) (n := (t.year - 1970).toNat) (by omega)
  have hs₀ : (1970 + ((s.year - 1970).toNat : ℤ)) = s.year := by omega
  have hmonth := daysBeforeMonth_add_monthLength_le s.year hs.month
  have hpos := daysBeforeMonth_nonneg t.year t.month
  have := hs.day
  have := ht.day
  rw [hs₀] at hyear
  rw [epochDays, epochDays, daysBeforeYear, daysBeforeYear]
  omega

theorem epochDays_lt_of_month (hs : s.Valid) (ht : t.Valid) (hyear : s.year = t.year)
    (h : s.month < t.month) : s.epochDays < t.epochDays := by
  have hmonth := tally_add_le (fun k => monthLength_nonneg t.year (k + 1))
    (m := (s.month - 1).toNat) (n := (t.month - 1).toNat) (by have := hs.month; omega)
  have hs₀ : ((s.month - 1).toNat : ℤ) + 1 = s.month := by
    have := hs.month
    omega
  have hsday := hs.day
  have := ht.day
  rw [hyear] at hsday
  rw [hs₀] at hmonth
  rw [epochDays, epochDays, daysBeforeMonth, daysBeforeMonth, hyear]
  omega

/-- Later date-times have larger counts. -/
theorem epochSeconds_lt (hs : s.Valid) (ht : t.Valid) (h₀ : 1970 ≤ s.year)
    (h : s.fields < t.fields) : s.epochSeconds < t.epochSeconds := by
  have := secondOfDay_bounds hs
  have := secondOfDay_bounds ht
  have hdays : s.epochDays < t.epochDays → s.epochSeconds < t.epochSeconds := by
    intro hlt
    rw [epochSeconds, epochSeconds]
    omega
  simp only [fields, Prod.Lex.toLex_lt_toLex] at h
  rcases h with hy | ⟨hy, hm | ⟨hm, hd | ⟨hd, hrest⟩⟩⟩
  · exact hdays (epochDays_lt_of_year hs ht h₀ hy)
  · exact hdays (epochDays_lt_of_month hs ht hy hm)
  · refine hdays ?_
    rw [epochDays, epochDays, hy, hm]
    omega
  · have := hs.minute
    have := ht.minute
    have := hs.second
    have := ht.second
    rw [epochSeconds, epochSeconds, epochDays, epochDays, hy, hm, hd, secondOfDay, secondOfDay]
    omega

end DateTime

/-! ## Eras of 400 years that begin in March -/

/-- A day of the era in its century, four-year block and year. The day after the
last of a year is there only at the end of a block, and of a century only at the end
of the era. -/
structure EraDay (doe c q t u : ℤ) : Prop where
  century : 0 ≤ c ∧ c ≤ 3
  block : 0 ≤ q ∧ q ≤ 24
  year : 0 ≤ t ∧ t ≤ 3
  day : 0 ≤ u ∧ (u < 365 ∨ t = 3 ∧ u = 365 ∧ (q < 24 ∨ c = 3))
  eq : doe = 36524 * c + 1461 * q + 365 * t + u

theorem exists_eraDay {doe : ℤ} (h₀ : 0 ≤ doe) (h : doe < 146097) :
    ∃ c q t u, EraDay doe c q t u := by
  by_cases hlast : doe = 146096
  · exact ⟨3, 24, 3, 365, by omega, by omega, by omega, by omega, by omega⟩
  · obtain ⟨c, r, hc, hr, hr', rfl⟩ : ∃ c r, (0 ≤ c ∧ c ≤ 3) ∧ 0 ≤ r ∧ r < 36524 ∧
        doe = 36524 * c + r := ⟨doe / 36524, doe % 36524, by omega⟩
    by_cases hleap : r % 1461 = 1460
    · exact ⟨c, r / 1461, 3, 365, hc, by omega, by omega, by omega, by omega⟩
    · exact ⟨c, r / 1461, r % 1461 / 365, r % 1461 % 365, hc, by omega, by omega, by omega,
        by omega⟩

namespace EraDay
variable {doe c q t u : ℤ} (h : EraDay doe c q t u)
include h

/-- The year of the era, with the leap days taken out before dividing. -/
theorem yearOfEra :
    (doe - doe / 1460 + doe / 36524 - doe / 146096) / 365 = 100 * c + 4 * q + t := by
  obtain ⟨hc, hq, ht, hu, rfl⟩ := h
  have hblock : (36524 * c + 1461 * q + 365 * t + u) / 1460 =
      25 * c + q + (24 * c + q + 365 * t + u) / 1460 := by omega
  generalize hdoe : 36524 * c + 1461 * q + 365 * t + u = doe at *
  by_cases hlast : doe = 146096
  · omega
  · have hcentury : doe / 36524 = c := by omega
    have hera : doe / 146096 = 0 := by omega
    omega

theorem bounds : 0 ≤ doe ∧ doe < 146097 := by
  obtain ⟨hc, hq, ht, hu, rfl⟩ := h
  omega

/-- What is left of the day when the years before it are taken away. -/
theorem dayOfYear : doe - (365 * (100 * c + 4 * q + t) + (100 * c + 4 * q + t) / 4 -
    (100 * c + 4 * q + t) / 100) = u := by
  have hfour : (100 * c + 4 * q + t) / 4 = 25 * c + q := by
    have := h.year
    omega
  have hhundred : (100 * c + 4 * q + t) / 100 = c := by
    have := h.block
    have := h.year
    omega
  rw [hfour, hhundred, h.eq]
  ring

/-- The days of an era before its year, the leap days among them. -/
theorem daysOfYears (era : ℤ) {y : ℤ} (hy : y = 100 * c + 4 * q + t + era * 400) :
    365 * y + y / 4 - y / 100 + y / 400 + u = era * 146097 + doe := by
  have hcentury := h.century
  have hblock := h.block
  have hyear := h.year
  have hfour : y / 4 = 25 * c + q + 100 * era := by omega
  have hhundred : y / 100 = c + 4 * era := by omega
  have hera : y / 400 = era := by omega
  rw [hfour, hhundred, hera, hy, h.eq]
  ring

/-- A leap day at the end makes the calendar year in which it falls a leap year. -/
theorem leap (hu : u = 365) {y era : ℤ} (hy : y = 100 * c + 4 * q + t + era * 400) :
    isLeapYear (y + 1) = true := by
  obtain ⟨hc, hq, ht, hday, -⟩ := h
  rw [isLeapYear_iff]
  omega

end EraDay

/-- From January to the end of February. -/
theorem daysBeforeYear_add {y : ℤ} (h : 1970 ≤ y) :
    daysBeforeYear y + (if isLeapYear y then 60 else 59) =
      365 * (y - 1970) + y / 4 - y / 100 + y / 400 - 418 := by
  have hlength := yearLength_eq y
  rw [yearLength] at hlength
  rw [daysBeforeYear_eq h]
  split at hlength
  · rw [if_pos (by assumption)]
    linarith
  · rw [if_neg (by assumption)]
    linarith

end Pmd.Foundation
