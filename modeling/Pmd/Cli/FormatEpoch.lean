import Pmd.Foundation.Calendar
import Mathlib.Data.Nat.Digits.Lemmas

/-!
# Printing timestamps

`format_epoch` turns seconds since the epoch into a UTC date-time. Every sum,
difference and product of the source is checked against its machine type, so a
result is only computed if nothing overflows.
-/
namespace Pmd
open Foundation

/-- A `u64` result; `none` stands for an overflow. -/
def u64 (n : ℤ) : Option ℤ := if 0 ≤ n ∧ n < 18446744073709551616 then some n else none

/-- An `i64` result. -/
def i64 (n : ℤ) : Option ℤ :=
  if -9223372036854775808 ≤ n ∧ n < 9223372036854775808 then some n else none

/-- The cast `as i64` of a `u64`, which wraps. -/
def asI64 (n : ℤ) : ℤ := n.bmod 18446744073709551616

/-- The cast `as u64` of an `i64`, which wraps. -/
def asU64 (n : ℤ) : ℤ := n % 18446744073709551616

/-- The fields `format_epoch` prints. `div_euclid` and `rem_euclid` by a positive
number are the integer division and remainder. -/
def civilDateTime (epoch : UInt64) : Option DateTime := do
  let secs : ℤ := epoch.toNat
  let daysSinceEpoch := secs / 86400
  let timeOfDay := secs % 86400
  let hours := timeOfDay / 3600
  let minutes := timeOfDay % 3600 / 60
  let seconds := timeOfDay % 60
  let z ← i64 (asI64 daysSinceEpoch + 719468)
  let era := z / 146097
  let doe := asU64 (z % 146097)
  let yoe := (← u64 ((← u64 ((← u64 (doe - doe / 1460)) + doe / 36524)) - doe / 146096)) / 365
  let y ← i64 (asI64 yoe + (← i64 (era * 400)))
  let doy ← u64 (doe - (← u64 ((← u64 ((← u64 (365 * yoe)) + yoe / 4)) - yoe / 100)))
  let mp := (← u64 ((← u64 (5 * doy)) + 2)) / 153
  let d ← u64 ((← u64 (doy - (← u64 ((← u64 (153 * mp)) + 2)) / 5)) + 1)
  let m ← u64 (if mp < 10 then mp + 3 else mp - 9)
  let y ← i64 (if m ≤ 2 then y + 1 else y)
  return ⟨y, m, d, hours, minutes, seconds⟩

/-- Decimal digits behind zeros up to the width; a sign counts for the width. -/
def zeroPadded (width : ℕ) (n : ℤ) : List Char :=
  let sign := if n < 0 then ['-'] else []
  let digits := Nat.toDigits 10 n.natAbs
  sign ++ (List.replicate (width - sign.length - digits.length) '0' ++ digits)

def printDateTime (t : DateTime) : String :=
  .ofList (zeroPadded 4 t.year ++ '-' :: (zeroPadded 2 t.month ++ '-' :: (zeroPadded 2 t.day ++
    ' ' :: (zeroPadded 2 t.hour ++ ':' :: (zeroPadded 2 t.minute ++ ':' ::
      (zeroPadded 2 t.second ++ ['Z']))))))

def formatEpoch (epoch : UInt64) : Option String := (civilDateTime epoch).map printDateTime

theorem u64_of_bounds {n : ℤ} (h₀ : 0 ≤ n) (h : n < 18446744073709551616) : u64 n = some n :=
  if_pos ⟨h₀, h⟩

theorem i64_of_bounds {n : ℤ} (h₀ : -9223372036854775808 ≤ n) (h : n < 9223372036854775808) :
    i64 n = some n :=
  if_pos ⟨h₀, h⟩

theorem asI64_of_bounds {n : ℤ} (h₀ : 0 ≤ n) (h : n < 9223372036854775808) : asI64 n = n := by
  rw [asI64, Int.bmod_def]
  omega

theorem asU64_of_bounds {n : ℤ} (h₀ : 0 ≤ n) (h : n < 18446744073709551616) : asU64 n = n := by
  rw [asU64]
  omega

/-! ## No check fails -/

section Checks

theorem check_yearOfEra {doe : ℤ} (h : 0 ≤ doe ∧ doe < 146097) :
    u64 (doe - doe / 1460) = some (doe - doe / 1460) ∧
      u64 (doe - doe / 1460 + doe / 36524) = some (doe - doe / 1460 + doe / 36524) ∧
      u64 (doe - doe / 1460 + doe / 36524 - doe / 146096) =
        some (doe - doe / 1460 + doe / 36524 - doe / 146096) :=
  ⟨u64_of_bounds (by omega) (by omega), u64_of_bounds (by omega) (by omega),
    u64_of_bounds (by omega) (by omega)⟩

theorem check_daysOfYears {yoe : ℤ} (h : 0 ≤ yoe ∧ yoe < 400) :
    u64 (365 * yoe) = some (365 * yoe) ∧
      u64 (365 * yoe + yoe / 4) = some (365 * yoe + yoe / 4) ∧
      u64 (365 * yoe + yoe / 4 - yoe / 100) = some (365 * yoe + yoe / 4 - yoe / 100) :=
  ⟨u64_of_bounds (by omega) (by omega), u64_of_bounds (by omega) (by omega),
    u64_of_bounds (by omega) (by omega)⟩

theorem check_month {doy : ℤ} (h : 0 ≤ doy ∧ doy ≤ 365) :
    u64 (5 * doy) = some (5 * doy) ∧ u64 (5 * doy + 2) = some (5 * doy + 2) :=
  ⟨u64_of_bounds (by omega) (by omega), u64_of_bounds (by omega) (by omega)⟩

theorem check_day {doy mp : ℤ} (h : 0 ≤ doy ∧ doy ≤ 365) (hmp : (5 * doy + 2) / 153 = mp) :
    u64 (153 * mp) = some (153 * mp) ∧ u64 (153 * mp + 2) = some (153 * mp + 2) ∧
      u64 (doy - (153 * mp + 2) / 5) = some (doy - (153 * mp + 2) / 5) ∧
      u64 (doy - (153 * mp + 2) / 5 + 1) = some (doy - (153 * mp + 2) / 5 + 1) ∧
      u64 (if mp < 10 then mp + 3 else mp - 9) = some (if mp < 10 then mp + 3 else mp - 9) :=
  ⟨u64_of_bounds (by omega) (by omega), u64_of_bounds (by omega) (by omega),
    u64_of_bounds (by omega) (by omega), u64_of_bounds (by omega) (by omega),
    u64_of_bounds (by omega) (by omega)⟩

end Checks

/-- The date of day `doy` of the year that begins in March of year `y`. -/
def marchDate (y doy : ℤ) : ℤ × ℤ × ℤ :=
  let mp := (5 * doy + 2) / 153
  let m := if mp < 10 then mp + 3 else mp - 9
  (if m ≤ 2 then y + 1 else y, m, doy - (153 * mp + 2) / 5 + 1)

theorem civilDateTime_eq {epoch : UInt64} {era c q t u : ℤ}
    (hera : ((epoch.toNat : ℤ) / 86400 + 719468) / 146097 = era)
    (h : EraDay (((epoch.toNat : ℤ) / 86400 + 719468) % 146097) c q t u) :
    civilDateTime epoch =
      let date := marchDate (100 * c + 4 * q + t + era * 400) u
      some ⟨date.1, date.2.1, date.2.2, (epoch.toNat : ℤ) % 86400 / 3600,
        (epoch.toNat : ℤ) % 86400 % 3600 / 60, (epoch.toNat : ℤ) % 86400 % 60⟩ := by
  have hepoch : (epoch.toNat : ℤ) < 18446744073709551616 := by
    exact_mod_cast epoch.toNat_lt
  have hepoch₀ : 0 ≤ (epoch.toNat : ℤ) := Int.natCast_nonneg _
  generalize hsecs : (epoch.toNat : ℤ) = secs at *
  have hz : i64 (asI64 (secs / 86400) + 719468) = some (secs / 86400 + 719468) := by
    rw [asI64_of_bounds (by omega) (by omega)]
    exact i64_of_bounds (by omega) (by omega)
  have heras : 0 ≤ era ∧ era < 1000000000000 := by omega
  have hdoe : asU64 ((secs / 86400 + 719468) % 146097) = (secs / 86400 + 719468) % 146097 :=
    asU64_of_bounds (by omega) (by omega)
  generalize hgen : (secs / 86400 + 719468) % 146097 = doe at *
  have hyoe : 0 ≤ 100 * c + 4 * q + t ∧ 100 * c + 4 * q + t < 400 := by
    have := h.century
    have := h.block
    have := h.year
    omega
  have hdoy : 0 ≤ u ∧ u ≤ 365 := by
    have := h.day
    omega
  obtain ⟨hy₁, hy₂, hy₃⟩ := check_yearOfEra h.bounds
  obtain ⟨hd₁, hd₂, hd₃⟩ := check_daysOfYears hyoe
  obtain ⟨hm₁, hm₂⟩ := check_month hdoy
  obtain ⟨hp₁, hp₂, hp₃, hp₄, hp₅⟩ := check_day hdoy rfl
  have hday : u64 u = some u := u64_of_bounds (by omega) (by omega)
  have hyear : ∀ y, 0 ≤ y ∧ y < 1000000000000000 → i64 y = some y := fun y hy =>
    i64_of_bounds (by omega) (by omega)
  unfold civilDateTime
  rw [hsecs]
  refine Option.bind_eq_some_iff.mpr ⟨_, hz, ?_⟩
  dsimp only
  rw [hgen, hdoe, hera]
  refine Option.bind_eq_some_iff.mpr ⟨_, hy₁, ?_⟩
  refine Option.bind_eq_some_iff.mpr ⟨_, hy₂, ?_⟩
  refine Option.bind_eq_some_iff.mpr ⟨_, hy₃, ?_⟩
  rw [h.yearOfEra, asI64_of_bounds hyoe.1 (hyoe.2.trans (by decide))]
  refine Option.bind_eq_some_iff.mpr ⟨_, hyear (era * 400) (by omega), ?_⟩
  refine Option.bind_eq_some_iff.mpr ⟨_, hyear _ (by omega), ?_⟩
  refine Option.bind_eq_some_iff.mpr ⟨_, hd₁, ?_⟩
  refine Option.bind_eq_some_iff.mpr ⟨_, hd₂, ?_⟩
  refine Option.bind_eq_some_iff.mpr ⟨_, hd₃, ?_⟩
  rw [h.dayOfYear]
  refine Option.bind_eq_some_iff.mpr ⟨_, hday, ?_⟩
  refine Option.bind_eq_some_iff.mpr ⟨_, hm₁, ?_⟩
  refine Option.bind_eq_some_iff.mpr ⟨_, hm₂, ?_⟩
  refine Option.bind_eq_some_iff.mpr ⟨_, hp₁, ?_⟩
  refine Option.bind_eq_some_iff.mpr ⟨_, hp₂, ?_⟩
  refine Option.bind_eq_some_iff.mpr ⟨_, hp₃, ?_⟩
  refine Option.bind_eq_some_iff.mpr ⟨_, hp₄, ?_⟩
  refine Option.bind_eq_some_iff.mpr ⟨_, hp₅, ?_⟩
  refine Option.bind_eq_some_iff.mpr ⟨_, hyear _ (by omega), ?_⟩
  rfl

/-- Day `doy` of the March year of `y` is a valid date, and counting days leads back
to it. -/
theorem marchDate_valid {y doy days : ℤ} (hdoy : 0 ≤ doy ∧ doy ≤ 365)
    (hleap : doy = 365 → isLeapYear (y + 1) = true)
    (hdays : 365 * y + y / 4 - y / 100 + y / 400 + doy = days + 719468) (hpos : 0 ≤ days) :
    let date := marchDate y doy
    1970 ≤ date.1 ∧ (1 ≤ date.2.1 ∧ date.2.1 ≤ 12) ∧
      (1 ≤ date.2.2 ∧ date.2.2 ≤ monthLength date.1 date.2.1) ∧
      daysBeforeYear date.1 + daysBeforeMonth date.1 date.2.1 + (date.2.2 - 1) = days := by
  have hmp : 0 ≤ (5 * doy + 2) / 153 ∧ (5 * doy + 2) / 153 ≤ 11 := by omega
  dsimp only [marchDate]
  by_cases hspring : (5 * doy + 2) / 153 < 10
  · -- March to December: the calendar year is `y`.
    have hy : 1970 ≤ y := by omega
    have hm : ¬ (5 * doy + 2) / 153 + 3 ≤ 2 := by omega
    have hyear := daysBeforeYear_add hy
    rw [if_pos hspring, if_neg hm, daysBeforeMonth_eq _ ⟨by omega, by omega⟩, if_neg hm]
    generalize hgen : (5 * doy + 2) / 153 = mp at *
    refine ⟨hy, ⟨by omega, by omega⟩, ⟨by omega, ?_⟩, ?_⟩
    · rw [monthLength, if_neg (by omega)]
      split <;> omega
    · rw [add_sub_cancel_right]
      omega
  · have hm : (5 * doy + 2) / 153 - 9 ≤ 2 := by omega
    have hy : 1970 ≤ y + 1 := by omega
    rw [if_neg hspring, if_pos hm, daysBeforeMonth_eq _ ⟨by omega, by omega⟩, if_pos hm,
      daysBeforeYear_eq hy, add_sub_cancel_right]
    generalize hgen : (5 * doy + 2) / 153 = mp at *
    refine ⟨hy, ⟨by omega, by omega⟩, ⟨by omega, ?_⟩, by omega⟩
    by_cases hlast : doy = 365
    · rw [monthLength, if_pos (by omega), hleap hlast, if_pos rfl]
      omega
    · rw [monthLength]
      split_ifs <;> omega

/-- The conversion never fails, gives a valid date-time and is undone by counting
seconds. -/
theorem civilDateTime_spec (epoch : UInt64) : ∃ t, civilDateTime epoch = some t ∧
    1970 ≤ t.year ∧ t.Valid ∧ t.epochSeconds = epoch.toNat := by
  have hepoch : 0 ≤ (epoch.toNat : ℤ) := Int.natCast_nonneg _
  have hera : ∃ c q t u, EraDay (((epoch.toNat : ℤ) / 86400 + 719468) % 146097) c q t u :=
    exists_eraDay (by omega) (by omega)
  obtain ⟨c, q, t, u, h⟩ := hera
  have hciv := civilDateTime_eq rfl h
  have hdays := h.daysOfYears (((epoch.toNat : ℤ) / 86400 + 719468) / 146097) rfl
  have hdoy : 0 ≤ u ∧ u ≤ 365 := by
    have := h.day
    omega
  rw [Int.ediv_mul_add_emod] at hdays
  obtain ⟨hyear, hmonth, hday, hcount⟩ :=
    marchDate_valid hdoy (fun hu => h.leap hu rfl) hdays (by omega)
  refine ⟨_, hciv, hyear, ⟨hmonth, hday, by dsimp only; omega, by dsimp only; omega,
    by dsimp only; omega⟩, ?_⟩
  rw [DateTime.epochSeconds, DateTime.epochDays, hcount, DateTime.secondOfDay]
  dsimp only
  omega

theorem zeroPadded_isDigit {width : ℕ} {n : ℤ} (h : 0 ≤ n) :
    ∀ c ∈ zeroPadded width n, c.isDigit := by
  intro c hc
  rw [zeroPadded, if_neg (by omega)] at hc
  simp only [List.nil_append, List.mem_append, List.mem_replicate] at hc
  rcases hc with ⟨-, rfl⟩ | hc
  · rfl
  · exact Nat.isDigit_of_mem_toDigits (by decide) (by decide) hc

theorem zeroPadded_inj {width : ℕ} {n n' : ℤ} (h : 0 ≤ n) (h' : 0 ≤ n')
    (heq : zeroPadded width n = zeroPadded width n') : n = n' := by
  have hread : ∀ {n : ℤ}, 0 ≤ n → Nat.ofDigitChars 10 (zeroPadded width n) 0 = n.natAbs := by
    intro n hn
    rw [zeroPadded, if_neg (by omega)]
    simp [Nat.ofDigitChars_append, Nat.ofDigitChars_replicate_zero]
  have := hread h
  rw [heq, hread h'] at this
  omega

/-- Two numbers in front of a separator are told apart by the text. -/
theorem zeroPadded_append_inj {width : ℕ} {n n' : ℤ} {sep : Char} {rest rest' : List Char}
    (h : 0 ≤ n) (h' : 0 ≤ n') (hsep : sep.isDigit = false)
    (heq : zeroPadded width n ++ sep :: rest = zeroPadded width n' ++ sep :: rest') :
    n = n' ∧ rest = rest' := by
  have hnot : ∀ {n : ℤ}, 0 ≤ n → sep ∉ zeroPadded width n := by
    intro n hn hmem
    rw [zeroPadded_isDigit hn sep hmem] at hsep
    cases hsep
  have htake : ∀ (n : ℤ) (rest : List Char), 0 ≤ n →
      (zeroPadded width n ++ sep :: rest).takeWhile (· ≠ sep) = zeroPadded width n := by
    intro n rest hn
    rw [List.takeWhile_append_of_pos fun c hc => by
      simpa using ne_of_mem_of_not_mem hc (hnot hn)]
    simp
  have hfield : zeroPadded width n = zeroPadded width n' := by
    rw [← htake n rest h, heq, htake n' rest' h']
  rw [hfield, List.append_cancel_left_eq, List.cons.injEq] at heq
  exact ⟨zeroPadded_inj h h' hfield, heq.2⟩

theorem printDateTime_inj {t t' : DateTime} (ht : t.Valid) (ht' : t'.Valid)
    (hy : 0 ≤ t.year) (hy' : 0 ≤ t'.year) (h : printDateTime t = printDateTime t') : t = t' := by
  obtain ⟨hm, hd, hh, hmi, hs⟩ := ht
  obtain ⟨hm', hd', hh', hmi', hs'⟩ := ht'
  have h := String.ofList_injective h
  obtain ⟨h₁, h⟩ := zeroPadded_append_inj hy hy' rfl h
  obtain ⟨h₂, h⟩ := zeroPadded_append_inj (by omega) (by omega) rfl h
  obtain ⟨h₃, h⟩ := zeroPadded_append_inj (by omega) (by omega) rfl h
  obtain ⟨h₄, h⟩ := zeroPadded_append_inj hh.1 hh'.1 rfl h
  obtain ⟨h₅, h⟩ := zeroPadded_append_inj hmi.1 hmi'.1 rfl h
  obtain ⟨h₆, -⟩ := zeroPadded_append_inj hs.1 hs'.1 rfl h
  cases t
  cases t'
  simp_all

/-- `format_epoch` is a correct calendar conversion: for every timestamp nothing
overflows, the date-time is valid and as many seconds after 1970-01-01 00:00:00 as the
timestamp says; so later timestamps give later date-times, and no two the same text. -/
theorem formatEpoch_correct : ∃ date : UInt64 → DateTime,
    (∀ epoch, civilDateTime epoch = some (date epoch) ∧
      formatEpoch epoch = some (printDateTime (date epoch)) ∧ 1970 ≤ (date epoch).year ∧
      (date epoch).Valid ∧ (date epoch).epochSeconds = epoch.toNat) ∧
    (∀ e e', e.toNat < e'.toNat ↔ (date e).fields < (date e').fields) ∧
    Function.Injective formatEpoch := by
  choose date hdate hyear hvalid hcount using civilDateTime_spec
  have hformat : ∀ epoch, formatEpoch epoch = some (printDateTime (date epoch)) := by
    intro epoch
    rw [formatEpoch, hdate]
    rfl
  have hmono : ∀ e e', (date e).fields < (date e').fields → e.toNat < e'.toNat := by
    intro e e' hlt
    have := DateTime.epochSeconds_lt (hvalid e) (hvalid e') (hyear e) hlt
    rw [hcount, hcount] at this
    exact_mod_cast this
  have hinj : ∀ e e', date e = date e' → e = e' := by
    intro e e' heq
    have := hcount e
    rw [heq, hcount] at this
    exact UInt64.toNat_inj.mp (by exact_mod_cast this.symm)
  refine ⟨date, fun epoch => ⟨hdate epoch, hformat epoch, hyear epoch, hvalid epoch, hcount epoch⟩,
    fun e e' => ⟨fun hlt => ?_, hmono e e'⟩, fun e e' heq => ?_⟩
  · rcases lt_trichotomy (date e).fields (date e').fields with h | h | h
    · exact h
    · have hfields : date e = date e' := DateTime.fields_injective h
      rw [hinj e e' hfields] at hlt
      exact absurd hlt (lt_irrefl _)
    · exact absurd (hmono e' e h) (not_lt.mpr hlt.le)
  · rw [hformat, hformat, Option.some.injEq] at heq
    have hpos : ∀ epoch, 0 ≤ (date epoch).year := fun epoch => le_trans (by decide) (hyear epoch)
    exact hinj e e' (printDateTime_inj (hvalid e) (hvalid e') (hpos e) (hpos e') heq)

example : formatEpoch 951782400 = some "2000-02-29 00:00:00Z" := by decide +kernel

end Pmd
