import Dsl41.Runner.Record

/-!
# Instants of a watch

A clock's instants: what the log writes of one reads back as it. The next poll is a number of
seconds after the last.
-/

namespace Dsl41.Watch

open Infra Infra.Json Canon Runner

/-! ## The calendar -/

def isLeap (year : Nat) : Bool := year % 4 = 0 ∧ (year % 100 ≠ 0 ∨ year % 400 = 0)

def daysBeforeMonth (year month : Nat) : Nat :=
  [0, 31, 59, 90, 120, 151, 181, 212, 243, 273, 304, 334].getD (month - 1) 0 +
    if 2 < month ∧ isLeap year then 1 else 0

/-- The days from the first of January of year 1, which is day 1. -/
def toordinal (d : DateTime) : Int :=
  let y := d.year - 1
  y * 365 + y / 4 - y / 100 + y / 400 + daysBeforeMonth d.year d.month + d.day

/-- The year, month and day of an ordinal. -/
def fromordinal (ordinal : Int) : Nat × Nat × Nat :=
  let n := (ordinal - 1).toNat
  let (n400, n) := (n / 146097, n % 146097)
  let (n100, n) := (n / 36524, n % 36524)
  let (n4, n) := (n / 1461, n % 1461)
  let (n1, n) := (n / 365, n % 365)
  let year := n400 * 400 + 1 + n100 * 100 + n4 * 4 + n1
  if n1 = 4 ∨ n100 = 4 then (year - 1, 12, 31)
  else
    let month := (n + 50) / 32
    let month := if n < daysBeforeMonth year month then month - 1 else month
    (year, month, n - daysBeforeMonth year month + 1)

/-- An instant some seconds later. -/
def plusSeconds (d : DateTime) (seconds : Int) : DateTime :=
  let total := toordinal d * 86400 + (d.hour * 3600 + d.minute * 60 + d.second : Nat) + seconds
  let (year, month, day) := fromordinal (total / 86400)
  let rest := (total % 86400).toNat
  { year, month, day, hour := rest / 3600, minute := rest / 60 % 60, second := rest % 60,
    microsecond := d.microsecond }

example : plusSeconds ⟨2024, 2, 28, 23, 59, 30, 7⟩ 90 = ⟨2024, 2, 29, 0, 1, 0, 7⟩ := by decide

/-! ## Texts -/

/-- The fields have the widths of their texts. -/
structure Written (d : DateTime) : Prop where
  year : d.year < 10 ^ 4
  month : d.month < 10 ^ 2
  day : d.day < 10 ^ 2
  hour : d.hour < 10 ^ 2
  minute : d.minute < 10 ^ 2
  second : d.second < 10 ^ 2
  microsecond : d.microsecond < 10 ^ 6

/-- An instant a clock shows. -/
abbrev Moment := { d : DateTime // Written d }

theorem length_pad {width n : Nat} (hn : n < 10 ^ width) (hw : 0 < width) : (pad width n).length = width := by
  have hlen := (Nat.length_toDigits_le_iff (b := 10) (n := n) (by decide) hw).mpr hn
  rw [pad, List.leftpad, List.length_append, List.length_replicate]
  exact Nat.sub_add_cancel hlen

theorem field_pad {width n : Nat} : field (pad width n) = some n := by
  have hdigits : (pad width n).all Char.isDigit = true := by
    rw [List.all_eq_true]
    intro c hc
    rcases List.mem_append.mp hc with hc | hc
    · rw [(List.mem_replicate.mp hc).2]
      rfl
    · exact Nat.isDigit_of_mem_toDigits (by decide) (by decide) hc
  have hvalue : Nat.ofDigitChars 10 (pad width n) 0 = n := by
    rw [pad, List.leftpad, Nat.ofDigitChars_append, Nat.ofDigitChars_replicate_zero, Nat.mul_zero]
    exact Nat.ofDigitChars_ten_toDigits
  rw [field, if_pos hdigits, hvalue]

theorem exists_two {l : List Char} (h : l.length = 2) : ∃ a b, l = [a, b] := List.length_eq_two.mp h

theorem exists_four {l : List Char} (h : l.length = 4) : ∃ a b c d, l = [a, b, c, d] := by
  obtain ⟨a, l, rfl⟩ := List.exists_cons_of_length_eq_add_one h
  obtain ⟨b, c, d, rfl⟩ := List.length_eq_three.mp (Nat.succ.inj h)
  exact ⟨a, b, c, d, rfl⟩

theorem exists_six {l : List Char} (h : l.length = 6) : ∃ a b c d e f, l = [a, b, c, d, e, f] := by
  obtain ⟨a, l, rfl⟩ := List.exists_cons_of_length_eq_add_one h
  obtain ⟨b, l, rfl⟩ := List.exists_cons_of_length_eq_add_one (Nat.succ.inj h)
  obtain ⟨c, d, e, f, rfl⟩ := exists_four (Nat.succ.inj (Nat.succ.inj h))
  exact ⟨a, b, c, d, e, f, rfl⟩

/-- An instant's text reads back as the instant. -/
theorem unstamp_isoformat (d : Moment) : unstamp d.1.isoformat = .ok d.1 := by
  obtain ⟨d, hyear, hmonth, hday, hhour, hminute, hsecond, hmicro⟩ := d
  obtain ⟨y₁, y₂, y₃, y₄, hy⟩ := exists_four (length_pad hyear (by decide))
  obtain ⟨m₁, m₂, hm⟩ := exists_two (length_pad hmonth (by decide))
  obtain ⟨d₁, d₂, hd⟩ := exists_two (length_pad hday (by decide))
  obtain ⟨h₁, h₂, hh⟩ := exists_two (length_pad hhour (by decide))
  obtain ⟨n₁, n₂, hn⟩ := exists_two (length_pad hminute (by decide))
  obtain ⟨s₁, s₂, hs⟩ := exists_two (length_pad hsecond (by decide))
  obtain ⟨u₁, u₂, u₃, u₄, u₅, u₆, hu⟩ := exists_six (length_pad hmicro (by decide))
  have hfields : ∀ {width n : Nat} {l : List Char}, pad width n = l → field l = some n := by
    rintro width n _ rfl
    exact field_pad
  simp only [DateTime.isoformat, hy, hm, hd, hh, hn, hs, hu]
  simp only [List.cons_append, List.nil_append, unstamp, hfields hy, hfields hm, hfields hd, hfields hh,
    hfields hn, hfields hs, hfields hu]

end Dsl41.Watch
