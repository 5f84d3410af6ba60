import Mathlib

/-! The Gregorian calendar: how long the months are, how many days lie between two dates, and that
no two dates are as many days from the first of January 1970. -/
namespace Xv6.Calendar

open Finset

variable {y m m' d d' : ℤ}

def Leap (y : ℤ) : Prop := y % 4 = 0 ∧ (y % 100 ≠ 0 ∨ y % 400 = 0)

instance (y : ℤ) : Decidable (Leap y) :=
  inferInstanceAs (Decidable (y % 4 = 0 ∧ (y % 100 ≠ 0 ∨ y % 400 = 0)))

def leapDay (y : ℤ) : ℤ := if Leap y then 1 else 0

def monthDays (y m : ℤ) : ℤ :=
  if m = 2 then 28 + leapDay y
  else if m = 4 ∨ m = 6 ∨ m = 9 ∨ m = 11 then 30
  else 31

noncomputable def yearDays (y : ℤ) : ℤ := ∑ m ∈ Icc 1 12, monthDays y m

noncomputable def daysToYear (y : ℤ) : ℤ := ∑ i ∈ Ico 1970 y, yearDays i - ∑ i ∈ Ico y 1970, yearDays i

noncomputable def daysToMonth (y m : ℤ) : ℤ := ∑ i ∈ Ico 1 m, monthDays y i

noncomputable def dayNumber (y m d : ℤ) : ℤ := daysToYear y + daysToMonth y m + (d - 1)

structure ValidDate (y m d : ℤ) : Prop where
  month : 1 ≤ m ∧ m ≤ 12
  day : 1 ≤ d ∧ d ≤ monthDays y m

theorem leapDay_cases (y : ℤ) :
    (leapDay y = 1 ∧ y % 4 = 0 ∧ (y % 100 ≠ 0 ∨ y % 400 = 0)) ∨
      (leapDay y = 0 ∧ (y % 4 ≠ 0 ∨ y % 100 = 0 ∧ y % 400 ≠ 0)) := by
  by_cases h : Leap y
  · exact .inl ⟨if_pos h, h⟩
  · refine .inr ⟨if_neg h, ?_⟩
    unfold Leap at h
    omega

lemma yearDays_eq (y : ℤ) : yearDays y = 365 + leapDay y := by
  have hmonths : Icc (1 : ℤ) 12 = {1, 2, 3, 4, 5, 6, 7, 8, 9, 10, 11, 12} := by decide
  unfold yearDays
  rw [hmonths]
  simp [monthDays]
  ring

lemma daysToYear_succ (y : ℤ) : daysToYear (y + 1) = daysToYear y + yearDays y := by
  unfold daysToYear
  rcases lt_or_ge y 1970 with h | h
  · rw [Ico_eq_empty_of_le (show y ≤ 1970 by omega), Ico_eq_empty_of_le (show y + 1 ≤ 1970 by omega),
      ← insert_Ico_add_one_left_eq_Ico h, sum_insert (by simp)]
    ring
  · rw [Ico_eq_empty_of_le (a := y) h, Ico_eq_empty_of_le (a := y + 1) (by omega),
      ← insert_Ico_right_eq_Ico_add_one h, sum_insert (by simp)]
    ring

lemma daysToMonth_succ (y : ℤ) (hm : 1 ≤ m) :
    daysToMonth y (m + 1) = daysToMonth y m + monthDays y m := by
  unfold daysToMonth
  rw [← insert_Ico_right_eq_Ico_add_one hm, sum_insert (by simp), add_comm]

theorem leapDay_eq (y : ℤ) :
    leapDay y = (y / 4 - (y - 1) / 4) - (y / 100 - (y - 1) / 100) + (y / 400 - (y - 1) / 400) := by
  have h4 : y / 4 - (y - 1) / 4 = if y % 4 = 0 then 1 else 0 := by
    split_ifs <;> omega
  have h100 : y / 100 - (y - 1) / 100 = if y % 100 = 0 then 1 else 0 := by
    split_ifs <;> omega
  have h400 : y / 400 - (y - 1) / 400 = if y % 400 = 0 then 1 else 0 := by
    split_ifs <;> omega
  rw [h400]
  clear h4 h100 h400
  obtain ⟨hl, h⟩ | ⟨hl, h⟩ := leapDay_cases y
  · split_ifs <;> omega
  · split_ifs <;> omega

theorem daysToYear_eq (y : ℤ) :
    daysToYear y = 365 * y + (y - 1) / 4 - (y - 1) / 100 + (y - 1) / 400 - 719527 := by
  have hstep : ∀ k, daysToYear (k + 1) = daysToYear k + 365 + leapDay k := by
    intro k
    rw [daysToYear_succ, yearDays_eq, add_assoc]
  induction y using Int.inductionOn' (b := 1970) with
  | zero => rfl
  | succ k _ ih =>
    rw [hstep, ih, leapDay_eq, add_sub_cancel_right]
    ring
  | pred k _ ih =>
    have hs := hstep (k - 1)
    rw [sub_add_cancel, leapDay_eq] at hs
    linarith

theorem daysToMonth_eq (y : ℤ) (hm : 1 ≤ m ∧ m ≤ 13) :
    daysToMonth y m =
      if m ≤ 2 then 31 * (m - 1) else 59 + leapDay y + (153 * (m - 3) + 2) / 5 := by
  obtain ⟨h1, h13⟩ := hm
  induction m, h1 using Int.leInduction with
  | base => simp [daysToMonth]
  | succ k hk ih =>
    rw [daysToMonth_succ y hk]
    have h12 : k ≤ 12 := by omega
    interval_cases k <;> simp [monthDays] <;> omega

lemma daysToYear_strictMono : StrictMono daysToYear := by
  refine strictMono_int_of_lt_succ fun y => ?_
  rw [daysToYear_succ, yearDays_eq]
  have := leapDay_cases y
  omega

lemma daysToMonth_mono (hle : m ≤ m') : daysToMonth y m ≤ daysToMonth y m' := by
  have hpos : ∀ i, 0 ≤ monthDays y i := by
    intro i
    have := leapDay_cases y
    unfold monthDays
    split_ifs <;> omega
  exact sum_le_sum_of_subset_of_nonneg (Ico_subset_Ico_right hle) fun i _ _ => hpos i

lemma ValidDate.lt_month (h : ValidDate y m d) :
    dayNumber y m d < daysToYear y + daysToMonth y (m + 1) := by
  rw [daysToMonth_succ y h.month.1]
  unfold dayNumber
  have := h.day.2
  omega

lemma ValidDate.lt_year (h : ValidDate y m d) : dayNumber y m d < daysToYear (y + 1) := by
  refine h.lt_month.trans_le ?_
  have hmono : daysToMonth y (m + 1) ≤ daysToMonth y 13 :=
    daysToMonth_mono (by linarith [h.month.2])
  have hyear : daysToMonth y 13 = yearDays y := by
    rw [daysToMonth_eq y (by decide), yearDays_eq]
    norm_num
    ring
  rw [daysToYear_succ, ← hyear]
  omega

lemma ValidDate.ge_month (h : ValidDate y m d) :
    daysToYear y + daysToMonth y m ≤ dayNumber y m d := by
  unfold dayNumber
  have := h.day.1
  omega

lemma ValidDate.ge_year (h : ValidDate y m d) : daysToYear y ≤ dayNumber y m d := by
  refine le_trans ?_ h.ge_month
  have hmono : daysToMonth y 1 ≤ daysToMonth y m := daysToMonth_mono h.month.1
  have hfirst : daysToMonth y 1 = 0 := by simp [daysToMonth]
  omega

structure Stamp where
  year : ℤ
  month : ℤ
  day : ℤ
  hour : ℤ
  minute : ℤ
  second : ℤ
deriving DecidableEq, Repr

def Stamp.fields (a : Stamp) : List ℤ := [a.year, a.month, a.day, a.hour, a.minute, a.second]

structure Stamp.Valid (a : Stamp) : Prop where
  date : ValidDate a.year a.month a.day
  hour : 0 ≤ a.hour ∧ a.hour < 24
  minute : 0 ≤ a.minute ∧ a.minute < 60
  second : 0 ≤ a.second ∧ a.second < 60

def Stamp.time (a : Stamp) : ℤ := a.hour * 3600 + a.minute * 60 + a.second

noncomputable def Stamp.seconds (a : Stamp) : ℤ := dayNumber a.year a.month a.day * 86400 + a.time

variable {a b : Stamp}

lemma Stamp.Valid.time_range (h : a.Valid) : 0 ≤ a.time ∧ a.time < 86400 := by
  obtain ⟨_, hh, hm, hs⟩ := h
  unfold Stamp.time
  omega

lemma dayNumber_lt {y' : ℤ} (h : ValidDate y m d) (h' : ValidDate y' m' d')
    (hlt : y < y' ∨ y = y' ∧ (m < m' ∨ m = m' ∧ d < d')) : dayNumber y m d < dayNumber y' m' d' := by
  obtain hy | ⟨rfl, hm | ⟨rfl, hd⟩⟩ := hlt
  · calc dayNumber y m d < daysToYear (y + 1) := h.lt_year
      _ ≤ daysToYear y' := daysToYear_strictMono.monotone (by omega)
      _ ≤ dayNumber y' m' d' := h'.ge_year
  · calc dayNumber y m d < daysToYear y + daysToMonth y (m + 1) := h.lt_month
      _ ≤ daysToYear y + daysToMonth y m' := by
          have hmono : daysToMonth y (m + 1) ≤ daysToMonth y m' := daysToMonth_mono (by omega)
          omega
      _ ≤ dayNumber y m' d' := h'.ge_month
  · unfold dayNumber
    omega

lemma Stamp.Valid.seconds_lt (ha : a.Valid) (hb : b.Valid) (hlt : a.fields < b.fields) :
    a.seconds < b.seconds := by
  have hta := ha.time_range
  have htb := hb.time_range
  simp only [Stamp.fields, List.cons_lt_cons_iff, lt_self_iff_false, and_false, or_false] at hlt
  have hday : dayNumber a.year a.month a.day < dayNumber b.year b.month b.day ∨
      dayNumber a.year a.month a.day = dayNumber b.year b.month b.day ∧ a.time < b.time := by
    obtain hy | ⟨hy, hm | ⟨hm, hd | ⟨hd, ht⟩⟩⟩ := hlt
    · exact .inl (dayNumber_lt ha.date hb.date (.inl hy))
    · exact .inl (dayNumber_lt ha.date hb.date (.inr ⟨hy, .inl hm⟩))
    · exact .inl (dayNumber_lt ha.date hb.date (.inr ⟨hy, .inr ⟨hm, hd⟩⟩))
    · refine .inr ⟨by rw [hy, hm, hd], ?_⟩
      have := ha.minute
      have := ha.second
      have := hb.minute
      have := hb.second
      unfold Stamp.time
      omega
  unfold Stamp.seconds
  omega

theorem Stamp.Valid.seconds_lt_iff (ha : a.Valid) (hb : b.Valid) :
    a.seconds < b.seconds ↔ a.fields < b.fields := by
  refine ⟨fun h => ?_, ha.seconds_lt hb⟩
  rcases lt_trichotomy a.fields b.fields with hlt | heq | hgt
  · exact hlt
  · have hab : a.seconds = b.seconds := by
      simp only [Stamp.fields, List.cons.injEq, and_true] at heq
      obtain ⟨hy, hm, hd, hh, hmi, hs⟩ := heq
      unfold Stamp.seconds Stamp.time
      rw [hy, hm, hd, hh, hmi, hs]
    omega
  · have := hb.seconds_lt ha hgt
    omega

theorem Stamp.Valid.eq_of_seconds (ha : a.Valid) (hb : b.Valid) (h : a.seconds = b.seconds) :
    a = b := by
  have hab : ¬ a.fields < b.fields := fun hlt => absurd (ha.seconds_lt hb hlt) (by omega)
  have hba : ¬ b.fields < a.fields := fun hlt => absurd (hb.seconds_lt ha hlt) (by omega)
  have heq : a.fields = b.fields := le_antisymm (not_lt.mp hba) (not_lt.mp hab)
  cases a
  cases b
  simpa [Stamp.fields] using heq

end Xv6.Calendar
