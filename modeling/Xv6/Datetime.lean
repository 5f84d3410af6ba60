import Xv6.Calendar

/-! `sys_datetime` of `kernel/sysutil.c`: the machine timer turned into a date and a time of day. -/
namespace Xv6

open Calendar

/-- What storing a number in a C integer type makes of it, for the three types the conversion
computes in. -/
structure Widths where
  /-- `unsigned`, also as the type of an unsigned expression. -/
  u32 : ℤ → ℤ
  /-- `int` -/
  i32 : ℤ → ℤ
  /-- `int64_t` -/
  i64 : ℤ → ℤ

def machine : Widths := ⟨fun x => x % 2 ^ 32, fun x => x.bmod (2 ^ 32), fun x => x.bmod (2 ^ 64)⟩

def unbounded : Widths := ⟨id, id, id⟩

/-- `seconds_to_rtcdate`, with every sum, difference and product taken in its C type. The
quotients and remainders of unsigned numbers do not leave their type. -/
def convertSeconds (w : Widths) (secs : ℕ) : Stamp :=
  let days : ℤ := secs / 86400
  let rem : ℤ := secs % 86400
  let hour := w.i32 (rem / 3600)
  let rem := rem % 3600
  let minute := w.i32 (rem / 60)
  let second := w.i32 (rem % 60)
  let z := w.i64 (w.i64 days + 719468)
  let era := (if z ≥ 0 then z else w.i64 (z - 146096)).tdiv 146097
  let doe := w.u32 (w.i64 (z - w.i64 (era * 146097)))
  let yoe := w.u32 (w.u32 (w.u32 (doe - doe / 1460) + doe / 36524) - doe / 146096) / 365
  let year := w.i32 (w.i64 (yoe + w.i64 (era * 400)))
  let doy := w.u32 (doe - w.u32 (w.u32 (w.u32 (365 * yoe) + yoe / 4) - yoe / 100))
  let mp := w.u32 (w.u32 (5 * doy) + 2) / 153
  let day := w.u32 (w.u32 (doy - w.u32 (w.u32 (153 * mp) + 2) / 5) + 1)
  let month := w.u32 (mp + w.u32 (if mp < 10 then 3 else -9))
  let year := w.i32 (year + if month ≤ 2 then 1 else 0)
  ⟨year, w.i32 month, w.i32 day, hour, minute, second⟩

def secondsToRtcdate (secs : ℕ) : Stamp := convertSeconds machine secs

def mtimeFreq : ℕ := 10000000

def unixSecs (bootEpoch mtime : ℕ) : ℕ :=
  ((bootEpoch + mtime / mtimeFreq) % 2 ^ 64 + 7200) % 2 ^ 64

section Arithmetic

variable {doe : ℤ}

/-- Where a day of the 400-year era lies: the century, the four-year span, the year and the day,
all counted from March. A 366th day is there in the leap years only. -/
structure EraDay (doe b j i doy : ℤ) : Prop where
  eq : doe = 36524 * b + 1461 * j + 365 * i + doy
  century : 0 ≤ b ∧ b ≤ 3
  span : 0 ≤ j ∧ j ≤ 24
  year : 0 ≤ i ∧ i ≤ 3
  day : 0 ≤ doy ∧ doy ≤ 365
  leap : doy = 365 → i = 3 ∧ (j = 24 → b = 3)

lemma exists_eraDay (h : 0 ≤ doe ∧ doe < 146097) : ∃ b j i doy, EraDay doe b j i doy := by
  obtain ⟨b, hb, hb0, hb3, hr⟩ : ∃ b, doe / 36524 - doe / 146096 = b ∧ 0 ≤ b ∧ b ≤ 3 ∧
      (0 ≤ doe - 36524 * b ∧ doe - 36524 * b ≤ 36523 ∨ b = 3 ∧ doe = 146096) :=
    ⟨_, rfl, by omega⟩
  obtain ⟨r, hreq⟩ : ∃ r, r = doe - 36524 * b := ⟨_, rfl⟩
  obtain ⟨j, hj⟩ : ∃ j, j = r / 1461 := ⟨_, rfl⟩
  obtain ⟨r', hr'⟩ : ∃ r', r' = r - 1461 * j := ⟨_, rfl⟩
  rcases lt_or_ge r' 1095 with hlt | hge
  · exact ⟨b, j, r' / 365, r' % 365, by omega, by omega, by omega, by omega, by omega, by omega⟩
  · exact ⟨b, j, 3, r' - 1095, by omega, by omega, by omega, by omega, by omega, by omega⟩

variable {b j i doy : ℤ}

section
variable (h : EraDay doe b j i doy)
include h

lemma EraDay.yoe_range : 0 ≤ 100 * b + 4 * j + i ∧ 100 * b + 4 * j + i < 400 := by
  obtain ⟨_, hb, hj, hi, _, _⟩ := h
  omega

lemma EraDay.yoe_eq :
    (doe - doe / 1460 + doe / 36524 - doe / 146096) / 365 = 100 * b + 4 * j + i := by
  obtain ⟨heq, hb, hj, hi, hd, hl⟩ := h
  have hrest : 1461 * j + 365 * i + doy ≤ 36523 ∨ doe = 146096 ∧ b = 3 := by
    rcases lt_or_ge doy 365 with hlt | hge
    · omega
    · obtain ⟨rfl, hj24⟩ := hl (by omega)
      rcases lt_or_ge j 24 with hj' | hj'
      · omega
      · have := hj24 (by omega)
        omega
  have hcent : doe / 36524 - doe / 146096 = b := by
    obtain hrest | ⟨rfl, rfl⟩ := hrest
    · have : doe / 36524 = b := by omega
      omega
    · rfl
  obtain ⟨c, hc⟩ : ∃ c, c = (24 * b + j + (365 * i + doy)) / 1460 := ⟨_, rfl⟩
  have hspan : doe / 1460 = 25 * b + j + c := by omega
  have hdays : doe - doe / 1460 + doe / 36524 - doe / 146096 =
      365 * (100 * b + 4 * j + i) + (doy - c) := by
    linarith
  have hcarry : 0 ≤ doy - c ∧ doy - c < 365 := by
    clear hrest hcent hspan hdays
    omega
  rw [hdays]
  clear hdays hspan hcent hc
  omega

lemma EraDay.doy_eq :
    doe - (365 * (100 * b + 4 * j + i) + (100 * b + 4 * j + i) / 4 - (100 * b + 4 * j + i) / 100) =
      doy := by
  obtain ⟨heq, hb, hj, hi, hd, hl⟩ := h
  omega

end

lemma dayNumber_march (y d : ℤ) {mp : ℤ} (hmp : 0 ≤ mp ∧ mp ≤ 11) :
    dayNumber (if mp < 10 then y else y + 1) (if mp < 10 then mp + 3 else mp - 9) d =
      365 * y + y / 4 - y / 100 + y / 400 - 719468 + (153 * mp + 2) / 5 + (d - 1) := by
  unfold dayNumber
  split_ifs with h
  · rw [daysToYear_eq, daysToMonth_eq y (by omega), if_neg (by omega), add_sub_cancel_right,
      leapDay_eq]
    ring
  · rw [daysToYear_eq, daysToMonth_eq (y + 1) (by omega), if_pos (by omega), add_sub_cancel_right]
    have hmp' : mp = 10 ∨ mp = 11 := by omega
    obtain rfl | rfl := hmp' <;> omega

/-- The stamp of a day counted from March of year `y`, at `rem` seconds of the day. -/
def marchStamp (y doy rem : ℤ) : Stamp :=
  let mp := (5 * doy + 2) / 153
  ⟨if mp < 10 then y else y + 1, if mp < 10 then mp + 3 else mp - 9,
    doy - (153 * mp + 2) / 5 + 1, rem / 3600, rem % 3600 / 60, rem % 3600 % 60⟩

lemma marchStamp_valid {y doy rem : ℤ} (hd : 0 ≤ doy ∧ doy < 365 + leapDay (y + 1))
    (hr : 0 ≤ rem ∧ rem < 86400) : (marchStamp y doy rem).Valid := by
  have hl := leapDay_cases (y + 1)
  obtain ⟨mp, hmp⟩ : ∃ mp, mp = (5 * doy + 2) / 153 := ⟨_, rfl⟩
  have h0 : 0 ≤ mp := by omega
  have h11 : mp ≤ 11 := by omega
  unfold marchStamp
  rw [← hmp]
  refine ⟨⟨?_, ?_⟩, ?_, ?_, ?_⟩
  · dsimp only
    split_ifs <;> omega
  · dsimp only
    unfold monthDays
    interval_cases mp <;> norm_num <;> omega
  all_goals dsimp only; omega

lemma marchStamp_seconds {y doy rem : ℤ} (hd : 0 ≤ doy ∧ doy ≤ 365) :
    (marchStamp y doy rem).seconds =
      (365 * y + y / 4 - y / 100 + y / 400 - 719468 + doy) * 86400 + rem := by
  unfold Stamp.seconds marchStamp Stamp.time
  dsimp only
  rw [dayNumber_march _ _ (by omega)]
  omega

end Arithmetic

structure Widths.Sound (w : Widths) : Prop where
  u32 : ∀ x, 0 ≤ x → x < 2 ^ 32 → w.u32 x = x
  i32 : ∀ x, -2 ^ 31 ≤ x → x < 2 ^ 31 → w.i32 x = x
  i64 : ∀ x, -2 ^ 63 ≤ x → x < 2 ^ 63 → w.i64 x = x
  u32_add : ∀ x y, w.u32 (x + w.u32 y) = w.u32 (x + y)

lemma machine_sound : machine.Sound where
  u32 x h0 h := Int.emod_eq_of_lt h0 h
  i32 x h0 h := Int.bmod_eq_of_le (by omega) (by omega)
  i64 x h0 h := Int.bmod_eq_of_le (by omega) (by omega)
  u32_add x y := Int.add_emod_emod x y (2 ^ 32)

lemma unbounded_sound : unbounded.Sound :=
  ⟨fun _ _ _ => rfl, fun _ _ _ => rfl, fun _ _ _ => rfl, fun _ _ => rfl⟩

section Steps

variable {w : Widths} (hw : w.Sound)
include hw

lemma Widths.Sound.doe_eq {z era doe : ℤ} (hz : z = 146097 * era + doe)
    (hera : 0 ≤ era ∧ era < 2 ^ 20) (hdoe : 0 ≤ doe ∧ doe < 146097) :
    w.u32 (w.i64 (z - w.i64 (era * 146097))) = doe := by
  have hdiff : z - era * 146097 = doe := by
    rw [hz]
    ring
  rw [hw.i64 (era * 146097) (by omega) (by omega), hdiff, hw.i64 _ (by omega) (by omega),
    hw.u32 _ (by omega) (by omega)]

lemma Widths.Sound.yoe_eq {doe : ℤ} (hdoe : 0 ≤ doe ∧ doe < 146097) :
    w.u32 (w.u32 (w.u32 (doe - doe / 1460) + doe / 36524) - doe / 146096) / 365 =
      (doe - doe / 1460 + doe / 36524 - doe / 146096) / 365 := by
  rw [hw.u32 (doe - doe / 1460) (by omega) (by omega),
    hw.u32 (doe - doe / 1460 + doe / 36524) (by omega) (by omega), hw.u32 _ (by omega) (by omega)]

lemma Widths.Sound.year_eq {era yoe : ℤ} (hera : 0 ≤ era ∧ era < 2 ^ 20)
    (hyoe : 0 ≤ yoe ∧ yoe < 400) :
    w.i32 (w.i64 (yoe + w.i64 (era * 400))) = 400 * era + yoe := by
  rw [hw.i64 (era * 400) (by omega) (by omega), hw.i64 _ (by omega) (by omega),
    hw.i32 _ (by omega) (by omega)]
  ring

lemma Widths.Sound.doy_eq {doe yoe doy : ℤ} (hdoe : 0 ≤ doe ∧ doe < 146097)
    (hyoe : 0 ≤ yoe ∧ yoe < 400) (hdoy : doe - (365 * yoe + yoe / 4 - yoe / 100) = doy)
    (h0 : 0 ≤ doy) :
    w.u32 (doe - w.u32 (w.u32 (w.u32 (365 * yoe) + yoe / 4) - yoe / 100)) = doy := by
  rw [hw.u32 (365 * yoe) (by omega) (by omega), hw.u32 (365 * yoe + yoe / 4) (by omega) (by omega),
    hw.u32 (365 * yoe + yoe / 4 - yoe / 100) (by omega) (by omega), hdoy,
    hw.u32 _ (by omega) (by omega)]

lemma Widths.Sound.mp_eq {doy : ℤ} (hdoy : 0 ≤ doy ∧ doy ≤ 365) :
    w.u32 (w.u32 (5 * doy) + 2) / 153 = (5 * doy + 2) / 153 := by
  rw [hw.u32 (5 * doy) (by omega) (by omega), hw.u32 _ (by omega) (by omega)]

lemma Widths.Sound.day_eq {doy mp : ℤ} (hdoy : 0 ≤ doy ∧ doy ≤ 365)
    (hmp : mp = (5 * doy + 2) / 153) :
    w.i32 (w.u32 (w.u32 (doy - w.u32 (w.u32 (153 * mp) + 2) / 5) + 1)) =
      doy - (153 * mp + 2) / 5 + 1 := by
  have hday : 0 ≤ doy - (153 * mp + 2) / 5 := by omega
  rw [hw.u32 (153 * mp) (by omega) (by omega), hw.u32 (153 * mp + 2) (by omega) (by omega),
    hw.u32 (doy - (153 * mp + 2) / 5) (by omega) (by omega), hw.u32 _ (by omega) (by omega),
    hw.i32 _ (by omega) (by omega)]

lemma Widths.Sound.month_eq {mp : ℤ} (hmp : 0 ≤ mp ∧ mp ≤ 11) :
    w.u32 (mp + w.u32 (if mp < 10 then 3 else -9)) = if mp < 10 then mp + 3 else mp - 9 := by
  rw [hw.u32_add]
  split_ifs with h
  · exact hw.u32 _ (by omega) (by omega)
  · exact hw.u32 _ (by omega) (by omega)

lemma Widths.Sound.yearOf_eq {y mp : ℤ} (hy : 0 ≤ y ∧ y < 2 ^ 30) (hmp : 0 ≤ mp ∧ mp ≤ 11) :
    w.i32 (y + if (if mp < 10 then mp + 3 else mp - 9) ≤ 2 then 1 else 0) =
      if mp < 10 then y else y + 1 := by
  rcases lt_or_ge mp 10 with h | h
  · rw [if_pos h, if_pos h, if_neg (by omega), add_zero]
    exact hw.i32 _ (by omega) (by omega)
  · have hnot : ¬ mp < 10 := by omega
    rw [if_neg hnot, if_neg hnot, if_pos (by omega)]
    exact hw.i32 _ (by omega) (by omega)

lemma convertSeconds_eq {secs : ℕ} (hs : secs < 2 * 10 ^ 12) {era doe b j i doy : ℤ}
    (hz : (secs : ℤ) / 86400 + 719468 = 146097 * era + doe) (hdoe : 0 ≤ doe ∧ doe < 146097)
    (h : EraDay doe b j i doy) :
    convertSeconds w secs = marchStamp (400 * era + (100 * b + 4 * j + i)) doy (secs % 86400) := by
  have hera : 0 ≤ era ∧ era < 2 ^ 20 := by omega
  have hday := h.day
  have hmp11 : 0 ≤ (5 * doy + 2) / 153 ∧ (5 * doy + 2) / 153 ≤ 11 := by omega
  have hyoe400 := h.yoe_range
  have hyoe := h.yoe_eq
  have hdoy := h.doy_eq
  clear h
  generalize 100 * b + 4 * j + i = yoe at *
  unfold convertSeconds
  extract_lets days rem hour rem' minute second z era' doe' yoe' year doy' mp day month year'
  have hz' : z = 146097 * era + doe := by
    change w.i64 (w.i64 ((secs : ℤ) / 86400) + 719468) = _
    rw [hw.i64 (secs / 86400) (by omega) (by omega), hz, hw.i64 _ (by omega) (by omega)]
  have hera' : era' = era := by
    change (if z ≥ 0 then z else w.i64 (z - 146096)).tdiv 146097 = _
    rw [if_pos (by omega), Int.tdiv_eq_ediv_of_nonneg (by omega)]
    omega
  have hdoe' : doe' = doe := by
    change w.u32 (w.i64 (z - w.i64 (era' * 146097))) = _
    rw [hera']
    exact hw.doe_eq hz' hera hdoe
  clear_value z era' doe'
  have hyoe' : yoe' = yoe := by
    change w.u32 (w.u32 (w.u32 (doe' - doe' / 1460) + doe' / 36524) - doe' / 146096) / 365 = _
    rw [hdoe', hw.yoe_eq hdoe, hyoe]
  clear_value yoe'
  have hyear : year = 400 * era + yoe := by
    change w.i32 (w.i64 (yoe' + w.i64 (era' * 400))) = _
    rw [hyoe', hera', hw.year_eq hera hyoe400]
  have hdoy' : doy' = doy := by
    change w.u32 (doe' - w.u32 (w.u32 (w.u32 (365 * yoe') + yoe' / 4) - yoe' / 100)) = _
    rw [hdoe', hyoe', hw.doy_eq hdoe hyoe400 hdoy hday.1]
  clear_value doy' year
  clear hyoe hdoy
  have hmp : mp = (5 * doy + 2) / 153 := by
    change w.u32 (w.u32 (5 * doy') + 2) / 153 = _
    rw [hdoy', hw.mp_eq hday]
  have hday' : w.i32 day = doy - (153 * mp + 2) / 5 + 1 := by
    change w.i32 (w.u32 (w.u32 (doy' - w.u32 (w.u32 (153 * mp) + 2) / 5) + 1)) = _
    rw [hdoy', hw.day_eq hday hmp]
  rw [← hmp] at hmp11
  have hmonth : month = if mp < 10 then mp + 3 else mp - 9 := hw.month_eq hmp11
  clear_value mp day month
  have hhour : hour = (secs : ℤ) % 86400 / 3600 := hw.i32 _ (by omega) (by omega)
  have hminute : minute = (secs : ℤ) % 86400 % 3600 / 60 := hw.i32 _ (by omega) (by omega)
  have hsecond : second = (secs : ℤ) % 86400 % 3600 % 60 := hw.i32 _ (by omega) (by omega)
  have hyear' : year' = if mp < 10 then 400 * era + yoe else 400 * era + yoe + 1 := by
    change w.i32 (year + if month ≤ 2 then 1 else 0) = _
    rw [hyear, hmonth]
    exact hw.yearOf_eq (by omega) hmp11
  have hmonth' : w.i32 month = if mp < 10 then mp + 3 else mp - 9 := by
    rw [← hmonth]
    exact hw.i32 _ (by rw [hmonth]; split_ifs <;> omega) (by rw [hmonth]; split_ifs <;> omega)
  rw [hyear', hday', hmonth', hhour, hminute, hsecond, hmp]
  rfl

end Steps

lemma exists_marchStamp {secs : ℕ} (hs : secs < 2 * 10 ^ 12) :
    ∃ y doy : ℤ, (0 ≤ doy ∧ doy < 365 + leapDay (y + 1)) ∧
      365 * y + y / 4 - y / 100 + y / 400 - 719468 + doy = secs / 86400 ∧
      ∀ w : Widths, w.Sound → convertSeconds w secs = marchStamp y doy (secs % 86400) := by
  obtain ⟨z, hz⟩ : ∃ z : ℤ, z = secs / 86400 + 719468 := ⟨_, rfl⟩
  have hdoe : 0 ≤ z % 146097 ∧ z % 146097 < 146097 := by omega
  have hsplit : z = 146097 * (z / 146097) + z % 146097 := (Int.mul_ediv_add_emod z 146097).symm
  generalize z / 146097 = era at *
  generalize z % 146097 = doe at *
  obtain ⟨b, j, i, doy, h⟩ := exists_eraDay hdoe
  refine ⟨400 * era + (100 * b + 4 * j + i), doy, ?_, ?_,
    fun w hw => convertSeconds_eq hw hs (hz ▸ hsplit) hdoe h⟩
  · obtain ⟨_, hb, hj, hi, hd, hl⟩ := h
    refine ⟨hd.1, ?_⟩
    rcases lt_or_ge doy 365 with hlt | hge
    · have := leapDay_cases (400 * era + (100 * b + 4 * j + i) + 1)
      omega
    · obtain ⟨rfl, hj24⟩ := hl (by omega)
      have hleap : Leap (400 * era + (100 * b + 4 * j + 3) + 1) := by
        refine ⟨by omega, ?_⟩
        rcases lt_or_ge j 24 with hj' | hj'
        · left
          omega
        · right
          have := hj24 (by omega)
          omega
      rw [leapDay, if_pos hleap]
      omega
  · obtain ⟨heq, hb, hj, hi, hd, hl⟩ := h
    have h4 : (400 * era + (100 * b + 4 * j + i)) / 4 = 100 * era + 25 * b + j := by omega
    have h100 : (400 * era + (100 * b + 4 * j + i)) / 100 = 4 * era + b := by omega
    have h400 : (400 * era + (100 * b + 4 * j + i)) / 400 = era := by omega
    rw [h4, h100, h400]
    omega

lemma secondsToRtcdate_valid {secs : ℕ} (hs : secs < 2 * 10 ^ 12) :
    (secondsToRtcdate secs).Valid := by
  obtain ⟨y, doy, hdoy, _, h⟩ := exists_marchStamp hs
  rw [secondsToRtcdate, h machine machine_sound]
  exact marchStamp_valid hdoy (by omega)

lemma secondsToRtcdate_seconds {secs : ℕ} (hs : secs < 2 * 10 ^ 12) :
    (secondsToRtcdate secs).seconds = secs := by
  obtain ⟨y, doy, hdoy, hday, h⟩ := exists_marchStamp hs
  have hleap := leapDay_cases (y + 1)
  rw [secondsToRtcdate, h machine machine_sound, marchStamp_seconds (by omega), hday]
  omega

/-- The conversion gives the one stamp of the calendar at the seconds it is called with, as exact
arithmetic would, and a later stamp for the next second. -/
theorem datetime_correct {bootEpoch mtime : ℕ} (he : bootEpoch < 2 ^ 32) (hm : mtime < 2 ^ 64) :
    unixSecs bootEpoch mtime = bootEpoch + mtime / mtimeFreq + 7200 ∧
      let secs := unixSecs bootEpoch mtime
      (secondsToRtcdate secs).Valid ∧ (secondsToRtcdate secs).seconds = secs ∧
      (∀ a : Stamp, a.Valid → a.seconds = secs → a = secondsToRtcdate secs) ∧
      secondsToRtcdate secs = convertSeconds unbounded secs ∧
      (secondsToRtcdate secs).fields < (secondsToRtcdate (secs + 1)).fields := by
  have hsecs : unixSecs bootEpoch mtime = bootEpoch + mtime / mtimeFreq + 7200 := by
    change ((bootEpoch + mtime / mtimeFreq) % 2 ^ 64 + 7200) % 2 ^ 64 = _
    unfold mtimeFreq
    omega
  refine ⟨hsecs, ?_⟩
  intro secs
  replace hsecs : secs = bootEpoch + mtime / mtimeFreq + 7200 := hsecs
  have hlt : secs + 1 < 2 * 10 ^ 12 := by
    unfold mtimeFreq at hsecs
    omega
  have hvalid := secondsToRtcdate_valid (show secs < 2 * 10 ^ 12 by omega)
  have hat := secondsToRtcdate_seconds (show secs < 2 * 10 ^ 12 by omega)
  refine ⟨hvalid, hat, ?_, ?_, ?_⟩
  · intro a ha heq
    exact ha.eq_of_seconds hvalid (heq.trans hat.symm)
  · obtain ⟨y, doy, _, _, h⟩ := exists_marchStamp (show secs < 2 * 10 ^ 12 by omega)
    rw [secondsToRtcdate, h machine machine_sound, h unbounded unbounded_sound]
  · have hnext := secondsToRtcdate_seconds hlt
    rw [← hvalid.seconds_lt_iff (secondsToRtcdate_valid hlt), hat, hnext]
    omega

/-- The last day of February 2024, ten days of timer ticks after the start. -/
theorem datetime_correct_leapDay :
    secondsToRtcdate (unixSecs 1708300800 8640000000000) = ⟨2024, 2, 29, 2, 0, 0⟩ ∧
      (secondsToRtcdate (unixSecs 1708300800 8640000000000)).seconds =
        unixSecs 1708300800 8640000000000 :=
  ⟨by decide, (datetime_correct (by decide) (by decide)).2.2.1⟩

end Xv6
