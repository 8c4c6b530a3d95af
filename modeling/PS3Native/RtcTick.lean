import Mathlib.Algebra.Ring.Int.Defs
import Mathlib.Algebra.Ring.Nat
import Mathlib.Data.List.Lex
import Mathlib.Data.Nat.Find
import Mathlib.Order.Monotone.Basic

/-!
# Ticks and dates of `cellRtc`

`date_time_to_tick` counts leap days in closed form, `tick_to_date_time` finds the year by one
quotient and the month by a guess of 29 days a month. The pointers are taken to be readable.
-/

namespace PS3Native.Rtc

@[ext] structure DateTime where
  year : ℕ
  month : ℕ
  day : ℕ
  hour : ℕ
  minute : ℕ
  second : ℕ
  microsecond : ℕ
  deriving DecidableEq

inductive RtcError
  | invalidYear
  | invalidMonth
  | invalidDay
  | invalidHour
  | invalidMinute
  | invalidSecond
  | invalidMicrosecond
  | invalidValue
  deriving DecidableEq

def isLeapYear (year : ℕ) : Bool := year%4 == 0 && (year%100 != 0 || year%400 == 0)

/-- `DAYS_IN_MONTH` and `DAYS_IN_MONTH_LEAP`. -/
def daysInMonth (leap : Bool) (i : ℕ) : ℕ :=
  [31,if leap then 29 else 28,31,30,31,30,31,31,30,31,30,31].getD i 0

/-- `MONTH_OFFSET` and `MONTH_OFFSET_LEAP`. The guess can reach index 12, which holds `umax`. -/
def monthOffset (leap : Bool) (i : ℕ) : ℕ :=
  (if leap then [0,31,60,91,121,152,182,213,244,274,305,335,65535]
    else [0,31,59,90,120,151,181,212,243,273,304,334,65535]).getD i 0

def tickToDateTime (tick : ℕ) : DateTime :=
  let days := tick/(24*60*60*1000000)%2^32
  let year400 := days/146097
  let days := days-year400*146097
  let within := (days-days/1460+days/36524-days/146096)/365
  let days := days-(within*365+within/4-within/100+within/400)
  let years := (year400*400+within+1)%2^16
  let leap := isLeapYear years
  let approx := days/29
  let approx := if monthOffset leap approx > days then approx-1 else approx
  { year := years
    month := approx+1
    day := days-monthOffset leap approx+1
    hour := tick/(60*60*1000000)%24
    minute := tick/(60*1000000)%60
    second := tick/1000000%60
    microsecond := tick%1000000 }

def dateTimeToTick (d : DateTime) : ℕ :=
  let previousYears := (d.year*365+(d.year+3)/4-(d.year+99)/100 + (d.year+399)/400+(2^32-366))%2^32
  let month := if d.month=0 then 1 else if d.month > 12 then 12 else d.month
  let previousMonths := monthOffset (isLeapYear d.year) (month-1)
  let days := (previousYears+previousMonths+d.day+(2^32-1))%2^32
  (d.microsecond+d.second*1000000+d.minute*60*1000000+d.hour*60*60*1000000 +
    days*24*60*60*1000000)%2^64

def cellRtcGetTick (d : DateTime) : Except RtcError ℕ :=
  if d.year ≥ 10000 ∨ d.year=0 then .error .invalidValue else .ok (dateTimeToTick d)

def cellRtcSetTick (tick : ℕ) : DateTime := tickToDateTime tick

/-- The end that `cellRtcTickAddMonths` and `cellRtcTickAddYears` share. An invalid month makes
`month_days` the negative `CELL_RTC_ERROR_INVALID_ARG`; `tick0` stays where `cellRtcGetTick` fails. -/
def writeMonth (tick0 : ℕ) (d : DateTime) (newYear newMonth : ℕ) : ℕ :=
  let monthDays : ℤ := if newYear=0 ∨ newMonth < 1 ∨ newMonth > 12 then 0x80010604-2^32
    else daysInMonth (isLeapYear newYear) (newMonth-1)
  let day := if monthDays < d.day then (monthDays%2^16).toNat else d.day
  match cellRtcGetTick {d with year := newYear, month := newMonth, day} with
  | .ok tick => tick
  | .error _ => tick0

def cellRtcTickAddMonths (tick0 tick1 : ℕ) (iAdd : ℤ) : ℕ :=
  let d := cellRtcSetTick tick1
  let totalMonths := d.year*12+d.month+iAdd-1
  let newYear := (totalMonths.tdiv 12%2^16).toNat
  let newMonth := ((totalMonths-newYear*12+1)%2^16).toNat
  writeMonth tick0 d newYear newMonth

def cellRtcTickAddYears (tick0 tick1 : ℕ) (iAdd : ℤ) : ℕ :=
  let d := cellRtcSetTick tick1
  writeMonth tick0 d ((d.year+iAdd)%2^16).toNat d.month

def cellRtcCheckValid (d : DateTime) : Except RtcError Unit :=
  if d.year=0 ∨ d.year ≥ 10000 then .error .invalidYear
  else if d.month < 1 ∨ d.month > 12 then .error .invalidMonth
  else if d.day=0 ∨ d.day > daysInMonth (isLeapYear d.year) (d.month-1) then .error .invalidDay
  else if d.hour ≥ 24 then .error .invalidHour
  else if d.minute ≥ 60 then .error .invalidMinute
  else if d.second ≥ 60 then .error .invalidSecond
  else if d.microsecond ≥ 1000000 then .error .invalidMicrosecond
  else .ok ()

/-- The order of dates: the year first, the microsecond last. -/
def DateTime.key (d : DateTime) : List ℕ :=
  [d.year,d.month,d.day,d.hour,d.minute,d.second,d.microsecond]

def tickEnd : ℕ := 3652059*(24*60*60*1000000)

def yearStart (n : ℕ) : ℕ := n*365+n/4-n/100+n/400

def yearLength (leap : Bool) : ℕ := if leap then 366 else 365

theorem yearStart_succ (n : ℕ) : yearStart (n+1) = yearStart n+yearLength (isLeapYear (n+1)) := by
  have hfour : 100 ∣ n+1 → 4 ∣ n+1 := Nat.dvd_trans (by decide)
  have hcentury : 400 ∣ n+1 → 100 ∣ n+1 := Nat.dvd_trans (by decide)
  have hle : n/100 ≤ n/4 := Nat.div_le_div_left (by decide) (by decide)
  simp only [yearStart,yearLength,isLeapYear,Nat.succ_div,Bool.and_eq_true,Bool.or_eq_true,
    beq_iff_eq,bne_iff_ne,ne_eq,← Nat.dvd_iff_mod_eq_zero]
  generalize n/4=a, n/100=b, n/400 = c at *
  by_cases h4 : 4 ∣ n+1 <;> by_cases h100 : 100 ∣ n+1 <;> by_cases h400 : 400 ∣ n+1 <;>
    simp_all <;> omega

theorem yearStart_mono : Monotone yearStart :=
  monotone_nat_of_le_succ fun n => by simp [yearStart_succ]

theorem yearStart_add (q m : ℕ) : yearStart (q*400+m) = q*146097+yearStart m := by
  unfold yearStart
  omega

theorem isLeapYear_add (q m : ℕ) : isLeapYear (q*400+m) = isLeapYear m := by
  have h4 : (q*400+m)%4 = m%4 := by omega
  have h100 : (q*400+m)%100 = m%100 := by omega
  simp [isLeapYear,h4,h100]

/-- The quotient that finds the year from a day of a 400-year interval. -/
theorem year_within_eq {m r x : ℕ} (hm : m < 400) (hr : r < yearLength (isLeapYear (m+1)))
    (hstart : x = yearStart m+r) : (x-x/1460+x/36524-x/146096)/365=m := by
  obtain ⟨b,a,c,hb,ha,hc,rfl⟩ : ∃ b a c, b < 4 ∧ a < 25 ∧ c < 4 ∧ m = 100*b+4*a+c :=
    ⟨m/100,m%100/4,m%4,by omega,by omega,by omega,by omega⟩
  have hx : x = 36524*b+1461*a+365*c+r := by
    rw [hstart,yearStart]
    omega
  have hlong : r < 365 ∨ r=365 ∧ c=3 ∧ (a < 24 ∨ b=3) := by
    simp only [yearLength,isLeapYear,Bool.and_eq_true,Bool.or_eq_true,beq_iff_eq,bne_iff_ne] at hr
    split_ifs at hr <;> omega
  have hcentury : x/36524-x/146096=b ∧ x/146096 ≤ x/36524 := by
    have hlast : x-36524*b < 36524 ∨ x=146096 ∧ b=3 := by omega
    rcases hlast with hlast | ⟨hlast,hb⟩ <;> omega
  have hfour : x/1460 = 25*b+a+(24*b+a+365*c+r)/1460 := by omega
  omega

theorem month_of_day : ∀ leap, ∀ i < 12, ∀ j < daysInMonth leap i,
    monthOffset leap i+j < yearLength leap ∧
      (if monthOffset leap ((monthOffset leap i+j)/29) > monthOffset leap i+j
        then (monthOffset leap i+j)/29-1 else (monthOffset leap i+j)/29)=i := by
  decide

theorem exists_month : ∀ leap, ∀ r < yearLength leap,
    ∃ i < 12, monthOffset leap i ≤ r ∧ r-monthOffset leap i < daysInMonth leap i := by
  decide +kernel

theorem monthOffset_lt : ∀ leap, ∀ i' < 12, ∀ i < i',
    monthOffset leap i+daysInMonth leap i ≤ monthOffset leap i' := by
  decide

structure Valid (d : DateTime) : Prop where
  year : 1 ≤ d.year ∧ d.year < 10000
  month : 1 ≤ d.month ∧ d.month-1 < 12
  day : 1 ≤ d.day ∧ d.day-1 < daysInMonth (isLeapYear d.year) (d.month-1)
  time : d.hour < 24 ∧ d.minute < 60 ∧ d.second < 60 ∧ d.microsecond < 1000000

theorem cellRtcCheckValid_iff (d : DateTime) : cellRtcCheckValid d = .ok () ↔ Valid d := by
  constructor
  · intro h
    unfold cellRtcCheckValid at h
    split_ifs at h
    exact ⟨by omega,by omega,by omega,by omega⟩
  · rintro ⟨hyear,hmonth,hday,htime⟩
    unfold cellRtcCheckValid
    split_ifs <;> first | rfl | omega

def DateTime.days (d : DateTime) : ℕ :=
  yearStart (d.year-1)+(monthOffset (isLeapYear d.year) (d.month-1)+(d.day-1))

def DateTime.time (d : DateTime) : ℕ :=
  d.hour*3600000000+d.minute*60000000+d.second*1000000+d.microsecond

section

variable {d e : DateTime} (h : Valid d)
include h

theorem Valid.dayOfYear_lt : monthOffset (isLeapYear d.year) (d.month-1)+(d.day-1) <
    yearLength (isLeapYear (d.year-1+1)) := by
  rw [Nat.sub_add_cancel h.year.1]
  exact (month_of_day _ _ h.month.2 _ h.day.2).1

theorem Valid.days_lt : d.days < yearStart d.year := by
  have hlt := h.dayOfYear_lt
  have hsucc := yearStart_succ (d.year-1)
  rw [Nat.sub_add_cancel h.year.1] at hlt hsucc
  unfold DateTime.days
  omega

theorem Valid.time_lt : d.time < 86400000000 := by
  have := h.time
  unfold DateTime.time
  omega

theorem Valid.dateTimeToTick_eq :
    dateTimeToTick d = d.days*86400000000+d.time ∧ d.days < 3652059 := by
  obtain ⟨hpos,hlt⟩ := h.year
  have hday := h.day
  have hdays := h.days_lt.trans_le (yearStart_mono (Nat.le_sub_one_of_lt hlt))
  have hyears : d.year*365+(d.year+3)/4-(d.year+99)/100+(d.year+399)/400 =
      yearStart (d.year-1)+366 := by
    unfold yearStart
    omega
  have hend : yearStart (10000-1)=3652059 := rfl
  have htime := h.time_lt
  have hmonth : (if d.month=0 then 1 else if d.month > 12 then 12 else d.month)=d.month := by
    have := h.month
    split_ifs <;> omega
  have hprevious : (yearStart (d.year-1)+366+(2^32-366))%2^32 = yearStart (d.year-1) := by
    unfold DateTime.days at hdays
    omega
  have hdate : (yearStart (d.year-1)+monthOffset (isLeapYear d.year) (d.month-1)+d.day +
      (2^32-1))%2^32=d.days := by
    unfold DateTime.days at *
    omega
  simp only [dateTimeToTick,hyears,hmonth,hprevious,hdate]
  unfold DateTime.time at *
  omega

theorem Valid.dateTimeToTick_lt : dateTimeToTick d < tickEnd := by
  obtain ⟨htick,hdays⟩ := h.dateTimeToTick_eq
  have htime := h.time_lt
  rw [htick,tickEnd]
  omega

theorem Valid.cellRtcGetTick_eq : cellRtcGetTick d = .ok (dateTimeToTick d) := by
  have := h.year
  exact if_neg (by omega)

theorem Valid.tickToDateTime_eq : tickToDateTime (dateTimeToTick d)=d := by
  obtain ⟨htick,hlt⟩ := h.dateTimeToTick_eq
  have htime := h.time_lt
  have hr := h.dayOfYear_lt
  obtain ⟨-,happrox⟩ := month_of_day _ _ h.month.2 _ h.day.2
  obtain ⟨q,m,hm,hyear⟩ : ∃ q m, m < 400 ∧ d.year-1 = q*400+m :=
    ⟨(d.year-1)/400,(d.year-1)%400,by omega,by omega⟩
  have hleap : isLeapYear (d.year-1+1) = isLeapYear (m+1) := by
    rw [hyear,Nat.add_assoc,isLeapYear_add]
  rw [hleap] at hr
  have hnext := yearStart_mono (show m+1 ≤ 400 from hm)
  rw [yearStart_succ,show yearStart 400 = 146097 from rfl] at hnext
  have hdays : d.days = q*146097 +
      (yearStart m+(monthOffset (isLeapYear d.year) (d.month-1)+(d.day-1))) := by
    rw [DateTime.days,hyear,yearStart_add,Nat.add_assoc]
  have hinterval : d.days/146097=q := by omega
  have hrest : d.days-q*146097 =
      yearStart m+(monthOffset (isLeapYear d.year) (d.month-1)+(d.day-1)) := by omega
  have hyears : (q*400+m+1)%2^16=d.year := by
    have := h.year
    omega
  have hstart : m*365+m/4-m/100+m/400 = yearStart m := rfl
  have hdate : dateTimeToTick d/(24*60*60*1000000)%2^32=d.days := by omega
  have hfields := h.time
  have hmonth := h.month
  have hday := h.day
  simp only [tickToDateTime,hdate,hinterval,hrest,year_within_eq hm hr rfl,hstart,hyears,
    Nat.add_sub_cancel_left,happrox]
  simp only [DateTime.time] at htick htime
  ext <;> dsimp only <;> omega

end

theorem exists_valid {t : ℕ} (ht : t < tickEnd) : ∃ d, Valid d ∧ dateTimeToTick d=t := by
  obtain ⟨n,hn,hle,hlt⟩ : ∃ n < 9999, yearStart n ≤ t/86400000000 ∧
      t/86400000000 < yearStart (n+1) := by
    have hend : t/86400000000 < yearStart 9999 := by
      rw [show yearStart 9999 = 3652059 from rfl,Nat.div_lt_iff_lt_mul (by decide)]
      exact ht
    have hex : ∃ n, t/86400000000 < yearStart (n+1) := ⟨9998,hend⟩
    refine ⟨Nat.find hex,Nat.lt_succ_of_le (Nat.find_min' hex hend),?_,Nat.find_spec hex⟩
    cases hfind : Nat.find hex with
    | zero => exact Nat.zero_le _
    | succ k => exact Nat.not_lt.mp (Nat.find_min hex (hfind ▸ Nat.lt_succ_self k))
  rw [yearStart_succ] at hlt
  obtain ⟨i,hi,hoffset,hday⟩ := exists_month (isLeapYear (n+1)) (t/86400000000-yearStart n)
    (by omega)
  let d : DateTime := ⟨n+1,i+1,
    t/86400000000-yearStart n-monthOffset (isLeapYear (n+1)) i+1,t/3600000000%24,
    t/60000000%60,t/1000000%60,t%1000000⟩
  have hvalid : Valid d := ⟨⟨Nat.succ_pos n,Nat.succ_lt_succ hn⟩,⟨Nat.succ_pos i,hi⟩,
    ⟨Nat.succ_pos _,hday⟩,by simp only [d]; omega⟩
  refine ⟨d,hvalid,?_⟩
  rw [hvalid.dateTimeToTick_eq.1]
  simp only [d,DateTime.days,DateTime.time,Nat.add_sub_cancel]
  omega

theorem Valid.lt_of_key_lt {d e : DateTime} (h : Valid d) (h' : Valid e) (hlt : d.key < e.key) :
    dateTimeToTick d < dateTimeToTick e := by
  have htime := h.time_lt
  have hkey : d.days < e.days ∨ d.days=e.days ∧ d.time < e.time := by
    simp only [DateTime.key,List.cons_lt_cons_iff,List.not_lt_nil,and_false,or_false] at hlt
    rcases hlt with hyear | ⟨hyear,hmonth | ⟨hmonth,hrest⟩⟩
    · have := h.days_lt.trans_le (yearStart_mono (Nat.le_sub_one_of_lt hyear))
      simp only [DateTime.days] at this ⊢
      omega
    · have := monthOffset_lt (isLeapYear e.year) _ h'.month.2 (d.month-1)
        (by have := h.month; omega)
      have hday := h.day
      simp only [DateTime.days,hyear] at hday ⊢
      omega
    · have hfields := h.time
      have hfields' := h'.time
      have hday := h.day.1
      simp only [DateTime.days,DateTime.time,hyear,hmonth]
      omega
  rw [h.dateTimeToTick_eq.1,h'.dateTimeToTick_eq.1]
  omega

theorem cellRtcSetTick_valid {t : ℕ} (ht : t < tickEnd) :
    Valid (cellRtcSetTick t) ∧ dateTimeToTick (cellRtcSetTick t)=t := by
  obtain ⟨d,hd,rfl⟩ := exists_valid ht
  rw [cellRtcSetTick,hd.tickToDateTime_eq]
  exact ⟨hd,rfl⟩

/-- On the dates that `cellRtcCheckValid` accepts and the ticks before year 10000, `cellRtcGetTick`
and `cellRtcSetTick` are inverse to each other and strictly monotone. -/
theorem cellRtc_tick_date_inverse :
    (∀ d, cellRtcCheckValid d = .ok () → ∃ t < tickEnd, cellRtcGetTick d = .ok t ∧
      cellRtcSetTick t=d) ∧
    (∀ t < tickEnd, cellRtcCheckValid (cellRtcSetTick t) = .ok () ∧
      cellRtcGetTick (cellRtcSetTick t) = .ok t) ∧
    (∀ d e t u, cellRtcCheckValid d = .ok () → cellRtcCheckValid e = .ok () →
      cellRtcGetTick d = .ok t → cellRtcGetTick e = .ok u → d.key < e.key → t < u) ∧
    ∀ t u, t < u → u < tickEnd → (cellRtcSetTick t).key < (cellRtcSetTick u).key := by
  simp only [cellRtcCheckValid_iff]
  refine ⟨fun d hd => ⟨_,hd.dateTimeToTick_lt,hd.cellRtcGetTick_eq,hd.tickToDateTime_eq⟩,
    fun t ht => ?_,?_,?_⟩
  · obtain ⟨hvalid,htick⟩ := cellRtcSetTick_valid ht
    exact ⟨hvalid,by rw [hvalid.cellRtcGetTick_eq,htick]⟩
  · intro d e t u hd he ht hu hlt
    rw [hd.cellRtcGetTick_eq] at ht
    rw [he.cellRtcGetTick_eq] at hu
    obtain rfl := Except.ok.inj ht
    obtain rfl := Except.ok.inj hu
    exact hd.lt_of_key_lt he hlt
  · intro t u htu hu
    obtain ⟨hvalid,htick⟩ := cellRtcSetTick_valid (htu.trans hu)
    obtain ⟨hvalid',htick'⟩ := cellRtcSetTick_valid hu
    rcases lt_trichotomy (cellRtcSetTick t).key (cellRtcSetTick u).key with hlt | heq | hgt
    · exact hlt
    · simp only [DateTime.key,List.cons.injEq,and_true] at heq
      have hsame : cellRtcSetTick t = cellRtcSetTick u := by ext <;> simp [heq]
      rw [hsame,htick'] at htick
      omega
    · have := hvalid'.lt_of_key_lt hvalid hgt
      omega

theorem cellRtcTickAddMonths_eq {tick0 t year month : ℕ} {iAdd : ℤ} (hyear : year < 10000)
    (hmonth : 1 ≤ month ∧ month ≤ 12)
    (hshift : (year*12+month : ℤ) = (cellRtcSetTick t).year*12+(cellRtcSetTick t).month+iAdd) :
    cellRtcTickAddMonths tick0 t iAdd = writeMonth tick0 (cellRtcSetTick t) year month := by
  have hquot : ((year*12+month-1 : ℤ).tdiv 12%2^16).toNat=year := by
    rw [Int.tdiv_eq_ediv_of_nonneg (by omega)]
    omega
  have hrest : ((year*12+month-1-year*12+1 : ℤ)%2^16).toNat=month := by omega
  simp only [cellRtcTickAddMonths,← hshift,hquot,hrest]

/-- The date moved to another month, its day cut to the length of that month. -/
def DateTime.inMonth (d : DateTime) (year month : ℕ) : DateTime :=
  {d with year, month, day := min d.day (daysInMonth (isLeapYear year) (month-1))}

theorem daysInMonth_pos : ∀ leap, ∀ i < 12, 1 ≤ daysInMonth leap i ∧ daysInMonth leap i < 32 := by
  decide

theorem Valid.writeMonth_eq {d : DateTime} {tick0 year month : ℕ} (h : Valid d)
    (hyear : 1 ≤ year ∧ year < 10000) (hmonth : 1 ≤ month ∧ month ≤ 12) :
    writeMonth tick0 d year month < tickEnd ∧
      cellRtcSetTick (writeMonth tick0 d year month) = d.inMonth year month := by
  obtain ⟨hpos,hlt⟩ := daysInMonth_pos (isLeapYear year) (month-1) (by omega)
  have hday := h.day
  have hvalid : Valid (d.inMonth year month) :=
    ⟨hyear,⟨hmonth.1,by dsimp only [DateTime.inMonth]; omega⟩,by dsimp only [DateTime.inMonth]; omega,
      h.time⟩
  have hcut : (if (daysInMonth (isLeapYear year) (month-1) : ℤ) < d.day
      then ((daysInMonth (isLeapYear year) (month-1) : ℤ)%2^16).toNat else d.day) =
      min d.day (daysInMonth (isLeapYear year) (month-1)) := by
    split_ifs <;> omega
  have hwrite : writeMonth tick0 d year month = dateTimeToTick (d.inMonth year month) := by
    have hget := hvalid.cellRtcGetTick_eq
    simp only [DateTime.inMonth] at hget ⊢
    simp only [writeMonth,if_neg (show ¬ (year=0 ∨ month < 1 ∨ month > 12) by omega),hcut,hget]
  rw [hwrite]
  exact ⟨hvalid.dateTimeToTick_lt,hvalid.tickToDateTime_eq⟩

/-- `cellRtcTickAddMonths` shifts the month and cuts the day to the length of the target month, and
adding years is adding twelve times as many months. -/
theorem cellRtcTickAdd_clamps (tick0 : ℕ) {t : ℕ} (ht : t < tickEnd) :
    (∀ (iAdd : ℤ) (year month : ℕ), 1 ≤ year ∧ year < 10000 → 1 ≤ month ∧ month ≤ 12 →
      (year*12+month : ℤ) = (cellRtcSetTick t).year*12+(cellRtcSetTick t).month+iAdd →
      cellRtcTickAddMonths tick0 t iAdd < tickEnd ∧
      cellRtcSetTick (cellRtcTickAddMonths tick0 t iAdd) = (cellRtcSetTick t).inMonth year month) ∧
    ∀ k : ℤ, 1 ≤ (cellRtcSetTick t).year+k → (cellRtcSetTick t).year+k < 10000 →
      cellRtcTickAddYears tick0 t k = cellRtcTickAddMonths tick0 t (12*k) := by
  obtain ⟨hvalid,-⟩ := cellRtcSetTick_valid ht
  refine ⟨fun iAdd year month hyear hmonth hshift => ?_,fun k hpos hlt => ?_⟩
  · rw [cellRtcTickAddMonths_eq hyear.2 hmonth hshift]
    exact hvalid.writeMonth_eq hyear hmonth
  · obtain ⟨year,hyear⟩ := Int.eq_ofNat_of_zero_le (show 0 ≤ (cellRtcSetTick t).year+k by omega)
    have hmonth := hvalid.month
    have hmonths := @cellRtcTickAddMonths_eq tick0 t year _ (12*k) (by omega)
      (show 1 ≤ (cellRtcSetTick t).month ∧ _ by omega) (by omega)
    have hnew : (((cellRtcSetTick t).year+k)%2^16).toNat=year := by omega
    rw [hmonths,cellRtcTickAddYears,hnew]

/-- One month after 31 January of a common year is 28 February. -/
theorem cellRtcTickAdd_clamps_january :
    cellRtcSetTick (cellRtcTickAddMonths 0 (30*86400000000) 1) = ⟨1,2,28,0,0,0,0⟩ :=
  ((cellRtcTickAdd_clamps 0 (by decide)).1 1 1 2 (by decide) (by decide) (by decide)).2

end PS3Native.Rtc
