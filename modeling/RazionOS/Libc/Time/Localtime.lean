import Mathlib.Algebra.Order.BigOperators.Group.List
import Mathlib.Tactic.IntervalCases
import Mathlib.Tactic.Ring

/-!
# Calendar time

`fill_time` looks for the year, the month, the day and the hour of a time one after the other, and
`mktime` adds them up again, with years that count from 1970.
-/

namespace RazionOS.Libc.Time
open Int List

structure Tm where
  sec : Int
  min : Int
  hour : Int
  mday : Int
  mon : Int
  year : Int
  wday : Int
  yday : Int
  isdst : Int
  zoneOffset : Int
deriving DecidableEq

def secDay : Int := 86400
def yearIsLeap (year : Int) : Bool := year%4=0 ∧ (year%100≠0 ∨ year%400=0)
def dayOfWeek (seconds : Int) : Int := (seconds.tdiv secDay + 4).tmod 7

def daysInMonth (month : Nat) (year : Int) : Int :=
  match month with
  | 12 | 10 | 8 | 7 | 5 | 3 | 1 => 31
  | 11 | 9 | 6 | 4 => 30
  | 2 => if yearIsLeap year then 29 else 28
  | _ => 0

/-- Of `rounds` units in a row the first that ends after `timeVal`, and the seconds before it. -/
def seek (secs : Nat → Int) (timeVal : Int) : Nat → Nat → Int → Option (Nat × Int)
  | 0, _, _ => none
  | rounds+1, unit, seconds =>
    if seconds + secs unit > timeVal then some (unit, seconds)
    else seek secs timeVal rounds (unit+1) (seconds + secs unit)

def fillTime (time tzOffset : Int) : Option Tm := do
  let timeVal := time+tzOffset
  let startYear := if timeVal<0 then 1900 else 1970
  let (year, yearSec) ← seek (fun year => (if yearIsLeap year then 366 else 365)*86400) timeVal
    (2100-startYear) startYear (if timeVal<0 then -2208988800 else 0)
  let (month, seconds) ← seek (fun month => daysInMonth month year * secDay) timeVal 12 1 yearSec
  let (day, seconds) ← seek (fun _ => 86400) timeVal (daysInMonth month year).toNat 1 seconds
  let (hour, seconds) ← seek (fun _ => 3600) timeVal 24 1 seconds
  let remaining := timeVal-seconds
  return {
    sec := remaining.tmod 60, min := remaining.tdiv 60, hour := hour-1, mday := day,
    mon := month-1, year := year-1900, wday := dayOfWeek timeVal,
    yday := (timeVal-yearSec).tdiv secDay, isdst := 0, zoneOffset := tzOffset }

def gmtime (time : Int) : Option Tm := fillTime time 0
def localtime (timezoneOffset time : Int) : Option Tm := fillTime time timezoneOffset

/-- The days of the years from 1970 up to one, of which there are `n`. -/
def daysOfYears (years : Int) : Nat → Int
  | 0 => 0
  | n+1 => (if yearIsLeap years then 366 else 365) + daysOfYears (years-1) n

def secsOfYears (years : Int) : Int :=
  daysOfYears years (years-1969).toNat * 86400%2^32

def secsOfMonth (months year : Int) : Int :=
  ((List.range (months-1).toNat).map fun i => daysInMonth (i+1) year).sum * secDay

def mktime (tm : Tm) : Int :=
  secsOfYears (tm.year+1899) + secsOfMonth (tm.mon+1) (tm.year+1900) + (tm.mday-1)*86400 +
    tm.hour * 3600+tm.min*60+tm.sec-tm.zoneOffset

/-- The days from the start of 1970 to the start of a year. -/
def yearStart (year : Int) : Int :=
  365 * (year-1970)+((year-1)/4 - 492) - ((year-1)/100 - 19)+((year-1)/400 - 4)

/-- The days of a year before a month, of which January is 0. -/
def monthStart (year : Int) (month : Nat) : Int :=
  ([31, if yearIsLeap year then 29 else 28, 31, 30, 31, 30, 31, 31, 30, 31, 30, 31].take month).sum

/-- The fields are the date and the time of day that is `time` seconds after the start of 1970. -/
structure IsDate (tm : Tm) (time : Int) : Prop where
  sec : 0≤tm.sec ∧ tm.sec<60
  min : 0≤tm.min ∧ tm.min<60
  hour : 0≤tm.hour ∧ tm.hour<24
  mon : 0≤tm.mon ∧ tm.mon<12
  mday : 1≤tm.mday ∧ monthStart (tm.year+1900) tm.mon.toNat + tm.mday ≤
    monthStart (tm.year+1900) (tm.mon.toNat+1)
  yday : tm.yday=monthStart (tm.year+1900) tm.mon.toNat + tm.mday-1
  wday : tm.wday=(4+time/86400)%7
  time : time=(yearStart (tm.year+1900) + tm.yday)*86400 + tm.hour*3600+tm.min*60+tm.sec

theorem yearStart_succ :
    yearStart (year+1)=yearStart year + if yearIsLeap year then 366 else 365 := by
  simp only [yearStart,yearIsLeap,decide_eq_true_eq]
  split <;> omega

theorem monthStart_succ (h : month<12) :
    monthStart year (month+1)=monthStart year month + daysInMonth (month+1) year := by
  interval_cases month <;> simp [monthStart,daysInMonth] <;> ring

private theorem monthStart_nonneg (month : Nat) (year : Int) : 0 ≤ monthStart year month := by
  refine sum_nonneg fun days hd => ?_
  have hmem := mem_of_mem_take hd
  split at hmem <;> simp at hmem <;> omega

/-- With `start` for the seconds before a unit, the one that is found is the first or has begun. -/
theorem seek_spec (hs : seek secs timeVal rounds first seconds=some (unit, seconds'))
    (start : Nat → Int) (hf : seconds=start first)
    (hst : ∀ u, first≤u → u<first+rounds → start (u+1)=start u + secs u) :
    first≤unit ∧ unit<first+rounds ∧ seconds' = start unit ∧
      (unit=first ∨ start unit≤timeVal) ∧ timeVal < start unit + secs unit := by
  induction rounds generalizing first seconds with
  | zero => cases hs
  | succ rounds ih =>
    rw [seek] at hs
    split at hs
    · next he =>
      cases hs
      exact ⟨le_rfl,by omega,hf,.inl rfl,hf ▸ he⟩
    have hn : seconds + secs first=start (first+1) := by
      rw [hst first le_rfl (by omega),hf]
    obtain ⟨hle,hlt,heq,hb,ha⟩ := ih hs hn fun u hu hu' => hst u (by omega) (by omega)
    rcases hb with rfl | hb <;> omega

theorem fillTime_spec (h : fillTime time tzOffset=some tm) :
    ∃ (year month day hour : Nat) (remaining : Int), year<2100 ∧
      (year<1970 ↔ time+tzOffset<0) ∧ month<12 ∧ day<daysInMonth (month+1) year ∧
      hour<24 ∧ (0≤time+tzOffset → 0 ≤ remaining) ∧ remaining<3600 ∧
      time + tzOffset=(yearStart year + monthStart year month + day)*86400 + hour*3600 +
        remaining ∧ tm=⟨remaining.tmod 60,remaining.tdiv 60,hour,day+1,month,year-1900,
        dayOfWeek (time+tzOffset),(time+tzOffset - yearStart year * 86400).tdiv secDay,0,
        tzOffset⟩ := by
  generalize hT : time+tzOffset=timeVal at *
  simp only [fillTime,hT,Option.bind_eq_bind,Option.bind_eq_some_iff,Prod.exists] at h
  obtain ⟨year,yearSec,hy,month,s1,hmo,day,s2,hd,hour,s3,hh,htm⟩ := h
  obtain ⟨hf,hy',rfl,hb,-⟩ := seek_spec hy (fun y => yearStart y * 86400)
    (by split <;> rfl) (fun y _ _ => by push_cast; rw [yearStart_succ,add_mul])
  obtain ⟨hmo1,hmo',rfl,hb1,-⟩ := seek_spec hmo
    (fun m => (yearStart year + monthStart year (m-1))*86400) (by simp [monthStart]) (by
      intro m hm hm'
      obtain ⟨m,rfl⟩ := Nat.exists_eq_add_one.2 hm
      simp only [Nat.add_sub_cancel,monthStart_succ (by omega : m<12),secDay]
      ring)
  obtain ⟨hd1,hd',rfl,hb2,-⟩ := seek_spec hd
    (fun d => (yearStart year + monthStart year (month-1) + (d-1))*86400) (by simp)
    (fun d _ _ => by push_cast; ring)
  obtain ⟨hh1,hh',rfl,hb3,ha⟩ := seek_spec hh
    (fun hr => (yearStart year + monthStart year (month-1) + (day-1))*86400 +
      (hr-1) * 3600) (by simp) (fun hr _ _ => by push_cast; ring)
  obtain ⟨month,rfl⟩ := Nat.exists_eq_add_one.2 hmo1
  obtain ⟨day,rfl⟩ := Nat.exists_eq_add_one.2 hd1
  obtain ⟨hour,rfl⟩ := Nat.exists_eq_add_one.2 hh1
  cases htm
  push_cast at *
  simp only [add_sub_cancel_right] at *
  have hni : monthStart year 0=0 := rfl
  refine ⟨year,month,day,hour,timeVal-((yearStart year + monthStart year month + day)*86400 + hour *
    3600),?_,?_,by omega,by omega,by omega,fun hn => ?_,by omega,by omega,rfl⟩
  · split at hy' <;> omega
  · simp only [yearStart] at hb
    split at hf <;> simp_all <;> omega
  rw [if_neg (by omega)] at hb
  have hyear_le : yearStart year * 86400≤timeVal := by
    rcases hb with rfl | hb
    · exact hn
    · exact hb
  have hmonth_le : (yearStart year + monthStart year month)*86400≤timeVal := by
    rcases hb1 with hz | hb
    · obtain rfl : month=0 := by omega
      rwa [hni,add_zero]
    · exact hb
  omega

private theorem daysOfYears_eq (n : Nat) : daysOfYears (1969+n) n=yearStart (1970+n) := by
  induction n with
  | zero => rfl
  | succ n ih =>
    have hl : (1969+(n+1 : Nat) : Int)=1970+n := by omega
    have hn : (1970+(n+1 : Nat) : Int)=1970+n+1 := by omega
    rw [daysOfYears,hl,hn,yearStart_succ,← ih,Int.add_comm]
    congr 2
    omega

private theorem secsOfYears_eq (year : Int) (hf : 1970≤year) (hto : year<2100) :
    secsOfYears (year-1)=yearStart year * 86400 := by
  obtain ⟨n,rfl⟩ : ∃ n : Nat, year=1970+n := ⟨(year-1970).toNat,by omega⟩
  have hl : (1970+n-1 : Int)=1969+n := by omega
  rw [secsOfYears,hl,add_sub_cancel_left,toNat_natCast,daysOfYears_eq]
  refine emod_eq_of_lt ?_ ?_ <;> simp only [yearStart] <;> omega

private theorem secsOfMonth_eq {month : Nat} (year : Int) (h : month≤12) :
    secsOfMonth (month+1) year=monthStart year month * secDay := by
  rw [secsOfMonth,Int.add_sub_cancel,toNat_natCast]
  congr 1
  induction month with
  | zero => rfl
  | succ month ih =>
    rw [range_succ,map_append,sum_append,ih (by omega),monthStart_succ h]
    simp

private theorem mktime_fillTime (h : fillTime time tzOffset=some tm) :
    mktime tm=time ↔ 0≤time+tzOffset := by
  obtain ⟨year,month,day,hour,remaining,hto,hn,hm,-,-,-,-,ht,rfl⟩ := fillTime_spec h
  have hsu := mul_tdiv_add_tmod remaining 60
  have hmo := secsOfMonth_eq year (Nat.le_of_lt hm)
  have hy : (year-1900+1899 : Int)=year-1 := by omega
  simp only [mktime,hy,sub_add_cancel,hmo,secDay]
  by_cases hf : year<1970
  · have hst : yearStart year<0 := by
      simp only [yearStart]
      omega
    have hs : secsOfYears (year-1)=0 := by
      rw [secsOfYears,toNat_of_nonpos (by omega)]
      rfl
    omega
  · have hs := secsOfYears_eq year (by omega) (by omega)
    omega

private theorem fillTime_isDate (h : fillTime time tzOffset=some tm) (hn : 0≤time+tzOffset) :
    IsDate tm (time+tzOffset) := by
  obtain ⟨year,month,day,hour,remaining,-,-,hm,hd,hh,hr,hlt,ht,rfl⟩ := fillTime_spec h
  have hmo := monthStart_nonneg month year
  have hy : (time+tzOffset - yearStart year * 86400).tdiv secDay=monthStart year month + day := by
    rw [secDay,tdiv_eq_ediv_of_nonneg (by omega)]
    omega
  rw [tmod_eq_emod_of_nonneg,tdiv_eq_ediv_of_nonneg]
  refine ⟨?_,?_,?_,?_,?_,?_,?_,?_⟩ <;>
    simp [monthStart_succ hm]
  any_goals omega
  rw [dayOfWeek,secDay,tdiv_eq_ediv_of_nonneg hn,tmod_eq_emod_of_nonneg (by omega), Int.add_comm]

/-- The weekday is rounded towards 1970, and `mktime` takes every year before 1970 for 1970. -/
theorem calendar_iff (h : fillTime time tzOffset = some tm) :
    (mktime tm = time ↔ 0 ≤ time+tzOffset) ∧
    (IsDate tm (time+tzOffset) ∧ mktime tm = time ↔ 0 ≤ time+tzOffset) := by
  have hm := mktime_fillTime h
  refine ⟨hm,fun hb => hm.1 hb.2,fun hn => ?_⟩
  exact ⟨fillTime_isDate h hn,hm.2 hn⟩

theorem calendar_iff_leapDay : ∃ tm, localtime 7200 951861599 = some tm ∧ tm.mday = 29 ∧
    tm.wday = 2 ∧ mktime tm = 951861599 := by
  have h : localtime 7200 951861599=some ⟨59,59,23,29,1,100,2,59,0,7200⟩ := by decide
  exact ⟨_,h,rfl,rfl,(calendar_iff h).1.2 (by decide)⟩

/-- The last second of 1969 is shown as a Thursday, and is taken back to the end of 1970. -/
theorem gmtime_before_epoch : ∃ tm, gmtime (-1) = some tm ∧ tm.year = 69 ∧ tm.wday = 4 ∧
    (4 + -1/86400 : Int) % 7 = 3 ∧ mktime tm = 31535999 :=
  ⟨⟨59,59,23,31,11,69,4,364,0,0⟩,by decide,rfl,rfl,by decide,by decide⟩
end RazionOS.Libc.Time
