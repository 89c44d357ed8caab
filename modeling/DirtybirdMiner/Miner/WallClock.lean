import DirtybirdMiner.Args.Rfc3339

/-!
The civil time of `src/term.rs`, the inverse of the day numbers of `block/src/arguments.rs`.
-/

namespace DirtybirdMiner.Miner.WallClock

open DirtybirdMiner.Lib.Calendar
open DirtybirdMiner.Args.Times
open DirtybirdMiner.Args.Rfc3339

/-- Broken-down civil time. -/
structure Civil where
  year : Int32
  month : UInt32
  day : UInt32
  hour : UInt32
  min : UInt32
  sec : UInt32
deriving DecidableEq

def civilFromEpoch (secs : Int64) : Civil :=
  let days := secs.toInt / 86400
  let rem := secs.toInt % 86400
  let z := days + 719468
  let era := z / 146097
  let doe := z % 146097
  let yoe := (doe - doe.tdiv 1460 + doe.tdiv 36524 - doe.tdiv 146096).tdiv 365
  let doy := doe - (365 * yoe + yoe.tdiv 4 - yoe.tdiv 100)
  let mp := (5 * doy + 2).tdiv 153
  let d := UInt32.ofInt (doy - (153 * mp + 2).tdiv 5 + 1)
  let m := UInt32.ofInt (mp + if mp < 10 then 3 else -9)
  let y := Int32.ofInt (yoe + era * 400 + if m ≤ 2 then 1 else 0)
  { year := y
    month := m
    day := d
    hour := UInt32.ofInt (rem.tdiv 3600)
    min := UInt32.ofInt ((rem.tmod 3600).tdiv 60)
    sec := UInt32.ofInt (rem.tmod 60) }

section Dates

/-- The year of an era, in a century of it. -/
theorem year_of_century {doe c q : Int} (hlo : 36524 * c ≤ doe) (hhi : doe < 36524 * c + 36524)
    (hc : 0 ≤ c ∧ c ≤ 3) (hq : q = (doe - doe / 1460 + c) / 365) :
    0 ≤ q ∧ q < 400 ∧ marchDays q ≤ doe ∧ doe < marchDays (q + 1) := by
  have hcentury : q / 100 = c := by omega
  -- `doe / 1460` is wrong by one at most where a leap year ends
  have hfours : c ≤ doe / 1460 := by omega
  have hbelow : q / 4 ≤ doe / 1460 := by omega
  have habove : doe / 1460 ≤ (q + 1) / 4 := by omega
  unfold marchDays
  refine ⟨by omega, by omega, by omega, ?_⟩
  by_cases hlast : (q + 1) / 100 = c
  · omega
  · have hnext : q + 1 = 100 * (c + 1) := by omega
    omega

/-- The year of an era that a day belongs to. -/
theorem year_of_era {doe : Int} (h : 0 ≤ doe ∧ doe < 146097) :
    let yoe := (doe - doe / 1460 + doe / 36524 - doe / 146096) / 365
    0 ≤ yoe ∧ yoe < 400 ∧ marchDays yoe ≤ doe ∧ doe < marchDays (yoe + 1) := by
  intro yoe
  by_cases hlast : doe = 146096
  · subst hlast
    decide
  · refine year_of_century (c := doe / 36524) ?_ ?_ ⟨?_, ?_⟩ ?_ <;> omega

/-- The month, counted from March, that a day of a year belongs to. -/
theorem month_of_year {y doy : Int} (h : 0 ≤ doy ∧ doy < yearDays (y + 1)) :
    let mp := (5 * doy + 2) / 153
    let d := doy - (153 * mp + 2) / 5 + 1
    let m := mp + if mp < 10 then 3 else -9
    (0 ≤ mp ∧ mp ≤ 11) ∧ 1 ≤ d ∧ d ≤ monthDays (if m ≤ 2 then y + 1 else y) m := by
  obtain ⟨hlo, hhi⟩ := h
  have hyear : doy ≤ 365 ∧ (doy = 365 → Leap (y + 1)) := by
    unfold yearDays at hhi
    split at hhi
    · rename_i hleap
      exact ⟨by omega, fun _ => hleap⟩
    · exact ⟨by omega, fun _ => by omega⟩
  have hmonth : 153 * ((5 * doy + 2) / 153) ≤ 5 * doy + 2 ∧
      5 * doy + 2 < 153 * ((5 * doy + 2) / 153) + 153 := by omega
  have hmp : 0 ≤ (5 * doy + 2) / 153 ∧ (5 * doy + 2) / 153 ≤ 11 := by omega
  refine ⟨hmp, ?_⟩
  generalize (5 * doy + 2) / 153 = mp at hmonth hmp
  obtain ⟨hmp0, hmp11⟩ := hmp
  unfold monthDays
  interval_cases mp <;> simp <;> try omega
  by_cases hlast : doy = 365
  · rw [if_pos (hyear.2 hlast)]
    omega
  · split <;> omega

/-- A year that begins in March has the leap day of the next one. -/
theorem marchDays_succ (y : Int) : marchDays (y + 1) = marchDays y + yearDays (y + 1) := by
  unfold marchDays yearDays
  by_cases hleap : Leap (y + 1)
  · rw [if_pos hleap]
    unfold Leap at hleap
    omega
  · rw [if_neg hleap]
    unfold Leap at hleap
    omega

theorem monthDays_add_era (y era m : Int) : monthDays (y + 400 * era) m = monthDays y m := by
  have hleap : Leap (y + 400 * era) ↔ Leap y := by
    unfold Leap
    omega
  unfold monthDays
  simp only [hleap]

theorem marchDays_add_era (y era : Int) :
    marchDays (y + 400 * era) = marchDays y + 146097 * era := by
  unfold marchDays
  omega

/-- The date that is computed from a day number. -/
theorem exists_date (days : Int) :
    let z := days + 719468
    let era := z / 146097
    let doe := z % 146097
    let yoe := (doe - doe / 1460 + doe / 36524 - doe / 146096) / 365
    let doy := doe - (365 * yoe + yoe / 4 - yoe / 100)
    let mp := (5 * doy + 2) / 153
    let m := mp + if mp < 10 then 3 else -9
    (0 ≤ yoe ∧ 0 ≤ doy ∧ 0 ≤ mp) ∧
    ∃ date : Date, dayNumber 1970 date = days ∧
      date.year = yoe + era * 400 + (if m ≤ 2 then 1 else 0) ∧ date.month = m ∧
      date.day = doy - (153 * mp + 2) / 5 + 1 := by
  intro z era doe yoe doy mp m
  have hdoe : 0 ≤ doe ∧ doe < 146097 := by omega
  obtain ⟨hyoe, hyoe400, hfirst, hnext⟩ := year_of_era hdoe
  change 0 ≤ yoe at hyoe
  change yoe < 400 at hyoe400
  change marchDays yoe ≤ doe at hfirst
  change doe < marchDays (yoe + 1) at hnext
  have hdoy : 0 ≤ doy ∧ doy < yearDays (yoe + 1) := by
    rw [marchDays_succ] at hnext
    unfold marchDays at hfirst hnext
    omega
  obtain ⟨⟨hmp0, hmp11⟩, hday⟩ := month_of_year hdoy
  change 0 ≤ mp at hmp0
  change mp ≤ 11 at hmp11
  change 1 ≤ doy - (153 * mp + 2) / 5 + 1 ∧ doy - (153 * mp + 2) / 5 + 1 ≤
    monthDays (if m ≤ 2 then yoe + 1 else yoe) m at hday
  have hm : m = mp + if mp < 10 then 3 else -9 := rfl
  have hyear : yoe + era * 400 + (if m ≤ 2 then 1 else 0) =
      (if m ≤ 2 then yoe + 1 else yoe) + 400 * era := by
    split <;> omega
  have hmonth : 1 ≤ m ∧ m ≤ 12 := by
    rw [hm]
    split <;> omega
  refine ⟨⟨hyoe, hdoy.1, hmp0⟩, ⟨_, m, _, hmonth, ?_⟩, ?_, hyear.symm, rfl, rfl⟩
  · rw [monthDays_add_era]
    exact hday
  · have hmarchYear : marchYear ((if m ≤ 2 then yoe + 1 else yoe) + 400 * era) m =
        yoe + 400 * era := by
      unfold marchYear
      split <;> omega
    have hmarchMonth : marchMonth m = mp := by
      unfold marchMonth
      rw [hm]
      split_ifs <;> omega
    have hepoch : marchDays (1970 - 1) + 306 = 719468 := by decide
    have hdays : days = doe + 146097 * era - 719468 := by omega
    rw [dayNumber_march, hmarchYear, hmarchMonth, marchDays_add_era, hepoch, hdays]
    dsimp only
    unfold marchDays
    omega

end Dates

section Instants

/-- The fields of a civil time are those of an instant. -/
structure Civil.Shows (c : Civil) (t : Instant) : Prop where
  year : c.year.toInt = t.year
  month : (c.month.toNat : Int) = t.month
  day : (c.day.toNat : Int) = t.day
  hour : (c.hour.toNat : Int) = t.hour
  min : (c.min.toNat : Int) = t.minute
  sec : (c.sec.toNat : Int) = t.second

/-- The year of a number of seconds fits 32 bits. -/
def YearFits (secs : Int64) : Prop :=
  ∃ t : Instant, secondNumber 1970 t = secs.toInt ∧ -(2 ^ 31) ≤ t.year ∧ t.year < 2 ^ 31

theorem toNat_ofInt {n : Int} (h : 0 ≤ n ∧ n < 2 ^ 32) : ((UInt32.ofInt n).toNat : Int) = n := by
  rw [UInt32.ofInt, UInt32.toNat_ofNat']
  omega

/-- The quotients of the source are of numbers that are not negative. -/
theorem civilFromEpoch_eq (secs : Int64) {era doe yoe doy mp rem : Int}
    (hera : era = (secs.toInt / 86400 + 719468) / 146097)
    (hdoe : doe = (secs.toInt / 86400 + 719468) % 146097)
    (hyoe : yoe = (doe - doe / 1460 + doe / 36524 - doe / 146096) / 365)
    (hdoy : doy = doe - (365 * yoe + yoe / 4 - yoe / 100)) (hmp : mp = (5 * doy + 2) / 153)
    (hrem : rem = secs.toInt % 86400) (hnonneg : 0 ≤ yoe ∧ 0 ≤ doy ∧ 0 ≤ mp) :
    civilFromEpoch secs =
      { year := Int32.ofInt (yoe + era * 400 +
          if UInt32.ofInt (mp + if mp < 10 then 3 else -9) ≤ 2 then 1 else 0)
        month := UInt32.ofInt (mp + if mp < 10 then 3 else -9)
        day := UInt32.ofInt (doy - (153 * mp + 2) / 5 + 1)
        hour := UInt32.ofInt (rem / 3600)
        min := UInt32.ofInt (rem % 3600 / 60)
        sec := UInt32.ofInt (rem % 60) } := by
  have hpos : 0 ≤ doe ∧ doe < 146097 := by omega
  have hrempos : 0 ≤ rem := by omega
  have hyears : (doe - doe.tdiv 1460 + doe.tdiv 36524 - doe.tdiv 146096).tdiv 365 = yoe := by
    rw [Int.tdiv_eq_ediv_of_nonneg hpos.1, Int.tdiv_eq_ediv_of_nonneg hpos.1,
      Int.tdiv_eq_ediv_of_nonneg hpos.1, Int.tdiv_eq_ediv_of_nonneg (by omega), ← hyoe]
  have hdays : doe - (365 * yoe + yoe.tdiv 4 - yoe.tdiv 100) = doy := by
    rw [Int.tdiv_eq_ediv_of_nonneg hnonneg.1, Int.tdiv_eq_ediv_of_nonneg hnonneg.1, ← hdoy]
  have hmonths : (5 * doy + 2).tdiv 153 = mp := by
    rw [Int.tdiv_eq_ediv_of_nonneg (by omega), ← hmp]
  have hmod : ∀ n, rem.tmod n = rem % n := fun n => Int.tmod_eq_emod_of_nonneg hrempos
  unfold civilFromEpoch
  simp only [← hera, ← hdoe, hyears, hdays, hmonths, ← hrem, hmod]
  rw [Int.tdiv_eq_ediv_of_nonneg (show 0 ≤ 153 * mp + 2 by omega),
    Int.tdiv_eq_ediv_of_nonneg hrempos,
    Int.tdiv_eq_ediv_of_nonneg (show 0 ≤ rem % 3600 from Int.emod_nonneg _ (by decide))]

/-- The instant that is computed from a number of seconds. -/
theorem civilFromEpoch_shows {secs : Int64} (h : YearFits secs) :
    ∃ t, (civilFromEpoch secs).Shows t ∧ secondNumber 1970 t = secs.toInt := by
  obtain ⟨t', hseconds, hyear⟩ := h
  have hdate := exists_date (secs.toInt / 86400)
  dsimp only at hdate
  generalize hera : (secs.toInt / 86400 + 719468) / 146097 = era at hdate
  generalize hdoe : (secs.toInt / 86400 + 719468) % 146097 = doe at hdate
  generalize hyoe : (doe - doe / 1460 + doe / 36524 - doe / 146096) / 365 = yoe at hdate
  generalize hdoy : doe - (365 * yoe + yoe / 4 - yoe / 100) = doy at hdate
  generalize hmp : (5 * doy + 2) / 153 = mp at hdate
  obtain ⟨hnonneg, date, hdays, hy, hm, hd⟩ := hdate
  have hrem : 0 ≤ secs.toInt % 86400 ∧ secs.toInt % 86400 < 86400 := by omega
  have hdays' : dayNumber 1970 t'.toDate = secs.toInt / 86400 := by
    have hhour := t'.hour_mem
    have hminute := t'.minute_mem
    have hsecond := t'.second_mem
    unfold secondNumber at hseconds
    omega
  have hsame : date.year = t'.year := by
    have hmem := dayNumber_mem_year 1970 date
    have hmem' := dayNumber_mem_year 1970 t'.toDate
    rw [hdays] at hmem
    rw [hdays'] at hmem'
    exact year_unique hmem hmem'
  let t : Instant :=
    { toDate := date, hour := secs.toInt % 86400 / 3600, minute := secs.toInt % 86400 % 3600 / 60,
      second := secs.toInt % 86400 % 60, hour_mem := by omega, minute_mem := by omega,
      second_mem := by omega }
  have hmonth := date.month_mem
  have hday : 1 ≤ date.day ∧ date.day ≤ 31 := by
    have hmem := date.day_mem
    unfold monthDays at hmem
    split_ifs at hmem <;> omega
  have hcivil := civilFromEpoch_eq secs hera.symm hdoe.symm hyoe.symm hdoy.symm hmp.symm rfl
    hnonneg
  rw [← hm, ← hd] at hcivil
  have htwo : UInt32.ofInt date.month ≤ 2 ↔ date.month ≤ 2 := by
    have hcast := toNat_ofInt (show 0 ≤ date.month ∧ date.month < 2 ^ 32 by omega)
    rw [UInt32.le_iff_toNat_le]
    have h2 : (2 : UInt32).toNat = 2 := rfl
    omega
  rw [← hm] at hy
  simp only [htwo, ← hy] at hcivil
  refine ⟨t, ?_, ?_⟩
  · rw [hcivil]
    exact
      { year := Int32.toInt_ofInt_of_le (by omega) (by omega)
        month := toNat_ofInt (by omega)
        day := toNat_ofInt (by omega)
        hour := toNat_ofInt (by omega)
        min := toNat_ofInt (by omega)
        sec := toNat_ofInt (by omega) }
  · change dayNumber 1970 date * 86400 + secs.toInt % 86400 / 3600 * 3600 +
      secs.toInt % 86400 % 3600 / 60 * 60 + secs.toInt % 86400 % 60 = secs.toInt
    rw [hdays]
    omega

/-- Days of the calendar and the time of day give the number of seconds back. -/
theorem Civil.Shows.seconds {c : Civil} {t : Instant} (h : c.Shows t) :
    daysFromCivil c.year.toInt c.month.toNat c.day.toNat * 86400 + c.hour.toNat * 3600 +
      c.min.toNat * 60 + c.sec.toNat = secondNumber 1970 t := by
  rw [h.year, h.month, h.day, h.hour, h.min, h.sec, daysFromCivil_eq]
  rfl

/-- Times are parsed as the grammar says, to the seconds counted in the calendar, and the civil
time of a number of seconds is the instant with that number. -/
theorem times_exact :
    (∀ (text : List UInt8) (seconds : Int64), goParseRfc3339 text = .ok seconds ↔
      ∃ t offset, Writes text t offset ∧ seconds.toInt = secondNumber 1970 t - offset) ∧
    (∀ secs, YearFits secs →
      (∃ t, (civilFromEpoch secs).Shows t ∧ secondNumber 1970 t = secs.toInt) ∧
      daysFromCivil (civilFromEpoch secs).year.toInt (civilFromEpoch secs).month.toNat
          (civilFromEpoch secs).day.toNat * 86400 + (civilFromEpoch secs).hour.toNat * 3600 +
        (civilFromEpoch secs).min.toNat * 60 + (civilFromEpoch secs).sec.toNat = secs.toInt) ∧
    ∀ secs secs', YearFits secs → YearFits secs' → civilFromEpoch secs = civilFromEpoch secs' →
      secs = secs' := by
  refine ⟨goParseRfc3339_iff, ?_, ?_⟩
  · intro secs h
    obtain ⟨t, hshows, hseconds⟩ := civilFromEpoch_shows h
    exact ⟨⟨t, hshows, hseconds⟩, hshows.seconds.trans hseconds⟩
  · intro secs secs' h h' heq
    obtain ⟨t, hshows, hseconds⟩ := civilFromEpoch_shows h
    obtain ⟨t', hshows', hseconds'⟩ := civilFromEpoch_shows h'
    rw [← Int64.toInt_inj, ← hseconds, ← hseconds', ← hshows.seconds, ← hshows'.seconds, heq]

/-- The last second before the epoch. -/
theorem times_exact_before_epoch :
    ∃ t, (civilFromEpoch (-1)).Shows t ∧ secondNumber 1970 t = -1 := by
  let t : Instant :=
    { year := 1969, month := 12, day := 31, month_mem := by decide, day_mem := by decide,
      hour := 23, minute := 59, second := 59, hour_mem := by decide, minute_mem := by decide,
      second_mem := by decide }
  have hseconds : secondNumber 1970 t = -1 := by
    rw [secondNumber, dayNumber_march]
    decide
  exact (times_exact.2.1 (-1) ⟨t, hseconds, by decide⟩).1

end Instants

end DirtybirdMiner.Miner.WallClock
