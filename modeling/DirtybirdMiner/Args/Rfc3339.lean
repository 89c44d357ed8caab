import DirtybirdMiner.Args.Times
import DirtybirdMiner.Lib.Calendar
import Mathlib.Data.List.TakeWhile

/-!
The texts that `go_parse_rfc3339` of `block/src/arguments.rs` accepts, as a grammar, and the day
numbers that it computes, as days of the calendar.
-/

namespace DirtybirdMiner.Args.Rfc3339

open DirtybirdMiner.Lib.Calendar
open DirtybirdMiner.Args.Times

section Days

theorem isLeap_iff (y : Int) : isLeap y = true ↔ Leap y := by
  have hdvd : ∀ n : Int, y.tmod n = 0 ↔ n ∣ y := fun n => (Int.dvd_iff_tmod_eq_zero).symm
  unfold isLeap Leap
  rw [decide_eq_true_iff, hdvd, hdvd, Ne, hdvd]

theorem daysIn_eq {m : Int} (y : Int) (hm : 1 ≤ m ∧ m ≤ 12) : daysIn m y = monthDays y m := by
  obtain ⟨hlo, hhi⟩ := hm
  unfold daysIn monthDays
  simp only [isLeap_iff]
  interval_cases m <;> simp

/-- The source's computation in quotients that are rounded down. -/
theorem daysFromCivil_march (y m d : Int) (hm : 1 ≤ m) :
    daysFromCivil y m d = marchDays (marchYear y m) + (153 * marchMonth m + 2) / 5 + (d - 1) -
      (marchDays 1969 + 306) := by
  have hmonth : (if m > 2 then m - 3 else m + 9) = marchMonth m := by
    unfold marchMonth
    split_ifs <;> omega
  have hnonneg : 0 ≤ 153 * marchMonth m + 2 := by
    unfold marchMonth
    split_ifs <;> omega
  have hyear : (if m ≤ 2 then y - 1 else y) = marchYear y m := rfl
  have hera : (if marchYear y m ≥ 0 then marchYear y m else marchYear y m - 399).tdiv 400 =
      marchYear y m / 400 := by
    generalize marchYear y m = y'
    split
    · rw [Int.tdiv_eq_ediv_of_nonneg ‹_›]
    · have hsign : Int.sign 400 = 1 := rfl
      rw [Int.tdiv_eq_ediv, hsign]
      split <;> omega
  have hyoe : 0 ≤ marchYear y m - marchYear y m / 400 * 400 := by omega
  unfold daysFromCivil
  simp only [hyear, hera, hmonth, Int.tdiv_eq_ediv_of_nonneg hnonneg,
    Int.tdiv_eq_ediv_of_nonneg hyoe]
  unfold marchDays
  omega

/-- The days from the first of January 1970. -/
theorem daysFromCivil_eq (date : Date) :
    daysFromCivil date.year date.month date.day = dayNumber 1970 date := by
  rw [daysFromCivil_march _ _ _ date.month_mem.1, dayNumber_march]
  rfl

end Days

section Grammar

/-- Some digits, and the number they stand for. -/
structure Numeral (width : Nat) (text : List UInt8) (n : Int) : Prop where
  length_eq : text.length = width
  digits : ∀ b ∈ text, isAsciiDigit b = true
  value : n = text.foldl (fun acc b => acc * 10 + digitValue b) 0

/-- Nothing, or a point or a comma before digits. -/
inductive Fraction : List UInt8 → Prop
  | none : Fraction []
  | digits (c d : UInt8) (ds : List UInt8) (hc : c = 46 ∨ c = 44)
      (hds : ∀ b ∈ d :: ds, isAsciiDigit b = true) : Fraction (c :: d :: ds)

/-- The time zone and its offset in seconds. -/
inductive Zone : List UInt8 → Int → Prop
  | utc : Zone (ascii "Z") 0
  | east {hh mm : List UInt8} {h m : Int} (hour : Numeral 2 hh h) (minute : Numeral 2 mm m)
      (hour_le : h ≤ 24) (minute_le : m ≤ 60) :
      Zone (ascii "+" ++ (hh ++ ascii ":" ++ mm)) ((h * 60 + m) * 60)
  | west {hh mm : List UInt8} {h m : Int} (hour : Numeral 2 hh h) (minute : Numeral 2 mm m)
      (hour_le : h ≤ 24) (minute_le : m ≤ 60) :
      Zone (ascii "-" ++ (hh ++ ascii ":" ++ mm)) (-((h * 60 + m) * 60))

/-- The texts of an instant with an offset. -/
def Writes (text : List UInt8) (t : Instant) (offset : Int) : Prop :=
  ∃ yyyy mm dd h mi s frac z,
    text = yyyy ++ (ascii "-" ++ (mm ++ (ascii "-" ++ (dd ++ (ascii "T" ++ (h ++ (ascii ":" ++
      (mi ++ (ascii ":" ++ (s ++ (frac ++ z))))))))))) ∧
    Numeral 4 yyyy t.year ∧ Numeral 2 mm t.month ∧ Numeral 2 dd t.day ∧
    (Numeral 1 h t.hour ∨ Numeral 2 h t.hour) ∧ Numeral 2 mi t.minute ∧ Numeral 2 s t.second ∧
    Fraction frac ∧ Zone z offset

theorem digitValue_mem {b : UInt8} (h : isAsciiDigit b = true) :
    0 ≤ digitValue b ∧ digitValue b ≤ 9 := by
  rw [isAsciiDigit, decide_eq_true_iff, UInt8.le_iff_toNat_le, UInt8.le_iff_toNat_le] at h
  have hlo : (48 : UInt8).toNat = 48 := rfl
  have hhi : (57 : UInt8).toNat = 57 := rfl
  unfold digitValue
  omega

/-- A numeral stands for a number with as many digits. -/
theorem Numeral.mem {width : Nat} {text : List UInt8} {n : Int} (h : Numeral width text n) :
    0 ≤ n ∧ n < 10 ^ width := by
  obtain ⟨rfl, hdigits, rfl⟩ := h
  induction text using List.reverseRecOn with
  | nil => simp
  | append_singleton text b ih =>
      have hb := digitValue_mem (hdigits b (by simp))
      have htext := ih fun c hc => hdigits c (by simp [hc])
      rw [List.foldl_append, List.length_append, pow_add]
      simp only [List.foldl_cons, List.foldl_nil, List.length_singleton, pow_one]
      omega

end Grammar

section Stages

variable {avalue v rest : List UInt8}

theorem ascii_singleton (c : Char) : ascii c.toString = [UInt8.ofNat c.toNat] := by
  simp [ascii]

theorem literal_eq_ok_iff (c : Char) :
    literal avalue c v = .ok rest ↔ v = ascii c.toString ++ rest := by
  rw [ascii_singleton]
  cases v with
  | nil => simp [literal]
  | cons b v =>
      unfold literal
      by_cases hb : b = UInt8.ofNat c.toNat
      · simp [hb]
      · simp [hb]

theorem numeral_one {b : UInt8} (hb : isAsciiDigit b = true) : Numeral 1 [b] (digitValue b) :=
  ⟨rfl, by simp [hb], by simp⟩

theorem numeral_two {b c : UInt8} (hb : isAsciiDigit b = true) (hc : isAsciiDigit c = true) :
    Numeral 2 [b, c] (digitValue b * 10 + digitValue c) :=
  ⟨rfl, by simp [hb, hc], by simp⟩

theorem getnum_of_numeral_two {text : List UInt8} {n : Int} (h : Numeral 2 text n) (fixed : Bool) :
    getnum (text ++ rest) fixed = some (n, rest) := by
  obtain ⟨hlength, hdigits, rfl⟩ := h
  obtain ⟨b, c, rfl⟩ := List.length_eq_two.mp hlength
  have hb := hdigits b (by simp)
  have hc := hdigits c (by simp)
  simp [getnum, hb, hc]

/-- What is read are two digits, or one where one is allowed and no other follows. -/
theorem getnum_eq_some {fixed : Bool} {n : Int} (h : getnum v fixed = some (n, rest)) :
    (∃ text, v = text ++ rest ∧ Numeral 2 text n) ∨
      fixed = false ∧ ∃ text, v = text ++ rest ∧ Numeral 1 text n := by
  unfold getnum at h
  split at h
  · cases h
  rename_i b tail
  split at h
  · cases h
  rename_i hb
  rw [Bool.not_eq_true', Bool.not_eq_false] at hb
  split at h
  · rename_i c tail'
    split at h
    · rename_i hc
      cases h
      exact .inl ⟨[b, c], rfl, numeral_two hb hc⟩
    · split at h
      · cases h
      · rename_i hfixed
        cases h
        exact .inr ⟨by simpa using hfixed, [b], rfl, numeral_one hb⟩
  · split at h
    · cases h
    · rename_i hfixed
      cases h
      exact .inr ⟨by simpa using hfixed, [b], rfl, numeral_one hb⟩

theorem getnum_fixed_iff {n : Int} :
    getnum v true = some (n, rest) ↔ ∃ text, v = text ++ rest ∧ Numeral 2 text n := by
  constructor
  · intro h
    rcases getnum_eq_some h with htwo | ⟨hfalse, -⟩
    · exact htwo
    · cases hfalse
  · rintro ⟨text, rfl, hnumeral⟩
    exact getnum_of_numeral_two hnumeral true

theorem numeral_of_getnum_unfixed {n : Int} (h : getnum v false = some (n, rest)) :
    ∃ text, v = text ++ rest ∧ (Numeral 1 text n ∨ Numeral 2 text n) := by
  rcases getnum_eq_some h with ⟨text, heq, hnumeral⟩ | ⟨-, text, heq, hnumeral⟩
  · exact ⟨text, heq, .inr hnumeral⟩
  · exact ⟨text, heq, .inl hnumeral⟩

/-- One digit is read where no other follows. -/
theorem getnum_of_numeral_one {text : List UInt8} {n : Int} (h : Numeral 1 text n) {c : UInt8}
    (hc : isAsciiDigit c = false) : getnum (text ++ c :: rest) false = some (n, c :: rest) := by
  obtain ⟨hlength, hdigits, rfl⟩ := h
  obtain ⟨b, rfl⟩ := List.length_eq_one_iff.mp hlength
  have hb := hdigits b (by simp)
  simp [getnum, hb, hc]

theorem element_eq_ok_iff (layoutElem : String) (fixed : Bool) {n : Int} :
    element avalue layoutElem fixed v = .ok (n, rest) ↔ getnum v fixed = some (n, rest) := by
  unfold element
  cases getnum v fixed with
  | none => simp
  | some r => simp

theorem longYear_eq_ok_iff {n : Int} :
    longYear avalue v = .ok (n, rest) ↔ ∃ text, v = text ++ rest ∧ Numeral 4 text n := by
  constructor
  · intro h
    unfold longYear at h
    split at h
    · cases h
    rename_i hlength
    split at h
    · cases h
    rename_i hdigits
    cases h
    refine ⟨v.take 4, (List.take_append_drop 4 v).symm, ?_, ?_, rfl⟩
    · rw [List.length_take]
      omega
    · simpa using hdigits
  · rintro ⟨text, rfl, hlength, hdigits, rfl⟩
    have htake : (text ++ rest).take 4 = text := List.take_left' hlength
    have hdrop : (text ++ rest).drop 4 = rest := List.drop_left' hlength
    have hfirst : digit (text ++ rest) 0 = true := by
      cases text with
      | nil => cases hlength
      | cons b text => simpa [digit] using hdigits b (by simp)
    unfold longYear
    rw [htake, hdrop, if_neg (by rw [hfirst, List.length_append]; simp; omega),
      if_neg (by simpa using hdigits)]

/-- A fraction is dropped. -/
theorem skipFraction_spec (v : List UInt8) : ∃ frac, v = frac ++ skipFraction v ∧ Fraction frac := by
  unfold skipFraction
  split
  · rename_i c d tail
    split
    · rename_i hcond
      refine ⟨c :: d :: tail.takeWhile isAsciiDigit, ?_, .digits c d _ hcond.1 ?_⟩
      · simp
      · intro b hb
        rcases List.mem_cons.mp hb with rfl | hb
        · exact hcond.2
        · exact List.mem_takeWhile_imp hb
    · exact ⟨[], rfl, .none⟩
  · exact ⟨[], rfl, .none⟩

/-- A zone begins with no character of a fraction. -/
theorem Zone.head {z : List UInt8} {offset : Int} (h : Zone z offset) :
    ∃ c tail, z = c :: tail ∧ c ≠ 46 ∧ c ≠ 44 ∧ isAsciiDigit c = false := by
  cases h with
  | utc => exact ⟨90, [], by simp [ascii], by decide, by decide, by decide⟩
  | east => exact ⟨43, _, rfl, by decide, by decide, by decide⟩
  | west => exact ⟨45, _, rfl, by decide, by decide, by decide⟩

theorem skipFraction_append {frac z : List UInt8} {offset : Int} (hfrac : Fraction frac)
    (hz : Zone z offset) : skipFraction (frac ++ z) = z := by
  obtain ⟨e, tail, rfl, hpoint, hcomma, hdigit⟩ := hz.head
  cases hfrac with
  | none =>
      unfold skipFraction
      cases tail with
      | nil => rfl
      | cons d tail => simp [hpoint, hcomma]
  | digits c d ds hc hds =>
      rw [List.forall_mem_cons] at hds
      simp only [List.cons_append, skipFraction]
      rw [if_pos ⟨hc, hds.1⟩, List.dropWhile_append_of_pos hds.2, List.dropWhile_cons_of_neg]
      rw [hdigit]
      decide

theorem numeral_of_getnum {a b : UInt8} {n : Int} (h : getnum [a, b] true = some (n, rest)) :
    Numeral 2 [a, b] n := by
  obtain ⟨text, heq, hnumeral⟩ := getnum_fixed_iff.mp h
  have hlength := congrArg List.length heq
  rw [List.length_append, hnumeral.length_eq] at hlength
  have hrest : rest = [] := List.length_eq_zero_iff.mp (by simpa using hlength.symm)
  rw [hrest, List.append_nil] at heq
  rwa [heq]

/-- The offset of a sign and two numerals. -/
theorem zone_signed {sign : UInt8} {hh mm : List UInt8} {h m : Int} (hz : sign ≠ 90)
    (hh2 : Numeral 2 hh h) (mm2 : Numeral 2 mm m) (hh24 : h ≤ 24) (hm60 : m ≤ 60) :
    zone avalue (sign :: (hh ++ (58 :: (mm ++ rest)))) =
      if sign = 43 then .ok ((h * 60 + m) * 60, rest)
      else if sign = 45 then .ok (-((h * 60 + m) * 60), rest)
      else .error (cannot avalue "Z07:00" (sign :: (hh ++ (58 :: (mm ++ rest))))) := by
  have hhour := @getnum_of_numeral_two [] _ _ hh2 true
  have hminute := @getnum_of_numeral_two [] _ _ mm2 true
  obtain ⟨a, b, rfl⟩ := List.length_eq_two.mp hh2.length_eq
  obtain ⟨c, d, rfl⟩ := List.length_eq_two.mp mm2.length_eq
  rw [List.append_nil] at hhour hminute
  simp only [List.cons_append, List.nil_append]
  unfold zone
  split
  · rename_i heq
    cases heq
    exact absurd rfl hz
  · rename_i heq
    cases heq
    rw [hhour, hminute]
    dsimp only
    rw [if_neg (not_lt.mpr hh24), if_neg (not_lt.mpr hm60)]
  · rename_i hno
    exact absurd rfl (hno _ _ _ _ _ _)

theorem zone_eq_ok_iff {o : Int} :
    zone avalue v = .ok (o, rest) ↔ ∃ z, v = z ++ rest ∧ Zone z o := by
  constructor
  · intro h
    unfold zone at h
    split at h
    · cases h
      exact ⟨ascii "Z", rfl, .utc⟩
    · rename_i sign h1 h2 m1 m2 tail
      split at h
      · cases h
      rename_i hr left hhour
      split at h
      · cases h
      rename_i mm left' hminute
      split at h
      · cases h
      rename_i hle
      split at h
      · cases h
      rename_i hle'
      have hh2 := numeral_of_getnum hhour
      have mm2 := numeral_of_getnum hminute
      split at h
      · rename_i hsign
        cases h
        exact ⟨_, by rw [hsign]; rfl, .east hh2 mm2 (not_lt.mp hle) (not_lt.mp hle')⟩
      · split at h
        · rename_i hsign
          cases h
          exact ⟨_, by rw [hsign]; rfl, .west hh2 mm2 (not_lt.mp hle) (not_lt.mp hle')⟩
        · cases h
    · cases h
  · rintro ⟨z, rfl, hz⟩
    cases hz with
    | utc => rfl
    | @east hh mm h m hh2 mm2 hh24 hm60 =>
        have hread := @zone_signed avalue rest 43 _ _ _ _ (by decide) hh2 mm2 hh24 hm60
        rw [if_pos rfl] at hread
        rw [List.append_assoc, List.append_assoc, List.append_assoc]
        exact hread
    | @west hh mm h m hh2 mm2 hh24 hm60 =>
        have hread := @zone_signed avalue rest 45 _ _ _ _ (by decide) hh2 mm2 hh24 hm60
        rw [if_neg (by decide), if_pos rfl] at hread
        rw [List.append_assoc, List.append_assoc, List.append_assoc]
        exact hread

end Stages

section Parse

variable {avalue : List UInt8}

theorem bind_eq_ok_iff {ε α β : Type} {x : Except ε α} {f : α → Except ε β} {b : β} :
    x >>= f = .ok b ↔ ∃ a, x = .ok a ∧ f a = .ok b := by
  cases x with
  | error e => simp [bind, Except.bind]
  | ok a => simp [bind, Except.bind]

/-- A check that has been passed. -/
theorem check_eq_ok_iff {ε α β : Type} {c : Prop} [Decidable c] {e : ε} {f : α → Except ε β}
    {x : Except ε β} {b : β} :
    (if c then Except.error e >>= f else x) = .ok b ↔ ¬c ∧ x = .ok b := by
  split
  · rename_i hc
    exact iff_of_false (fun h => nomatch h) fun h => h.1 hc
  · rename_i hc
    exact (and_iff_right hc).symm

/-- What the parser goes through for a result. -/
theorem goParseRfc3339_eq_ok_iff (seconds : Int64) :
    goParseRfc3339 avalue = .ok seconds ↔
      ∃ year v, longYear avalue avalue = .ok (year, v) ∧
      ∃ v1, literal avalue '-' v = .ok v1 ∧
      ∃ month v2, element avalue "01" true v1 = .ok (month, v2) ∧ (1 ≤ month ∧ month ≤ 12) ∧
      ∃ v3, literal avalue '-' v2 = .ok v3 ∧
      ∃ day v4, element avalue "02" true v3 = .ok (day, v4) ∧
      ∃ v5, literal avalue 'T' v4 = .ok v5 ∧
      ∃ hour v6, element avalue "15" false v5 = .ok (hour, v6) ∧ hour < 24 ∧
      ∃ v7, literal avalue ':' v6 = .ok v7 ∧
      ∃ min v8, element avalue "04" true v7 = .ok (min, v8) ∧ min < 60 ∧
      ∃ v9, literal avalue ':' v8 = .ok v9 ∧
      ∃ sec v10, element avalue "05" true v9 = .ok (sec, v10) ∧ sec < 60 ∧
      ∃ offset left, zone avalue (skipFraction v10) = .ok (offset, left) ∧ left = [] ∧
        (1 ≤ day ∧ day ≤ daysIn month year) ∧
        Int64.ofInt
          (daysFromCivil year month day * 86400 + hour * 3600 + min * 60 + sec - offset) =
            seconds := by
  unfold goParseRfc3339
  simp only [↓check_eq_ok_iff, ↓bind_eq_ok_iff, Prod.exists, pure, Except.pure, Except.ok.injEq,
    not_not, not_le, not_lt, not_or, ne_eq, ge_iff_le, gt_iff_lt]

theorem Zone.mem {z : List UInt8} {offset : Int} (h : Zone z offset) :
    -90000 ≤ offset ∧ offset ≤ 90000 := by
  cases h with
  | utc => decide
  | east hour minute hour_le minute_le =>
      have hh := hour.mem
      have hm := minute.mem
      omega
  | west hour minute hour_le minute_le =>
      have hh := hour.mem
      have hm := minute.mem
      omega

/-- The seconds of a year of four digits. -/
theorem secondNumber_mem {t : Instant} (h : 0 ≤ t.year ∧ t.year < 10 ^ 4) :
    -(2 ^ 40) ≤ secondNumber 1970 t ∧ secondNumber 1970 t < 2 ^ 40 := by
  have hyear := dayNumber_mem_year 1970 t.toDate
  rw [total_yearDays, total_yearDays] at hyear
  have hhour := t.hour_mem
  have hminute := t.minute_mem
  have hsecond := t.second_mem
  unfold secondNumber
  omega

/-- Texts are parsed as the grammar says, to the seconds counted in the calendar. -/
theorem goParseRfc3339_iff (text : List UInt8) (seconds : Int64) :
    goParseRfc3339 text = .ok seconds ↔
      ∃ t offset, Writes text t offset ∧ seconds.toInt = secondNumber 1970 t - offset := by
  have hvalue : ∀ (t : Instant) (offset : Int) {text : List UInt8}, Writes text t offset →
      (Int64.ofInt (daysFromCivil t.year t.month t.day * 86400 + t.hour * 3600 + t.minute * 60 +
        t.second - offset)).toInt = secondNumber 1970 t - offset := by
    rintro t offset text ⟨yyyy, -, -, -, -, -, -, z, -, hyear, -, -, -, -, -, -, hz⟩
    have hmem := secondNumber_mem hyear.mem
    have hoffset := hz.mem
    rw [daysFromCivil_eq]
    exact Int64.toInt_ofInt_of_le (by unfold secondNumber at hmem; omega)
      (by unfold secondNumber at hmem; omega)
  rw [goParseRfc3339_eq_ok_iff]
  simp only [longYear_eq_ok_iff, literal_eq_ok_iff, element_eq_ok_iff, getnum_fixed_iff,
    zone_eq_ok_iff]
  constructor
  · rintro ⟨year, v, ⟨yyyy, htext, hyear⟩, v1, rfl, month, v2, ⟨mm, rfl, hmonth⟩, hmonth12, v3, rfl,
      day, v4, ⟨dd, rfl, hday⟩, v5, rfl, hour, v6, hhour, hhour24, v7, rfl, min, v8, ⟨mi, rfl, hmin⟩,
      hmin60, v9, rfl, sec, v10, ⟨s, rfl, hsec⟩, hsec60, offset, left, ⟨z, hzone, hz⟩, rfl, hdays,
      hseconds⟩
    rw [daysIn_eq year hmonth12] at hdays
    obtain ⟨h, rfl, hnumeral⟩ := numeral_of_getnum_unfixed hhour
    obtain ⟨frac, hfrac, hfraction⟩ := skipFraction_spec v10
    rw [hzone, List.append_nil] at hfrac
    have hpos : 0 ≤ hour := hnumeral.elim (fun h => h.mem.1) fun h => h.mem.1
    let t : Instant :=
      { year, month, day, month_mem := hmonth12, day_mem := hdays, hour, minute := min,
        second := sec, hour_mem := ⟨hpos, hhour24⟩, minute_mem := ⟨hmin.mem.1, hmin60⟩,
        second_mem := ⟨hsec.mem.1, hsec60⟩ }
    have hwrites : Writes text t offset :=
      ⟨yyyy, mm, dd, h, mi, s, frac, z, by rw [htext, hfrac]; rfl, hyear, hmonth, hday, hnumeral,
        hmin, hsec, hfraction, hz⟩
    exact ⟨t, offset, hwrites, by rw [← hseconds]; exact hvalue t offset hwrites⟩
  · rintro ⟨t, offset, hwrites, hseconds⟩
    have hsame := hvalue t offset hwrites
    obtain ⟨yyyy, mm, dd, h, mi, s, frac, z, htext, hyear, hmonth, hday, hhour, hmin, hsec,
      hfraction, hz⟩ := hwrites
    have hread : getnum (h ++ (ascii ":" ++ (mi ++ (ascii ":" ++ (s ++ (frac ++ z)))))) false =
        some (t.hour, ascii ":" ++ (mi ++ (ascii ":" ++ (s ++ (frac ++ z))))) := by
      rcases hhour with hone | htwo
      · exact getnum_of_numeral_one hone (by decide)
      · exact getnum_of_numeral_two htwo false
    refine ⟨t.year, _, ⟨yyyy, htext, hyear⟩, _, rfl, t.month, _, ⟨mm, rfl, hmonth⟩, t.month_mem, _,
      rfl, t.day, _, ⟨dd, rfl, hday⟩, _, rfl, t.hour, _, hread, t.hour_mem.2, _, rfl, t.minute, _,
      ⟨mi, rfl, hmin⟩, t.minute_mem.2, _, rfl, t.second, _, ⟨s, rfl, hsec⟩, t.second_mem.2, offset,
      [], ⟨z, ?_, hz⟩, rfl, ?_, ?_⟩
    · rw [skipFraction_append hfraction hz, List.append_nil]
    · rw [daysIn_eq _ t.month_mem]
      exact t.day_mem
    · rw [← Int64.toInt_inj, hsame, hseconds]

end Parse

end DirtybirdMiner.Args.Rfc3339
