import Gfm.Search.QueryParsing

/-!
# Dates of filters

The days of the calendar follow each other without a gap, and a filter for the days before a date,
one for the date itself and one for the days after it share out the times from the epoch on.
-/

namespace Gfm.Search

open DateComparison List

section Calendar

/-- The results that fit the type; none stands for an overflow. -/
def checkedI32 (value : Int) : Option Int :=
  if -2 ^ 31 ≤ value ∧ value < 2 ^ 31 then some value else none

def checkedI64 (value : Int) : Option Int :=
  if -2 ^ 63 ≤ value ∧ value < 2 ^ 63 then some value else none

/-- A date of a year that the parser accepts. -/
structure IsDate (year : Int) (month day : Nat) : Prop where
  year_nonneg : 0 ≤ year
  year_lt : year < 2 ^ 31
  month_pos : 1 ≤ month
  month_le : month ≤ 12
  day_pos : 1 ≤ day
  day_le : ∃ maxDay, daysInMonth year month = some maxDay ∧ day ≤ maxDay

/-- The date after a date. -/
def nextDate (year : Int) (month day : Nat) : Int × Nat × Nat :=
  if daysInMonth year month ≠ some day then (year, month, day + 1)
  else if month < 12 then (year, month + 1, 1)
  else (year + 1, 1, 1)

/-- Years are counted from March on, so that a leap day is the last day of its year. -/
def dayNumber (year : Int) (month day : Nat) : Int :=
  let shifted := if month ≤ 2 then year - 1 else year
  let months := if month ≤ 2 then month + 9 else month - 3
  365 * shifted + shifted / 4 - shifted / 100 + shifted / 400 +
    ((153 * months + 2) / 5 : Nat) + day - 719469

variable {year : Int} {month day : Nat}

theorem asI32_small {value : Nat} (small : value < 2 ^ 31) : asI32 value = value := by
  have wide : ((2 ^ 32 : Nat) : Int) = 4294967296 := by norm_num
  refine Int.bmod_eq_of_le_mul_two ?_ ?_
  · rw [wide]
    omega
  · rw [wide]
    omega

theorem isLeapYear_iff (nonneg : 0 ≤ year) :
    isLeapYear year = true ↔ (year % 4 = 0 ∧ year % 100 ≠ 0) ∨ year % 400 = 0 := by
  simp only [isLeapYear, Int.tmod_eq_emod_of_nonneg nonneg, decide_eq_true_eq]

theorem daysInMonth_le {maxDay : Nat} (found : daysInMonth year month = some maxDay) :
    maxDay ≤ 31 := by
  rw [daysInMonth] at found
  split at found
  · cases found
    exact le_rfl
  split at found
  · cases found
    decide
  split at found
  · cases found
    split <;> decide
  · cases found

theorem IsDate.day_le_31 (date : IsDate year month day) : day ≤ 31 := by
  rcases date.day_le with ⟨maxDay, found, bound⟩
  exact bound.trans (daysInMonth_le found)

/-- No step of the arithmetic leaves the range of its type. -/
theorem daysFromCivilWith_eq {m : Type → Type} [Monad m] [LawfulMonad m] {i32 i64 : Int → m Int}
    (i32_ok : ∀ value : Int, -2 ^ 31 ≤ value → value < 2 ^ 31 → i32 value = pure value)
    (i64_ok : ∀ value : Int, -2 ^ 63 ≤ value → value < 2 ^ 63 → i64 value = pure value)
    (date : IsDate year month day) :
    daysFromCivilWith i32 i64 year month day = pure (some (dayNumber year month day)) := by
  rcases date with ⟨nonneg, yearBound, monthPos, monthBound, dayPos, dayBound⟩
  have dayBound := IsDate.day_le_31 ⟨nonneg, yearBound, monthPos, monthBound, dayPos, dayBound⟩
  obtain ⟨shifted, months, split, isShifted, isMonths, least, most, few⟩ :
      ∃ (shifted : Int) (months : Nat),
        (if month ≤ 2 then (year - 1, month + 12) else (year, month)) = (shifted, months + 3) ∧
          shifted = (if month ≤ 2 then year - 1 else year) ∧
          months = (if month ≤ 2 then month + 9 else month - 3) ∧
          -1 ≤ shifted ∧ shifted < 2 ^ 31 ∧ months ≤ 11 := by
    by_cases early : month ≤ 2
    · exact ⟨year - 1, month + 9, by simp [early], by simp [early], by simp [early], by omega,
        by omega, by omega⟩
    · have later : month - 3 + 3 = month := by omega
      exact ⟨year, month - 3, by simp [early, later], by simp [early], by simp [early], by omega,
        by omega, by omega⟩
  rw [daysFromCivilWith, if_neg (by omega), dayNumber]
  dsimp only
  rw [← isShifted, ← isMonths, split]
  dsimp only
  have dividend :
      eraDividend i32 shifted = pure (if 0 ≤ shifted then shifted else shifted - 399) := by
    rw [eraDividend]
    split
    · rfl
    · exact i32_ok _ (by omega) (by omega)
  have era : (if 0 ≤ shifted then shifted else shifted - 399).tdiv 400 = shifted / 400 := by
    split
    case isTrue nonneg => exact Int.tdiv_eq_ediv_of_nonneg nonneg
    case isFalse negative =>
      have first : shifted = -1 := by omega
      subst first
      rfl
  have monthDays : (153 * (((months + 3 : Nat) : Int) - 3) + 2).tdiv 5 =
      ((153 * months + 2) / 5 : Nat) := by
    rw [Int.tdiv_eq_ediv_of_nonneg (by omega)]
    omega
  have quarter : (shifted - shifted / 400 * 400).tdiv 4 = (shifted - shifted / 400 * 400) / 4 :=
    Int.tdiv_eq_ediv_of_nonneg (by omega)
  have century :
      (shifted - shifted / 400 * 400).tdiv 100 = (shifted - shifted / 400 * 400) / 100 :=
    Int.tdiv_eq_ediv_of_nonneg (by omega)
  rw [dividend, pure_bind, era, asI32_small (by omega), asI32_small (by omega)]
  simp (disch := omega) only [i32_ok, i64_ok, pure_bind, monthDays, quarter, century]
  congr 2
  omega

theorem daysFromCivil_eq (date : IsDate year month day) :
    daysFromCivil year month day = some (dayNumber year month day) :=
  daysFromCivilWith_eq (m := Id) (fun _ _ _ => rfl) (fun _ _ _ => rfl) date

theorem daysFromCivil_checked (date : IsDate year month day) :
    daysFromCivilWith checkedI32 checkedI64 year month day =
      some (some (dayNumber year month day)) :=
  daysFromCivilWith_eq (m := Option) (fun _ least most => if_pos ⟨least, most⟩)
    (fun _ least most => if_pos ⟨least, most⟩) date

/-- From the last day of February to the first of March, where the year that is counted from March
begins; the leap rule says how long the year before was. -/
theorem dayNumber_march (nonneg : 0 ≤ year) (last : daysInMonth year 2 = some day) :
    dayNumber year 3 1 = dayNumber year 2 day + 1 := by
  have leap := isLeapYear_iff nonneg
  have length : day = if isLeapYear year then 29 else 28 := by
    simpa [daysInMonth] using last.symm
  cases isLeap : isLeapYear year with
  | true =>
      have rule := leap.mp isLeap
      rw [length, isLeap]
      norm_num [dayNumber]
      omega
  | false =>
      have rule : ¬((year % 4 = 0 ∧ year % 100 ≠ 0) ∨ year % 400 = 0) := by
        rw [← leap, isLeap]
        exact Bool.false_ne_true
      rw [length, isLeap]
      norm_num [dayNumber]
      omega

theorem dayNumber_january (last : daysInMonth year 12 = some day) :
    dayNumber (year + 1) 1 1 = dayNumber year 12 day + 1 := by
  have length : day = 31 := by simpa [daysInMonth] using last.symm
  rw [length]
  norm_num [dayNumber]
  omega

/-- The other months have the lengths that the steps of 153 days in five months give. -/
theorem dayNumber_month (monthPos : 1 ≤ month) (monthBound : month < 12) (other : month ≠ 2)
    (last : daysInMonth year month = some day) :
    dayNumber year (month + 1) 1 = dayNumber year month day + 1 := by
  interval_cases month
  case «2» => exact absurd rfl other
  all_goals
    have length := last
    simp only [daysInMonth] at length
    norm_num at length
    rw [← length]
    norm_num [dayNumber]
    omega

/-- The day after a date has the next number. -/
theorem dayNumber_next (date : IsDate year month day) :
    dayNumber (nextDate year month day).1 (nextDate year month day).2.1
        (nextDate year month day).2.2 = dayNumber year month day + 1 := by
  rw [nextDate]
  by_cases last : daysInMonth year month = some day
  · rw [if_neg (not_not.mpr last)]
    by_cases december : month = 12
    · subst december
      exact dayNumber_january last
    have before : month < 12 := lt_of_le_of_ne date.month_le december
    rw [if_pos before]
    by_cases february : month = 2
    · subst february
      exact dayNumber_march date.year_nonneg last
    · exact dayNumber_month date.month_pos before february last
  · rw [if_pos last]
    simp only [dayNumber]
    omega

theorem dayNumber_nonneg (since : 1970 ≤ year) (date : IsDate year month day) :
    0 ≤ dayNumber year month day := by
  have dayPos := date.day_pos
  have monthPos := date.month_pos
  simp only [dayNumber]
  split <;> omega

theorem dayNumber_lt (date : IsDate year month day) : dayNumber year month day < 2 ^ 40 := by
  have bound := date.day_le_31
  rcases date with ⟨nonneg, yearBound, monthPos, monthBound, -, -⟩
  simp only [dayNumber]
  split <;> omega

end Calendar

section Parsing

variable {unicode : Unicode} {text first : Text} {rest : List Text} {year : Int} {month day : Nat}

theorem parseUnsigned_lt {bound value : Nat}
    (parsed : (Tsv.parseUnsigned bound text).toOption = some value) (positive : 0 < bound) :
    value < bound := by
  have digits (text : Text) (start : Nat) (below : start < bound)
      (parsed : (text.foldlM (Tsv.pushDigit bound) start).toOption = some value) :
      value < bound := by
    induction text generalizing start with
    | nil =>
        cases parsed
        exact below
    | cons char text ih =>
        rw [foldlM_cons] at parsed
        cases pushed : Tsv.pushDigit bound start char with
        | error reason =>
            rw [pushed] at parsed
            cases parsed
        | ok next =>
            rw [pushed] at parsed
            refine ih next ?_ parsed
            rw [Tsv.pushDigit] at pushed
            split at pushed
            · cases pushed
            · split at pushed
              · cases pushed
              · cases pushed
                omega
  rw [Tsv.parseUnsigned.eq_def] at parsed
  split at parsed
  · cases parsed
  · cases parsed
  · exact digits _ 0 positive parsed
  · exact digits _ 0 positive parsed

/-- The text before the first separator does not have it, and is where the text begins. -/
theorem splitOn_first (split : text.splitOn '-' = first :: rest) :
    '-' ∉ first ∧ ∀ char more, first = char :: more → ∃ others, text = char :: others := by
  induction text generalizing first rest with
  | nil =>
      cases split
      simp
  | cons char text ih =>
      rw [splitOn_cons_eq_if_modifyHead] at split
      by_cases separator : (char == '-') = true
      · rw [if_pos separator] at split
        cases split
        simp
      · rw [if_neg separator] at split
        cases later : text.splitOn '-' with
        | nil => exact absurd later (splitOn_ne_nil _ _)
        | cons next others =>
            rw [later] at split
            cases split
            refine ⟨?_, ?_⟩
            · rw [mem_cons, not_or]
              exact ⟨fun same => separator (beq_iff_eq.mpr same.symm), (ih later).1⟩
            · rintro _ _ same
              cases same
              exact ⟨text, rfl⟩

theorem parseI32_plain (plain : '-' ∉ text) (parsed : parseI32 text = some year) :
    0 ≤ year ∧ year < 2 ^ 31 := by
  rw [parseI32.eq_def] at parsed
  split at parsed
  · cases parsed
  · exact absurd mem_cons_self plain
  · rw [Option.map_eq_some_iff] at parsed
    rcases parsed with ⟨value, parsed, rfl⟩
    have bound := parseUnsigned_lt parsed (Nat.two_pow_pos 31)
    omega

theorem parseDate_isDate (parsed : parseDate unicode text = some (year, month, day)) :
    IsDate year month day := by
  rw [parseDate] at parsed
  split at parsed
  case h_2 => cases parsed
  case h_1 yearText monthText dayText split =>
    simp only [Option.bind_eq_bind, Option.bind_eq_some_iff] at parsed
    rcases parsed with ⟨foundYear, yearParsed, foundMonth, -, foundDay, -, parsed⟩
    split at parsed
    case isTrue => cases parsed
    case isFalse isMonth =>
      rw [Option.bind_eq_some_iff] at parsed
      rcases parsed with ⟨maxDay, found, parsed⟩
      split at parsed
      case isFalse => cases parsed
      case isTrue isDay =>
        cases parsed
        have bounds := parseI32_plain (splitOn_first split).1 yearParsed
        have isMonth := not_not.mp isMonth
        exact ⟨bounds.1, bounds.2, isMonth.1, isMonth.2, isDay.1, maxDay, found, isDay.2⟩

/-- A date does not begin with a comparison. -/
theorem parseDate_head {char : Char} {more : Text}
    (parsed : parseDate unicode text = some (year, month, day))
    (head : unicode.trim text = char :: more) : char ≠ '<' ∧ char ≠ '>' ∧ char ≠ '=' := by
  rw [parseDate] at parsed
  split at parsed
  case h_2 => cases parsed
  case h_1 yearText monthText dayText split =>
    simp only [Option.bind_eq_bind, Option.bind_eq_some_iff] at parsed
    rcases parsed with ⟨foundYear, yearParsed, -⟩
    cases yearText with
    | nil => cases yearParsed
    | cons first others =>
        rcases (splitOn_first split).2 first others rfl with ⟨tail, begins⟩
        rw [head] at begins
        obtain ⟨rfl, -⟩ := List.cons.inj begins
        refine ⟨?_, ?_, ?_⟩
        all_goals
          rintro rfl
          cases yearParsed

theorem dayBounds_eq {days : Nat} (few : days < 2 ^ 40) :
    ((checkedU64 (days * 86400)).bind fun start => (checkedU64 (start + 86400)).bind fun finish =>
      some (start, finish - 1)) = some (days * 86400, days * 86400 + 86399) := by
  have start : checkedU64 (days * 86400) = some (days * 86400) := by
    rw [checkedU64, if_pos (by omega)]
  have finish : checkedU64 (days * 86400 + 86400) = some (days * 86400 + 86400) := by
    rw [checkedU64, if_pos (by omega)]
  have last : days * 86400 + 86400 - 1 = days * 86400 + 86399 := by omega
  rw [start, Option.bind_some, finish, Option.bind_some, last]

/-- A date from 1970 on has its 86400 seconds, counted from its day number. -/
theorem dateBounds_eq (parsed : parseDate unicode text = some (year, month, day))
    (since : 1970 ≤ year) :
    dateBounds unicode text = some ((dayNumber year month day).toNat * 86400,
      (dayNumber year month day).toNat * 86400 + 86399) := by
  have date := parseDate_isDate parsed
  have nonneg := dayNumber_nonneg since date
  have bound := dayNumber_lt date
  rw [dateBounds, parsed, Option.bind_eq_bind, Option.bind_some]
  dsimp only
  rw [daysFromCivil_eq date, Option.bind_eq_bind, Option.bind_some, if_neg (not_lt.mpr nonneg)]
  exact dayBounds_eq (by omega)

end Parsing

section Comparisons

variable {unicode : Unicode} {text rest : Text} {char : Char} {year : Int} {month day : Nat}

theorem trim_cons (solid : unicode.isWhitespace char = false) :
    unicode.trim (char :: text) = char :: text.rdropWhile unicode.isWhitespace := by
  rw [Unicode.trim, trimWith, dropWhile_cons_of_neg (by simp [solid]), List.rdropWhile,
    reverse_cons, dropWhile_append]
  split
  case isTrue empty =>
    rw [dropWhile_cons_of_neg (by simp [solid]), List.rdropWhile,
      List.isEmpty_iff.mp empty]
    rfl
  case isFalse => simp [List.rdropWhile]

theorem trim_rdropWhile (text : Text) :
    unicode.trim (text.rdropWhile unicode.isWhitespace) = unicode.trim text := by
  have blank : ∀ char ∈ text.rtakeWhile unicode.isWhitespace, unicode.isWhitespace char = true :=
    fun char member => mem_rtakeWhile_imp member
  have whole : text.rdropWhile unicode.isWhitespace ++ text.rtakeWhile unicode.isWhitespace =
      text := rdropWhile_append_rtakeWhile
  generalize text.rdropWhile unicode.isWhitespace = kept at whole
  generalize text.rtakeWhile unicode.isWhitespace = blanks at whole blank
  subst whole
  have reversed : ∀ char ∈ blanks.reverse, unicode.isWhitespace char = true :=
    fun char member => blank char (mem_reverse.mp member)
  rw [Unicode.trim, Unicode.trim, trimWith, trimWith, dropWhile_append]
  split
  case isTrue empty =>
    rw [List.isEmpty_iff.mp empty, dropWhile_eq_nil_iff.mpr blank]
  case isFalse =>
    simp only [List.rdropWhile, reverse_append, dropWhile_append_of_pos reversed]

theorem dateBounds_trim : dateBounds unicode (unicode.trim text) = dateBounds unicode text := by
  have same : unicode.trim (unicode.trim text) = unicode.trim text := trimWith_idem _ _
  simp only [dateBounds, parseDate, same]

/-- The text of a date is not the end of a longer comparison. -/
theorem date_not_equals (equals : unicode.isWhitespace '=' = false)
    (parsed : parseDate unicode text = some (year, month, day)) (more : Text) :
    text.rdropWhile unicode.isWhitespace ≠ '=' :: more := by
  intro same
  have head : unicode.trim text = '=' :: more.rdropWhile unicode.isWhitespace := by
    rw [← trim_rdropWhile, same, trim_cons equals]
  exact (parseDate_head parsed head).2.2 rfl

theorem parseOperator_lt (single : ∀ more, rest ≠ '=' :: more) :
    parseOperator ('<' :: rest) = (.lt, rest) := by
  unfold parseOperator
  split <;> simp_all

theorem parseOperator_gt (single : ∀ more, rest ≠ '=' :: more) :
    parseOperator ('>' :: rest) = (.gt, rest) := by
  unfold parseOperator
  split <;> simp_all

theorem parseOperator_plain
    (plain : ∀ char more, rest = char :: more → char ≠ '<' ∧ char ≠ '>' ∧ char ≠ '=') :
    parseOperator rest = (.eq, rest) := by
  unfold parseOperator
  split <;> simp_all

variable {start finish : Nat}

theorem DateComparison.parse_on (parsed : parseDate unicode text = some (year, month, day))
    (bounds : dateBounds unicode text = some (start, finish)) :
    DateComparison.parse unicode text = some (.on start finish) := by
  have operator := parseOperator_plain fun _ _ head => parseDate_head parsed head
  rw [DateComparison.parse, operator]
  simp only [dateBounds_trim, bounds, Option.map_some]

theorem DateComparison.parse_before (less : unicode.isWhitespace '<' = false)
    (equals : unicode.isWhitespace '=' = false)
    (parsed : parseDate unicode text = some (year, month, day))
    (bounds : dateBounds unicode text = some (start, finish)) :
    DateComparison.parse unicode ('<' :: text) = some (.before start) := by
  rw [DateComparison.parse, trim_cons less, parseOperator_lt (date_not_equals equals parsed)]
  simp only [trim_rdropWhile, dateBounds_trim, bounds, Option.map_some]

theorem DateComparison.parse_after (greater : unicode.isWhitespace '>' = false)
    (equals : unicode.isWhitespace '=' = false)
    (parsed : parseDate unicode text = some (year, month, day))
    (bounds : dateBounds unicode text = some (start, finish)) :
    DateComparison.parse unicode ('>' :: text) =
      some (.after (min (finish + 1) (2 ^ 64 - 1))) := by
  rw [DateComparison.parse, trim_cons greater, parseOperator_gt (date_not_equals equals parsed)]
  simp only [trim_rdropWhile, dateBounds_trim, bounds, Option.map_some]

/-- A time from the epoch on is before a day, in it or after it. -/
theorem matchesTime_once {time : Int} (since : 0 ≤ time) (ordered : start ≤ finish)
    (fits : finish + 1 < 2 ^ 64) :
    ([DateComparison.before start, .on start finish,
      .after (min (finish + 1) (2 ^ 64 - 1))].filter fun comparison =>
        comparison.matchesTime time).length = 1 := by
  have next : min (finish + 1) (2 ^ 64 - 1) = finish + 1 := Nat.min_eq_left (by omega)
  rw [next]
  have known : ¬time < 0 := not_lt.mpr since
  rcases lt_or_ge time start with early | late
  · have notIn : ¬((start : Int) ≤ time) := not_le.mpr early
    have notAfter : ¬(((finish + 1 : Nat) : Int) ≤ time) := by omega
    simp only [filter_cons, matchesTime, if_neg known, early, notIn, notAfter,
      decide_true, decide_false, false_and, if_true, filter_nil]
    rfl
  · have notBefore : ¬(time < (start : Int)) := not_lt.mpr late
    by_cases within : time ≤ finish
    · have notAfter : ¬(((finish + 1 : Nat) : Int) ≤ time) := by omega
      simp only [filter_cons, matchesTime, if_neg known, notBefore, late,
        within, notAfter, decide_true, decide_false, true_and, if_true, filter_nil]
      rfl
    · have after : ((finish + 1 : Nat) : Int) ≤ time := by omega
      simp only [filter_cons, matchesTime, if_neg known, notBefore, late,
        within, after, decide_true, decide_false, and_false, if_true, filter_nil]
      rfl

/-- The days of the calendar and the filters for them tile the times from the epoch on, and no
arithmetic on a date that the parser accepts leaves the range of its type. -/
theorem dates_tile (unicode : Unicode)
    (solid : ∀ operator ∈ ['<', '>', '='], unicode.isWhitespace operator = false) :
    (∀ text year month day, parseDate unicode text = some (year, month, day) →
      daysFromCivilWith checkedI32 checkedI64 year month day =
        some (daysFromCivil year month day)) ∧
    ∀ text year month day, parseDate unicode text = some (year, month, day) → 1970 ≤ year →
      ∃ start finish before after, dateBounds unicode text = some (start, finish) ∧
        DateComparison.parse unicode ('<' :: text) = some before ∧
        DateComparison.parse unicode text = some (.on start finish) ∧
        DateComparison.parse unicode ('>' :: text) = some after ∧
        (∀ time : Int, 0 ≤ time → ([before, .on start finish, after].filter fun comparison =>
          comparison.matchesTime time).length = 1) ∧
        ∀ nextText, parseDate unicode nextText = some (nextDate year month day) →
          ∃ last, dateBounds unicode nextText = some (finish + 1, last) := by
  constructor
  · intro text year month day parsed
    have date := parseDate_isDate parsed
    rw [daysFromCivil_checked date, daysFromCivil_eq date]
  · intro text year month day parsed since
    have date := parseDate_isDate parsed
    have bounds := dateBounds_eq parsed since
    have bound := dayNumber_lt date
    have nonneg := dayNumber_nonneg since date
    have equals := solid '=' (by simp)
    refine ⟨_, _, _, _, bounds, parse_before (solid '<' (by simp)) equals parsed
      bounds, parse_on parsed bounds, parse_after
      (solid '>' (by simp)) equals parsed bounds, fun time epoch => ?_, ?_⟩
    · exact matchesTime_once epoch (Nat.le_add_right _ _) (by omega)
    · intro nextText nextParsed
      have sinceNext : 1970 ≤ (nextDate year month day).1 := by
        rw [nextDate]
        split
        · exact since
        · split
          · exact since
          · exact since.trans (Int.le_add_one le_rfl)
      have follows := dayNumber_next date
      generalize nextDate year month day = following at nextParsed sinceNext follows
      obtain ⟨nextYear, nextMonth, nextDay⟩ := following
      dsimp only at sinceNext follows
      have nextBounds := dateBounds_eq nextParsed sinceNext
      have later : (dayNumber nextYear nextMonth nextDay).toNat * 86400 =
          (dayNumber year month day).toNat * 86400 + 86399 + 1 := by omega
      rw [later] at nextBounds
      exact ⟨_, nextBounds⟩

/-- The last day of February of a leap year. -/
theorem dates_tile_leapDay : ∃ start finish last,
    dateBounds Unicode.ascii "2024-02-29".toList = some (start, finish) ∧
      dateBounds Unicode.ascii "2024-3-1".toList = some (finish + 1, last) := by
  have solid : ∀ operator ∈ ['<', '>', '='], Unicode.ascii.isWhitespace operator = false := by
    intro operator member
    simp only [mem_cons, not_mem_nil, or_false] at member
    rcases member with rfl | rfl | rfl <;> decide
  rcases (dates_tile Unicode.ascii solid).2 "2024-02-29".toList 2024 2 29
    (by decide +kernel) (by decide) with ⟨start, finish, _, _, bounds, -, -, -, -, next⟩
  rcases next "2024-3-1".toList (by decide +kernel) with ⟨last, nextBounds⟩
  exact ⟨start, finish, last, bounds, nextBounds⟩

end Comparisons

end Gfm.Search
