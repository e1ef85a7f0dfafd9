import TableQuery.Proofs.Text.Digits
import TableQuery.Proofs.Timestamp.Calendar
import TableQuery.Row.Json
import TableQuery.Timestamp.Reading

/-! Both written forms of a time are read as the time. Each reader reads back what the writer of
its part writes, and leaves the text behind it. -/
namespace TableQuery.Timestamp
open TableQuery.Text

/-- Digits are read as far as they go, or as far as they may. -/
theorem readDigits?_append {least most : Nat} {digits rest : List Char}
    (hdigits : ∀ c ∈ digits, c.isDigit = true) (hleast : least ≤ digits.length)
    (hmost : digits.length ≤ most) (hend : digits.length = most ∨ EndsDigits rest) :
    readDigits? least most (digits ++ rest) = some (ofDigits digits, rest) := by
  have hfront : ((digits ++ rest).take most).takeWhile Char.isDigit = digits := by
    have hnone : (rest.take (most - digits.length)).takeWhile Char.isDigit = [] := by
      rcases hend with hfull | hends
      · rw [hfull, Nat.sub_self, List.take_zero, List.takeWhile_nil]
      · exact (hends.take _).takeWhile_eq_nil
    rw [List.take_append, List.take_of_length_le hmost, List.takeWhile_append_of_pos hdigits,
      hnone, List.append_nil]
  rw [readDigits?]
  simp only [hfront, if_neg (Nat.not_lt.2 hleast), List.drop_left]

/-- A number in its full width. -/
theorem readDigits?_padded {width n : Nat} (hwidth : 0 < width) (h : n < 10 ^ width)
    (rest : List Char) :
    readDigits? width width (paddedDigits width n ++ rest) = some (n, rest) := by
  have hlength := length_paddedDigits_of_lt hwidth h
  rw [readDigits?_append (fun _ => isDigit_of_mem_paddedDigits) (Nat.le_of_eq hlength.symm)
    (Nat.le_of_eq hlength) (.inl hlength), ofDigits_paddedDigits]

theorem head?_paddedDigits_append {width : Nat} (hwidth : 0 < width) (n : Nat)
    (rest : List Char) :
    ∃ c, (paddedDigits width n ++ rest).head? = some c ∧ c.isDigit = true := by
  have hlength := length_paddedDigits width n
  cases hdigits : paddedDigits width n with
  | nil =>
    rw [hdigits, List.length_nil] at hlength
    omega
  | cons c digits =>
    exact ⟨c, rfl, isDigit_of_mem_paddedDigits (hdigits ▸ List.mem_cons_self)⟩

theorem trimStart_paddedDigits_append {width : Nat} (hwidth : 0 < width) (n : Nat)
    (rest : List Char) :
    trimStart (paddedDigits width n ++ rest) = paddedDigits width n ++ rest := by
  obtain ⟨c, hc, hdigit⟩ := head?_paddedDigits_append hwidth n rest
  refine trimStart_eq_self ?_
  intro d hd
  rw [hc] at hd
  cases hd
  exact isBlank_of_isDigit hdigit

theorem readField?_padded {n : Nat} (h : n < 100) (rest : List Char) :
    readField? (paddedDigits 2 n ++ rest) = some (n, rest) := by
  have hlength : (paddedDigits 2 n).length = 2 := length_paddedDigits_of_lt (by decide) h
  rw [readField?, trimStart_paddedDigits_append (by decide),
    readDigits?_append (fun _ => isDigit_of_mem_paddedDigits) (by omega) (by omega)
      (.inl hlength), ofDigits_paddedDigits]

theorem readYear?_minus {s rest : List Char} {n : Nat}
    (h : readDigits? 1 s.length s = some (n, rest)) : readYear? ('-' :: s) = some (-(n : Int), rest) :=
  congrArg (Option.map _) h

theorem readYear?_plus {s rest : List Char} {n : Nat}
    (h : readDigits? 1 s.length s = some (n, rest)) : readYear? ('+' :: s) = some ((n : Int), rest) :=
  congrArg (Option.map _) h

theorem readYear?_of_head {s rest : List Char} {c : Char} {n : Nat} (hc : s.head? = some c)
    (hdigit : c.isDigit = true) (h : readDigits? 1 4 s = some (n, rest)) :
    readYear? s = some ((n : Int), rest) := by
  have hstart : trimStart s = s := by
    refine trimStart_eq_self ?_
    intro d hd
    rw [hc] at hd
    cases hd
    exact isBlank_of_isDigit hdigit
  rw [readYear?, hstart]
  split
  · cases hc
    cases hdigit
  · cases hc
    cases hdigit
  · exact congrArg (Option.map _) h

theorem readYear?_yearText (year : Int) {rest : List Char} (hrest : EndsDigits rest) :
    readYear? (yearText year ++ rest) = some (year, rest) := by
  have hsigned : readDigits? 1 (paddedDigits 4 year.natAbs ++ rest).length
      (paddedDigits 4 year.natAbs ++ rest) = some (year.natAbs, rest) := by
    have hlength := length_paddedDigits 4 year.natAbs
    rw [readDigits?_append (fun _ => isDigit_of_mem_paddedDigits) (by omega) (by simp)
      (.inr hrest), ofDigits_paddedDigits]
  rw [yearText]
  split
  · next hyear =>
    have hlength : (paddedDigits 4 year.natAbs).length = 4 :=
      length_paddedDigits_of_lt (by decide) (by omega)
    obtain ⟨c, hc, hdigit⟩ := head?_paddedDigits_append (by decide : 0 < 4) year.natAbs rest
    have hread : readDigits? 1 4 (paddedDigits 4 year.natAbs ++ rest) = some (year.natAbs, rest) := by
      rw [readDigits?_append (fun _ => isDigit_of_mem_paddedDigits) (by omega) (by omega)
        (.inl hlength), ofDigits_paddedDigits]
    rw [readYear?_of_head hc hdigit hread, Int.natAbs_of_nonneg hyear.1]
  · rw [List.cons_append]
    split
    · next hnegative =>
      have hminus : -(year.natAbs : Int) = year := by omega
      rw [readYear?_minus hsigned, hminus]
    · next hpositive =>
      rw [readYear?_plus hsigned, Int.natAbs_of_nonneg (Int.not_lt.1 hpositive)]

theorem expect?_cons (c : Char) (rest : List Char) : expect? c (c :: rest) = some rest := if_pos rfl

theorem readDate?_dateText {d : Date} (hmonth : d.month < 100) (hday : d.day < 100)
    (rest : List Char) : readDate? (dateText d ++ rest) = some (d, rest) := by
  have hminus : ∀ s, EndsDigits ('-' :: s) := fun s => endsDigits_cons rfl s
  simp only [readDate?, dateText, List.append_assoc, List.cons_append, Option.bind_eq_bind,
    readYear?_yearText d.year (hminus _), Option.bind_some, expect?_cons, readField?_padded hmonth,
    readField?_padded hday, Option.pure_def]

/-- A point and up to nine digits. -/
theorem readFraction?_padded {width n : Nat} (hwidth : 0 < width) (hnine : width ≤ 9)
    (h : n < 10 ^ width) {rest : List Char} (hrest : EndsDigits rest) :
    readFraction? ('.' :: (paddedDigits width n ++ rest)) =
      some (n * 10 ^ (9 - width), rest) := by
  have hlength := length_paddedDigits_of_lt hwidth h
  have hread : readDigits? 1 9 (paddedDigits width n ++ rest) = some (n, rest) := by
    rw [readDigits?_append (fun _ => isDigit_of_mem_paddedDigits) (by omega) (by omega)
      (.inr hrest), ofDigits_paddedDigits]
  have hcount : (paddedDigits width n ++ rest).length - rest.length = width := by
    rw [List.length_append, hlength, Nat.add_sub_cancel]
  simp only [readFraction?, hread, Option.bind_eq_bind, Option.bind_some, hcount,
    hrest.dropWhile_eq_self, Option.pure_def]
  rfl

theorem readFraction?_fractionText {nanos : Nat} (h : nanos < 1000000000) {rest : List Char}
    (hrest : EndsDigits rest) (hpoint : ∀ s, rest ≠ '.' :: s) :
    readFraction? (fractionText nanos ++ rest) = some (nanos, rest) := by
  rw [fractionText]
  split
  · next hzero =>
    rw [hzero, List.nil_append, readFraction?]
    exact hpoint
  · split
    · next hmillis =>
      have hscale : nanos / 1000000 * 10 ^ (9 - 3) = nanos := by omega
      rw [List.cons_append, readFraction?_padded (by decide) (by decide) (by omega) hrest, hscale]
    · split
      · next hmicros =>
        have hscale : nanos / 1000 * 10 ^ (9 - 6) = nanos := by omega
        rw [List.cons_append, readFraction?_padded (by decide) (by decide) (by omega) hrest, hscale]
      · have hscale : nanos * 10 ^ (9 - 9) = nanos := Nat.mul_one nanos
        rw [List.cons_append, readFraction?_padded (by decide) (by decide) (by omega) hrest, hscale]

theorem hour_minute_second_lt (t : Timestamp) : t.hour < 100 ∧ t.minute < 100 ∧ t.second < 100 := by
  have hhour := t.hour_lt
  have hminute := t.minute_lt
  have hsecond := t.second_le
  omega

theorem month_day_lt {d : Date} (h : d.isValid = true) : d.month < 100 ∧ d.day < 100 := by
  simp only [Date.isValid, Bool.and_eq_true, decide_eq_true_eq] at h
  have hdays : Date.daysInMonth d.year d.month ≤ 31 := by
    rw [Date.daysInMonth]
    split <;> split <;> omega
  omega

/-- A date, what parts it from the time, and the time. -/
theorem readClock?_written (t : Timestamp) {rest : List Char} (hrest : EndsDigits rest)
    (hpoint : ∀ s, rest ≠ '.' :: s) :
    readClock? (dateText t.date ++ ' ' :: (t.timeText ++ rest)) = some (t.clock, rest) := by
  obtain ⟨hmonth, hday⟩ := month_day_lt t.isValid_date
  obtain ⟨hhour, hminute, hsecond⟩ := t.hour_minute_second_lt
  have hfraction := readFraction?_fractionText t.fraction_lt hrest hpoint
  rw [timeText, clock]
  generalize t.date = date, t.hour = hour, t.minute = minute, t.second = second,
    t.fraction = fraction at *
  have hblank : ∀ s, trimStart (' ' :: (paddedDigits 2 hour ++ s)) = paddedDigits 2 hour ++ s :=
    trimStart_paddedDigits_append (by decide) hour
  simp only [readClock?, List.append_assoc, List.cons_append, Option.bind_eq_bind,
    readDate?_dateText hmonth hday, Option.bind_some, hblank, readField?_padded hhour,
    readField?_padded hminute, readField?_padded hsecond, expect?_cons, hfraction,
    Option.pure_def]

theorem readWithOffset?_of_clock {s rest : List Char} {c : Clock} {offset : Int}
    (hclock : readClock? s = some (c, rest))
    (hoffset : readOffset? (fun s => some (skipColons s)) (trimStart rest) = some (offset, [])) :
    readWithOffset? s = ofClock? c offset := by
  simp only [readWithOffset?, hclock, Option.bind_eq_bind, Option.bind_some, hoffset]
  rfl

theorem readWithOffset?_plainText (t : Timestamp) : readWithOffset? t.plainText = some t := by
  have hclock : readClock? t.plainText = some (t.clock, " +0000".toList) := by
    rw [plainText, List.append_assoc, List.cons_append]
    exact t.readClock?_written (endsDigits_cons rfl _) nofun
  have hoffset : readOffset? (fun s => some (skipColons s)) (trimStart " +0000".toList) =
      some (0, []) := by decide
  rw [readWithOffset?_of_clock hclock hoffset, ofClock?_clock]

/-- The form with an offset wants a number behind the date. -/
theorem readWithOffset?_of_mark {d : Date} (hd : d.isValid = true) (s : List Char) :
    readWithOffset? (dateText d ++ 'T' :: s) = none := by
  obtain ⟨hmonth, hday⟩ := month_day_lt hd
  have hfield : readField? (trimStart ('T' :: s)) = none := rfl
  have hclock : readClock? (dateText d ++ 'T' :: s) = none := by
    simp only [readClock?, readDate?_dateText hmonth hday, Option.bind_eq_bind, Option.bind_some,
      hfield, Option.bind_none]
  rw [readWithOffset?, hclock]
  rfl

theorem readRfc3339?_of_fields {year month day hour minute second nanos : Nat} {t : Timestamp}
    (hyear : year < 10 ^ 4) (hmonth : month < 10 ^ 2) (hday : day < 10 ^ 2) (hhour : hour < 10 ^ 2)
    (hminute : minute < 10 ^ 2) (hsecond : second < 10 ^ 2) (hnanos : nanos < 1000000000)
    (h : ofClock? ⟨⟨year, month, day⟩, hour, minute, second, nanos⟩ 0 = some t) :
    readRfc3339? (paddedDigits 4 year ++ '-' :: (paddedDigits 2 month ++ '-' ::
      (paddedDigits 2 day ++ 'T' :: (paddedDigits 2 hour ++ ':' :: (paddedDigits 2 minute ++ ':' ::
        (paddedDigits 2 second ++ (fractionText nanos ++ ['Z']))))))) = some t := by
  have htwo {n : Nat} (h : n < 10 ^ 2) (rest : List Char) :
      readDigits? 2 2 (paddedDigits 2 n ++ rest) = some (n, rest) :=
    readDigits?_padded (by decide) h rest
  have hend : EndsDigits ['Z'] := endsDigits_cons rfl []
  refine Option.bind_eq_some_iff.2 ⟨_, readDigits?_padded (by decide) hyear _, ?_⟩
  refine Option.bind_eq_some_iff.2 ⟨_, expect?_cons '-' _, ?_⟩
  refine Option.bind_eq_some_iff.2 ⟨_, htwo hmonth _, ?_⟩
  refine Option.bind_eq_some_iff.2 ⟨_, expect?_cons '-' _, ?_⟩
  refine Option.bind_eq_some_iff.2 ⟨_, htwo hday _, ?_⟩
  refine Option.bind_eq_some_iff.2 ⟨_, rfl, ?_⟩
  refine Option.bind_eq_some_iff.2 ⟨_, htwo hhour _, ?_⟩
  refine Option.bind_eq_some_iff.2 ⟨_, expect?_cons ':' _, ?_⟩
  refine Option.bind_eq_some_iff.2 ⟨_, htwo hminute _, ?_⟩
  refine Option.bind_eq_some_iff.2 ⟨_, expect?_cons ':' _, ?_⟩
  refine Option.bind_eq_some_iff.2 ⟨_, htwo hsecond _, ?_⟩
  refine Option.bind_eq_some_iff.2 ⟨_, readFraction?_fractionText hnanos hend nofun, ?_⟩
  exact Option.bind_eq_some_iff.2 ⟨(0, []), rfl, h⟩

theorem readRfc3339?_rfc3339Text {t : Timestamp} (hfirst : 0 ≤ t.date.year)
    (hlast : t.date.year ≤ 9999) : readRfc3339? t.rfc3339Text = some t := by
  obtain ⟨hmonth, hday⟩ := month_day_lt t.isValid_date
  obtain ⟨hhour, hminute, hsecond⟩ := t.hour_minute_second_lt
  have hclock : ofClock? ⟨⟨t.date.year.natAbs, t.date.month, t.date.day⟩, t.hour, t.minute,
      t.second, t.fraction⟩ 0 = some t := by
    rw [Int.natAbs_of_nonneg hfirst]
    exact t.ofClock?_clock
  have hread := readRfc3339?_of_fields (by omega) hmonth hday hhour hminute hsecond t.fraction_lt
    hclock
  rw [rfc3339Text, timeText, dateText, yearText, if_pos ⟨hfirst, hlast⟩]
  simpa only [List.append_assoc, List.cons_append] using hread

def IsQuote (c : Char) : Prop := c = '\'' ∨ c = '"'

theorem unquote_of_head {s : List Char} (h : ∀ c, s.head? = some c → ¬ IsQuote c) :
    unquote s = s := by
  cases s with
  | nil => rfl
  | cons c s =>
    have hc := not_or.1 (h c rfl)
    simp [unquote, hc.1, hc.2]

theorem unquote_quoted {quote : Char} (h : IsQuote quote) (s : List Char) :
    unquote (quote :: (s ++ [quote])) = s := by
  rcases h with rfl | rfl <;> simp [unquote]

/-- Both forms begin with a sign or a digit. -/
theorem head?_dateText_append (d : Date) (rest : List Char) {c : Char}
    (hc : (dateText d ++ rest).head? = some c) : c = '-' ∨ c = '+' ∨ c.isDigit = true := by
  rw [dateText, yearText] at hc
  split at hc
  · obtain ⟨b, hb, hdigit⟩ := head?_paddedDigits_append (by decide : 0 < 4) d.year.natAbs
      ('-' :: (paddedDigits 2 d.month ++ '-' :: paddedDigits 2 d.day) ++ rest)
    rw [List.append_assoc, hb] at hc
    cases hc
    exact .inr (.inr hdigit)
  · split at hc
    · cases hc
      exact .inl rfl
    · cases hc
      exact .inr (.inl rfl)

theorem not_isBlank_of_sign_or_digit {c : Char} (h : c = '-' ∨ c = '+' ∨ c.isDigit = true) :
    isBlank c = false := by
  rcases h with rfl | rfl | hdigit
  · rfl
  · rfl
  · exact isBlank_of_isDigit hdigit

theorem not_isQuote_of_sign_or_digit {c : Char} (h : c = '-' ∨ c = '+' ∨ c.isDigit = true) :
    ¬ IsQuote c := by
  rintro (rfl | rfl) <;> revert h <;> decide

theorem head?_plainText {t : Timestamp} {c : Char} (hc : t.plainText.head? = some c) :
    c = '-' ∨ c = '+' ∨ c.isDigit = true := by
  rw [plainText, List.append_assoc] at hc
  exact head?_dateText_append _ _ hc

theorem trim_plainText (t : Timestamp) : trim t.plainText = t.plainText := by
  refine trim_eq_self ?_ ?_
  · intro c hc
    exact not_isBlank_of_sign_or_digit (head?_plainText hc)
  · intro c hc
    rw [plainText, List.getLast?_append] at hc
    cases hc
    rfl

theorem head?_rfc3339Text {t : Timestamp} {c : Char} (hc : t.rfc3339Text.head? = some c) :
    c = '-' ∨ c = '+' ∨ c.isDigit = true := by
  rw [rfc3339Text, List.append_assoc] at hc
  exact head?_dateText_append _ _ hc

theorem trim_rfc3339Text (t : Timestamp) : trim t.rfc3339Text = t.rfc3339Text := by
  refine trim_eq_self ?_ ?_
  · intro c hc
    exact not_isBlank_of_sign_or_digit (head?_rfc3339Text hc)
  · intro c hc
    rw [rfc3339Text, List.getLast?_append] at hc
    cases hc
    rfl

theorem trim_quoted {quote : Char} (h : IsQuote quote) (s : List Char) :
    trim (quote :: (s ++ [quote])) = quote :: (s ++ [quote]) := by
  have hquote : isBlank quote = false := by
    rcases h with rfl | rfl <;> rfl
  refine trim_eq_self ?_ ?_
  · intro c hc
    cases hc
    exact hquote
  · intro c hc
    rw [← List.cons_append, List.getLast?_append] at hc
    cases hc
    exact hquote

theorem read?_of_withOffset {s : List Char} {t : Timestamp}
    (h : readWithOffset? (unquote (trim s)) = some t) : read? s = some t := by
  rw [read?]
  simp only [h]
  rfl

theorem read?_plainText (t : Timestamp) : read? t.plainText = some t := by
  refine read?_of_withOffset ?_
  rw [trim_plainText,
    unquote_of_head fun c hc => not_isQuote_of_sign_or_digit (head?_plainText hc),
    readWithOffset?_plainText]

theorem read?_quoted {quote : Char} (h : IsQuote quote) (t : Timestamp) :
    read? (quote :: (t.plainText ++ [quote])) = some t := by
  refine read?_of_withOffset ?_
  rw [trim_quoted h, unquote_quoted h, readWithOffset?_plainText]

theorem read?_rfc3339Text {t : Timestamp} (hfirst : 0 ≤ t.date.year) (hlast : t.date.year ≤ 9999) :
    read? t.rfc3339Text = some t := by
  have hnone : readWithOffset? t.rfc3339Text = none := by
    rw [rfc3339Text, List.append_assoc]
    exact readWithOffset?_of_mark t.isValid_date _
  rw [read?, trim_rfc3339Text,
    unquote_of_head fun c hc => not_isQuote_of_sign_or_digit (head?_rfc3339Text hc)]
  simp only [hnone, readRfc3339?_rfc3339Text hfirst hlast]
  rfl

/-- Blanks around a text do not count. -/
theorem read?_blanks {before after : List Char} (hbefore : ∀ c ∈ before, isBlank c = true)
    (hafter : ∀ c ∈ after, isBlank c = true) (s : List Char) :
    read? (before ++ (s ++ after)) = read? s := by
  rw [read?, read?, trim_blank_append hbefore, trim_append_blank hafter]

/-- A time is read back from the text that it is displayed as, which may stand in quotes and
between blanks, and from its text in a document, if its year has four digits. -/
theorem read?_written (t : Timestamp) {before after : List Char}
    (hbefore : ∀ c ∈ before, isBlank c = true) (hafter : ∀ c ∈ after, isBlank c = true) :
    read? (before ++ ((Value.time t).display.toList ++ after)) = some t ∧
      (∀ quote, IsQuote quote →
        read? (before ++ (quote :: ((Value.time t).display.toList ++ [quote]) ++ after)) = some t) ∧
      (0 ≤ t.date.year → t.date.year ≤ 9999 →
        ∃ s, (Value.time t).toJson = .string s ∧ read? s.toList = some t) := by
  have hdisplay : (Value.time t).display.toList = t.plainText := String.toList_ofList
  refine ⟨?_, ?_, ?_⟩
  · rw [read?_blanks hbefore hafter, hdisplay, read?_plainText]
  · intro quote hquote
    rw [read?_blanks hbefore hafter, hdisplay, read?_quoted hquote]
  · intro hfirst hlast
    refine ⟨_, rfl, ?_⟩
    rw [String.toList_ofList, read?_rfc3339Text hfirst hlast]

/-- In the last second of 2016, which was a leap second. -/
theorem read?_written_leap_second :
    let t : Timestamp := ⟨1483228799, 1500000000, by decide, by decide, by decide, by decide⟩
    (∀ c ∈ [' ', '\t'], isBlank c = true) ∧ (∀ c ∈ ['\u00a0'], isBlank c = true) ∧
      read? " \t2016-12-31 23:59:60.500 +0000\u00a0".toList = some t ∧
      read? " \t'2016-12-31 23:59:60.500 +0000'\u00a0".toList = some t ∧
      read? "2016-12-31T23:59:60.500Z".toList = some t := by
  intro t
  have hbefore : ∀ c ∈ [' ', '\t'], isBlank c = true := List.all_eq_true.1 rfl
  have hafter : ∀ c ∈ ['\u00a0'], isBlank c = true := List.all_eq_true.1 rfl
  have hdisplay : (Value.time t).display = "2016-12-31 23:59:60.500 +0000" := by decide +kernel
  have hjson : (Value.time t).toJson = .string "2016-12-31T23:59:60.500Z" := by
    refine congrArg Json.string ?_
    decide +kernel
  obtain ⟨hplain, hquoted, hdocument⟩ := read?_written t hbefore hafter
  obtain ⟨s, hs, hread⟩ := hdocument (by decide +kernel) (by decide +kernel)
  rw [hdisplay] at hplain hquoted
  rw [hjson] at hs
  cases hs
  exact ⟨hbefore, hafter, hplain, hquoted _ (.inl rfl), hread⟩

end TableQuery.Timestamp
