import AssetServer.HttpDate
import AssetServer.Proofs.Calendar
import Mathlib.Data.Nat.Digits.Defs
import Mathlib.Tactic.IntervalCases

/-!
# Dates in headers are read back

What `HttpDate.format?` writes for an instant of the years 0 to 9999 is what `HttpDate.parse?` reads
as the whole second of that instant. Each reader takes what the writer of the same part has written
and leaves the rest.

- `Digits`: the digits of a number, zeros in front; `digits_padded` and `number?_append`.
- `name?_append`: names of weekdays and months.
- `parse?_format?`: the whole date.
-/

namespace AssetServer.HttpDate

open Calendar

/-! ## §1 Numbers -/

/-- Characters are the digits of a number, so many of them. -/
structure Digits (width n : Nat) (cs : List Char) : Prop where
  length : cs.length = width
  digit : ∀ c ∈ cs, c.isDigit = true
  value : numeral cs = n

theorem numeral_eq (cs : List Char) : numeral cs = Nat.ofDigitChars 10 cs 0 := by
  rw [Nat.ofDigitChars_eq_foldl]
  unfold numeral
  simp only [Nat.mul_comm]

/-- A number with zeros in front is written with as many digits as there is room for. -/
theorem digits_padded {width n : Nat} (hwidth : 0 < width) (hn : n < 10 ^ width) :
    Digits width n (padded width n).toList := by
  have hdigits : (toString n).toList = Nat.toDigits 10 n := by
    show n.repr.toList = _
    rw [Nat.repr_eq_ofList_toDigits, String.toList_ofList]
  have hlength : (toString n).length = (Nat.toDigits 10 n).length := by
    rw [← String.length_toList, hdigits]
  have hshort : (Nat.toDigits 10 n).length ≤ width := Nat.toDigits_length 10 n width hwidth hn
  -- the numeral is put behind as many zeros as are missing
  have htext : (padded width n).toList =
      List.replicate (width - (Nat.toDigits 10 n).length) '0' ++ Nat.toDigits 10 n := by
    unfold padded
    simp only [String.toList_append, String.toList_ofList, hdigits, hlength]
  rw [htext]
  refine ⟨?_, fun c hc => ?_, ?_⟩
  · rw [List.length_append, List.length_replicate]
    omega
  · rcases List.mem_append.mp hc with hc | hc
    · rw [List.eq_of_mem_replicate hc]
      decide
    · exact Nat.isDigit_of_mem_toDigits (by decide) (by decide) hc
  · rw [numeral_eq, Nat.ofDigitChars_append, Nat.ofDigitChars_replicate_zero, Nat.mul_zero,
      Nat.ofDigitChars_ten_toDigits]

variable {width n low high : Nat} {cs rest : List Char}

/-- The digits of a number are read up to what follows them. -/
theorem number?_append (hd : Digits width n cs) (hlow : low ≤ width) (hhigh : width ≤ high)
    (hrest : ∀ c ∈ rest.head?, c.isDigit = false) : number? low high (cs ++ rest) = some (n, rest) := by
  obtain ⟨rfl, hdigit, rfl⟩ := hd
  have htaken : ((cs ++ rest).take high).takeWhile Char.isDigit = cs := by
    rw [List.take_append, List.take_of_length_le hhigh, List.takeWhile_append_of_pos hdigit]
    -- the limit on digits may cut off what follows, but adds none
    have hnone : (rest.take (high - cs.length)).takeWhile Char.isDigit = [] := by
      cases rest with
      | nil => simp
      | cons c rest =>
        cases high - cs.length with
        | zero => simp
        | succ k => simp [hrest c rfl]
    rw [hnone, List.append_nil]
  unfold number?
  simp only [htaken, if_pos hlow, List.drop_left]

/-- A space and a colon end a number. -/
theorem number?_space (hd : Digits width n cs) (hlow : low ≤ width) (hhigh : width ≤ high) :
    number? low high (cs ++ ' ' :: rest) = some (n, ' ' :: rest) := by
  refine number?_append hd hlow hhigh ?_
  rintro c ⟨⟩
  decide

theorem number?_colon (hd : Digits width n cs) (hlow : low ≤ width) (hhigh : width ≤ high) :
    number? low high (cs ++ ':' :: rest) = some (n, ':' :: rest) := by
  refine number?_append hd hlow hhigh ?_
  rintro c ⟨⟩
  decide

theorem not_blank_of_digit {c : Char} (h : c.isDigit = true) : Text.isBlank c = false := by
  have hbounds := Char.isDigit_iff_toNat.mp h
  have hzero : '0'.toNat = 48 := rfl
  have hnine : '9'.toNat = 57 := rfl
  unfold Text.isBlank
  simp only [Bool.or_eq_false_iff, Bool.and_eq_false_iff, decide_eq_false_iff_not, beq_eq_false_iff_ne]
  omega

/-! ## §2 White space and names -/

theorem skipBlank_of_head (h : ∀ c ∈ cs.head?, Text.isBlank c = false) : skipBlank cs = cs := by
  unfold skipBlank
  cases cs with
  | nil => rfl
  | cons c cs => rw [List.dropWhile_cons_of_neg (by simp [h c rfl])]

/-- One blank is skipped before what is not blank. -/
theorem blank?_space (h : ∀ c ∈ cs.head?, Text.isBlank c = false) : blank? (' ' :: cs) = some cs := by
  have hspace : Text.isBlank ' ' = true := by decide
  unfold blank?
  simp only [hspace, if_true, skipBlank_of_head h]

/-- What digits start with is no blank. -/
theorem Digits.head (hd : Digits width n cs) (hwidth : 0 < width) (rest : List Char) :
    ∀ c ∈ (cs ++ rest).head?, Text.isBlank c = false := by
  intro c hc
  obtain ⟨first, more, rfl⟩ : ∃ first more, cs = first :: more :=
    List.exists_cons_of_length_pos (by rw [hd.length]; exact hwidth)
  obtain rfl : first = c := by simpa using hc
  exact not_blank_of_digit (hd.digit _ List.mem_cons_self)

theorem skipBlank_space (h : ∀ c ∈ cs.head?, Text.isBlank c = false) :
    skipBlank (' ' :: cs) = cs := by
  have hspace : Text.isBlank ' ' = true := by decide
  have hskip : skipBlank (' ' :: cs) = skipBlank cs := List.dropWhile_cons_of_pos hspace
  rw [hskip, skipBlank_of_head h]

theorem skipBlank_colon (rest : List Char) : skipBlank (':' :: rest) = ':' :: rest := by
  refine skipBlank_of_head ?_
  rintro c ⟨⟩
  decide

/-- Seconds are read behind their colon. -/
theorem seconds?_append (hd : Digits 2 n cs) : seconds? (':' :: (cs ++ ' ' :: rest)) =
    some (n, ' ' :: rest) := by
  have hcolon : char? ':' (':' :: (cs ++ ' ' :: rest)) = some (cs ++ ' ' :: rest) := rfl
  unfold seconds?
  rw [skipBlank_colon, hcolon]
  exact number?_space hd (by decide) (by decide)

theorem weekday_lt (days : Int) : weekday days < 7 := by
  unfold weekday
  rw [Int.fmod_eq_emod_of_nonneg _ (by decide)]
  omega

/-- The name of a weekday in front is read with its comma. -/
theorem leadingWeekday?_append {i : Nat} (hi : i < 7) (rest : List Char) :
    leadingWeekday? ((weekdayNames.getD i "").toList ++ ',' :: rest) = some (some i, rest) := by
  interval_cases i <;> rfl

theorem name?_month {i : Nat} (hi : i < 12) (rest : List Char) :
    name? monthNames ((monthNames.getD i "").toList ++ rest) = some (i, rest) := by
  interval_cases i <;> rfl

/-- Names start with letters, which are no blanks. -/
theorem head_weekday {i : Nat} (hi : i < 7) (rest : List Char) :
    ∀ c ∈ ((weekdayNames.getD i "").toList ++ rest).head?, Text.isBlank c = false := by
  interval_cases i <;> (rintro c ⟨⟩; decide)

theorem head_month {i : Nat} (hi : i < 12) (rest : List Char) :
    ∀ c ∈ ((monthNames.getD i "").toList ++ rest).head?, Text.isBlank c = false := by
  interval_cases i <;> (rintro c ⟨⟩; decide)

/-! ## §3 Dates -/

/-- The second of the day of an instant. -/
def secondOfDay (t : Instant) : Nat :=
  Int.toNat (Int.fmod t.seconds 86400)

/-- The day of an instant. -/
def dayOf (t : Instant) : Int :=
  Int.fdiv t.seconds 86400

/-- The year of an instant in UTC. -/
def yearOf (t : Instant) : Int :=
  (ofDays (dayOf t)).year

theorem secondOfDay_lt (t : Instant) : secondOfDay t < 86400 := by
  unfold secondOfDay
  rw [Int.fmod_eq_emod_of_nonneg _ (by decide)]
  omega

/-- An instant lies in its second of its day, also before the start of counting. -/
theorem seconds_eq (t : Instant) : dayOf t * 86400 + secondOfDay t = t.seconds := by
  unfold dayOf secondOfDay
  rw [Int.fdiv_eq_ediv_of_nonneg _ (by decide), Int.fmod_eq_emod_of_nonneg _ (by decide)]
  omega

/-- The characters of a date, from the digits of its numbers. -/
def layout (weekday month : Nat) (day year hour minute second : List Char) : List Char :=
  (weekdayNames.getD weekday "").toList ++ ',' :: ' ' :: (day ++ ' ' ::
    ((monthNames.getD month "").toList ++ ' ' :: (year ++ ' ' :: (hour ++ ':' ::
      (minute ++ ':' :: (second ++ " GMT".toList))))))

/-- The years 0 to 9999 are far inside the years that dates can have. -/
theorem range_of_yearOf {t : Instant} (hmin : 0 ≤ yearOf t) (hmax : yearOf t ≤ 9999) :
    minYear ≤ yearOf t ∧ yearOf t ≤ maxYear := by
  unfold minYear maxYear
  omega

/-- A year of at most four digits is written without a sign. -/
theorem showYear_eq {year : Nat} (h : year ≤ 9999) : showYear year = padded 4 year := by
  have hpos : ¬ ((year : Int) < 0) := by omega
  have hshort : ¬ (9999 < (year : Int)) := by omega
  unfold showYear
  simp only [if_neg hpos, if_neg hshort, Int.natAbs_natCast]

/-- What is written for an instant. -/
theorem format?_eq {t : Instant} {year : Nat} (hyear : yearOf t = year) (h : year ≤ 9999) :
    ∃ text, format? t = some text ∧
      text.toList = layout (weekday (dayOf t)) ((ofDays (dayOf t)).month - 1)
        (padded 2 (ofDays (dayOf t)).day).toList (padded 4 year).toList
        (padded 2 (secondOfDay t / 3600)).toList (padded 2 (secondOfDay t / 60 % 60)).toList
        (padded 2 (secondOfDay t % 60)).toList := by
  have hrange : minYear ≤ (ofDays (Int.fdiv t.seconds 86400)).year ∧
      (ofDays (Int.fdiv t.seconds 86400)).year ≤ maxYear :=
    range_of_yearOf (by omega) (by omega)
  unfold format?
  simp only [if_pos hrange]
  refine ⟨_, rfl, ?_⟩
  have hshow : showYear (ofDays (Int.fdiv t.seconds 86400)).year = padded 4 year :=
    (congrArg showYear hyear).trans (showYear_eq h)
  have hcomma : ", ".toList = [',', ' '] := rfl
  have hspace : " ".toList = [' '] := rfl
  have hcolon : ":".toList = [':'] := rfl
  simp only [hshow, layout, dayOf, secondOfDay, String.toList_append, hcomma, hspace, hcolon,
    List.append_assoc, List.cons_append, List.nil_append]

/-- What is laid out as a date is read as the day and the time that it names. -/
theorem parse?_layout {text : String} {w month day year hour minute second : Nat}
    {d y h m s : List Char} {clock : Int} (htext : text.toList = layout w month d y h m s)
    (hw : w < 7) (hmonth : month < 12) (hd : Digits 2 day d) (hy : Digits 4 year y)
    (hh : Digits 2 hour h) (hm : Digits 2 minute m) (hs : Digits 2 second s)
    (hvalid : Date.valid ⟨year, month + 1, day⟩ = true)
    (hweekday : weekday (toDays ⟨year, month + 1, day⟩) = w)
    (hhour : hour < 24) (hminute : minute < 60) (hsecond : second < 60)
    (hclock : toDays ⟨year, month + 1, day⟩ * 86400 + hour * 3600 + minute * 60 + second = clock)
    (hrange : minYear ≤ yearOf ⟨clock, 0⟩ ∧ yearOf ⟨clock, 0⟩ ≤ maxYear) :
    parse? text = some ⟨clock, 0⟩ := by
  have hlabel : ∀ rest : List Char, char? ':' (':' :: rest) = some rest := fun _ => rfl
  unfold parse?
  rw [htext]
  unfold layout
  -- each reader takes the part that is written for it
  refine Option.bind_eq_some_iff.mpr ⟨_, by
    rw [skipBlank_of_head (head_weekday hw _)]
    exact leadingWeekday?_append hw _, ?_⟩
  refine Option.bind_eq_some_iff.mpr ⟨_, by
    rw [skipBlank_space (hd.head (by decide) _)]
    exact number?_space hd (by decide) (by decide), ?_⟩
  refine Option.bind_eq_some_iff.mpr ⟨_, blank?_space (head_month hmonth _), ?_⟩
  refine Option.bind_eq_some_iff.mpr ⟨_, name?_month hmonth _, ?_⟩
  refine Option.bind_eq_some_iff.mpr ⟨_, blank?_space (hy.head (by decide) _), ?_⟩
  refine Option.bind_eq_some_iff.mpr ⟨_, number?_space hy (by decide) (by
    rw [List.length_append, hy.length]
    exact Nat.le_add_right _ _), ?_⟩
  refine Option.bind_eq_some_iff.mpr ⟨_, blank?_space (hh.head (by decide) _), ?_⟩
  refine Option.bind_eq_some_iff.mpr ⟨_, number?_colon hh (by decide) (by decide), ?_⟩
  refine Option.bind_eq_some_iff.mpr ⟨_, by
    rw [skipBlank_colon]
    exact hlabel _, ?_⟩
  refine Option.bind_eq_some_iff.mpr ⟨_, by
    rw [skipBlank_of_head (hm.head (by decide) _)]
    exact number?_colon hm (by decide) (by decide), ?_⟩
  refine Option.bind_eq_some_iff.mpr ⟨(second, " GMT".toList), seconds?_append hs, ?_⟩
  refine Option.bind_eq_some_iff.mpr ⟨_, rfl, ?_⟩
  refine Option.bind_eq_some_iff.mpr ⟨(0, []), by decide, ?_⟩
  -- the date exists and the weekday is that of the date, so nothing is refused
  have hfull : fullYear ((y ++ ' ' :: (h ++ ':' :: (m ++ ':' :: (s ++ " GMT".toList)))).length -
      (' ' :: (h ++ ':' :: (m ++ ':' :: (s ++ " GMT".toList)))).length) year = year := by
    rw [List.length_append, Nat.add_sub_cancel, hy.length]
    rfl
  have hrest : onlyComments ([] : List Char).length [] = true := rfl
  have hleap : ¬ second = 60 := by omega
  have hyear : minYear ≤ (ofDays (Int.fdiv clock 86400)).year ∧
      (ofDays (Int.fdiv clock 86400)).year ≤ maxYear := hrange
  simp only [hfull, hrest, hvalid, hclock, hweekday, Bool.not_true, Bool.false_or,
    decide_eq_false (Nat.not_le.mpr hhour), decide_eq_false (Nat.not_le.mpr hminute),
    decide_eq_false (Nat.not_lt.mpr (Nat.le_of_lt hsecond)), Option.any_some, bne_self_eq_false,
    if_neg hleap, Int.sub_zero, if_pos hyear, Bool.false_eq_true, if_false]

/-- What is written for an instant of the years 0 to 9999: its date, whose numbers have as many
    digits as they are read with. -/
theorem exists_layout {t : Instant} (hmin : 0 ≤ yearOf t) (hmax : yearOf t ≤ 9999) :
    ∃ (text : String) (year month day : Nat) (d y h m s : List Char), format? t = some text ∧
      text.toList = layout (weekday (dayOf t)) month d y h m s ∧
      ofDays (dayOf t) = ⟨year, month + 1, day⟩ ∧ month < 12 ∧
      Digits 2 day d ∧ Digits 4 year y ∧ Digits 2 (secondOfDay t / 3600) h ∧
      Digits 2 (secondOfDay t / 60 % 60) m ∧ Digits 2 (secondOfDay t % 60) s := by
  obtain ⟨year, hyear⟩ := Int.eq_ofNat_of_zero_le hmin
  have hyear' : year ≤ 9999 := by omega
  obtain ⟨text, hformat, htext⟩ := format?_eq hyear hyear'
  obtain ⟨hminYear, hmaxYear⟩ := range_of_yearOf hmin hmax
  have hvalid : (ofDays (dayOf t)).valid = true := valid_ofDays hminYear hmaxYear
  obtain ⟨hfirst, hlast, -, hday⟩ := Date.bounds hvalid
  have hsecond := secondOfDay_lt t
  refine ⟨text, year, (ofDays (dayOf t)).month - 1, (ofDays (dayOf t)).day, _, _, _, _, _, hformat,
    htext, ?_, by omega, digits_padded (by decide) (by omega), digits_padded (by decide) (by omega),
    digits_padded (by decide) (by omega), digits_padded (by decide) (by omega),
    digits_padded (by decide) (by omega)⟩
  rw [Nat.sub_add_cancel hfirst, ← hyear]
  rfl

/-- What is written for an instant of the years 0 to 9999 is read as the whole second that it lies
    in. -/
theorem parse?_format? {t : Instant} (hmin : 0 ≤ yearOf t) (hmax : yearOf t ≤ 9999) :
    ∃ text, format? t = some text ∧ parse? text = some t.floor := by
  obtain ⟨text, year, month, day, d, y, h, m, s, hformat, htext, hdate, hmonth, hd, hy, hh, hm, hs⟩ :=
    exists_layout hmin hmax
  have hrange : minYear ≤ (ofDays (dayOf t)).year ∧ (ofDays (dayOf t)).year ≤ maxYear :=
    range_of_yearOf hmin hmax
  have hvalid := valid_ofDays hrange.1 hrange.2
  have hdays := toDays_ofDays (dayOf t)
  have hsecond := secondOfDay_lt t
  have hseconds := seconds_eq t
  rw [hdate] at hvalid hdays
  refine ⟨text, hformat, parse?_layout htext (weekday_lt _) hmonth hd hy hh hm hs hvalid
    (congrArg weekday hdays) (by omega) (by omega) (by omega) ?_ hrange⟩
  rw [hdays, ← hseconds]
  omega

/-! ## §4 Bounds -/

/-- An instant of no later year than 9999 is far from the last second that a clock can hold. -/
theorem seconds_lt_of_yearOf {t : Instant} (h : yearOf t ≤ 9999) : t.seconds < Instant.maxSeconds := by
  obtain ⟨era, p, hp, hdays⟩ := exists_era (dayOf t)
  -- such a year bounds the era, and the era the day
  have hera : era * 400 ≤ 9999 := by
    have hyear : yearOf t =
        p.yearOfEra + era * 400 + (if monthOf p.day < 10 then 0 else 1) := by
      unfold yearOf
      rw [ofDays_eq hp hdays]
    split at hyear <;> omega
  have hdoe := hp.dayOfEra_lt
  have hsecond := secondOfDay_lt t
  have hseconds := seconds_eq t
  unfold daysToEpoch daysPerEra at hdays
  unfold Instant.maxSeconds
  omega

/-- The characters of a header that can be read as text. -/
def Visible (c : Char) : Prop :=
  0x20 ≤ c.toNat ∧ c.toNat < 0x7F

instance : DecidablePred Visible := fun c =>
  inferInstanceAs (Decidable (0x20 ≤ c.toNat ∧ c.toNat < 0x7F))

theorem Digits.visible (hd : Digits width n cs) : ∀ c ∈ cs, Visible c := by
  intro c hc
  have hbounds := Char.isDigit_iff_toNat.mp (hd.digit c hc)
  have hzero : '0'.toNat = 48 := rfl
  have hnine : '9'.toNat = 57 := rfl
  unfold Visible
  omega

theorem visible_of_all {cs : List Char} (h : (cs.all fun c => decide (Visible c)) = true) :
    ∀ c ∈ cs, Visible c :=
  fun c hc => of_decide_eq_true (List.all_eq_true.mp h c hc)

theorem visible_names :
    (∀ i < 7, ((weekdayNames.getD i "").toList.all fun c => decide (Visible c)) = true) ∧
      ∀ i < 12, ((monthNames.getD i "").toList.all fun c => decide (Visible c)) = true := by
  decide

/-- A date is written in visible characters. -/
theorem visible_of_format? {t : Instant} {text : String} (hmin : 0 ≤ yearOf t) (hmax : yearOf t ≤ 9999)
    (hformat : format? t = some text) : ∀ c ∈ text.toList, Visible c := by
  obtain ⟨text', year, month, day, d, y, h, m, s, hformat', htext, -, hmonth, hd, hy, hh, hm, hs⟩ :=
    exists_layout hmin hmax
  obtain rfl : text = text' := Option.some.inj (hformat.symm.trans hformat')
  have hends : ∀ c ∈ " GMT".toList, Visible c := visible_of_all (by decide)
  rw [htext]
  unfold layout
  simp only [List.forall_mem_append, List.forall_mem_cons]
  exact ⟨visible_of_all (visible_names.1 _ (weekday_lt _)), by decide, by decide, hd.visible,
    by decide, visible_of_all (visible_names.2 _ hmonth), by decide, hy.visible, by decide,
    hh.visible, by decide, hm.visible, by decide, hs.visible, hends⟩

end AssetServer.HttpDate
