import Mathlib.Order.Monotone.Basic
import Mathlib.Tactic.NormNum
import Mt5HttpApi.Backtest.IniBuilder
import Mt5HttpApi.Lib.Decimal
import Mt5HttpApi.Lib.Glob

/-!
# The days and the names of log archives

A log that is rotated is kept under its own name, the day and `.gz`. A day is the number of days
since 1970, and `ymd` is what `date +%Y%m%d` prints for it; the script compares such numbers, and a
later day has a greater one (`strictMono_ymd`).

* `archiveName_injective`: an archive belongs to one log and one day.
* `not_isLog_of_isArchive`, `not_isLog_archiveName`: no archive is a live log.
-/

namespace Logs

open Decimal

/-- The name of a file in a log directory. -/
abbrev Name := List Char

/-! ## Days -/

/-- A day of the calendar. -/
structure Civil where
  year : ℕ
  month : ℕ
  day : ℕ
  deriving DecidableEq, Repr

namespace Civil

/-- The day after. -/
def next (c : Civil) : Civil :=
  if c.day < Backtest.IniBuilder.daysInMonth c.year c.month then { c with day := c.day + 1 }
  else if c.month < 12 then ⟨c.year, c.month + 1, 1⟩
  else ⟨c.year + 1, 1, 1⟩

example : (Civil.mk 1972 2 28).next = ⟨1972, 2, 29⟩ ∧ (Civil.mk 1972 2 29).next = ⟨1972, 3, 1⟩ := by
  decide

/-- The year, the month and the day in eight digits. -/
def number (c : Civil) : ℕ := c.year * 10000 + c.month * 100 + c.day

/-- The month and the day are ones that there are. -/
structure Valid (c : Civil) : Prop where
  month : 1 ≤ c.month ∧ c.month ≤ 12
  day : 1 ≤ c.day ∧ c.day ≤ 31

theorem daysInMonth_le (year month : ℕ) : Backtest.IniBuilder.daysInMonth year month ≤ 31 := by
  rw [Backtest.IniBuilder.daysInMonth]
  split_ifs <;> decide

theorem Valid.next {c : Civil} (h : c.Valid) : c.next.Valid := by
  have hlast := daysInMonth_le c.year c.month
  obtain ⟨⟨hmonth, hmonth'⟩, hday, hday'⟩ := h
  rw [Civil.next]
  split_ifs <;> constructor <;> dsimp only <;> omega

/-- The number of the next day is greater. -/
theorem Valid.number_lt {c : Civil} (h : c.Valid) : c.number < c.next.number := by
  obtain ⟨⟨hmonth, hmonth'⟩, hday, hday'⟩ := h
  rw [Civil.next]
  -- within the month, into the next month, into the next year
  split_ifs <;> simp only [number] <;> omega

end Civil

/-- The day that is so many days after 1 January 1970. -/
def civil : ℕ → Civil
  | 0 => ⟨1970, 1, 1⟩
  | days + 1 => (civil days).next

/-- What `date -u -d "@$((days * 86400))" +%Y%m%d` prints, as a number. -/
def ymd (days : ℕ) : ℕ := (civil days).number

theorem valid_civil (days : ℕ) : (civil days).Valid := by
  induction days with
  | zero => exact ⟨⟨by decide, by decide⟩, by decide, by decide⟩
  | succ days ih => exact ih.next

/-- Days are in the order of their numbers. -/
theorem strictMono_ymd : StrictMono ymd :=
  strictMono_nat_of_lt_succ fun days => (valid_civil days).number_lt

/-- What `date` prints. -/
def dateText (days : ℕ) : Name := Nat.toDigits 10 (ymd days)

/-! ## Names -/

/-- `${1%.gz}`. -/
def stripGz (name : Name) : Name :=
  if ".gz".toList <:+ name then name.take (name.length - 3) else name

/-- `_archive_date`: what stands after the last dot, with any `.gz` stripped first. -/
def archiveDate (name : Name) : Name := (stripGz name).rtakeWhile (· ≠ '.')

/-- `_is_archive`: eight digits. -/
def isArchive (name : Name) : Bool :=
  (archiveDate name).length = 8 && (archiveDate name).all Char.isDigit

/-- `[ "$(_archive_date "$1")" -lt "$2" ]` compares numbers. -/
def archiveNumber (name : Name) : ℕ := Nat.ofDigitChars 10 (archiveDate name) 0

/-- `archive="${f}.${yesterday}.gz"`. -/
def archiveName (f date : Name) : Name := f ++ '.' :: date ++ ".gz".toList

/-- `"${archive}.tmp"`. -/
def tmpName (f date : Name) : Name := archiveName f date ++ ".tmp".toList

/-- How file names are matched by the shell, in the C locale. -/
def shellRules : Glob.Rules where
  fold := id
  inClass stuff c := stuff == "0-9".toList && c.isDigit
  dot _ h := h

/-- A pattern matches a name in its directory; a dot at the front has to be matched by a dot. -/
def shellMatches (pattern name : Name) : Bool :=
  name.head? ≠ some '.' && Glob.globMatches shellRules pattern name

/-- `"$dir"/*.log`. -/
def livePattern : Name := "*.log".toList

/-- `"$dir"/*.log.[0-9]*`. -/
def archivePattern : Name := "*.log.[0-9]*".toList

/-- What the processes of the stack write to. -/
def isLog (name : Name) : Prop := ".log".toList <:+ name

instance : DecidablePred isLog := fun name => inferInstanceAs (Decidable (_ <:+ name))

example : shellMatches livePattern "full.log".toList = true ∧
    shellMatches archivePattern "full.log.20260821.gz".toList = true ∧
    isArchive "full.log.20260821.gz".toList = true ∧
    isArchive "full.log.20260821.gz.tmp".toList = false := by decide

variable {name f f' date date' : Name}

theorem isLog_of_shellMatches (h : shellMatches livePattern name = true) : isLog name := by
  rw [shellMatches, Bool.and_eq_true] at h
  have hstar : Glob.globMatches shellRules ([] ++ '*' :: ".log".toList) name = true := h.2
  obtain ⟨-, front, middle, back, rfl, -, hback⟩ :=
    (Glob.globMatches_star (by decide) (by decide)).mp hstar
  rw [Glob.Same] at hback
  simp only [shellRules, List.map_id] at hback
  rw [hback, isLog, ← List.append_assoc]
  exact List.suffix_append _ _

theorem stripGz_gz (stem : Name) : stripGz (stem ++ ".gz".toList) = stem := by
  rw [stripGz, if_pos (List.suffix_append _ _)]
  simp

/-- The last part of a name is found behind a dot, if there is none in it. -/
theorem rtakeWhile_dot (hdate : '.' ∉ date) :
    (f ++ '.' :: date).rtakeWhile (· ≠ '.') = date := by
  rw [List.rtakeWhile, List.reverse_append, List.reverse_cons, List.append_assoc,
    List.takeWhile_append_of_pos]
  · simp
  · intro c hc
    simpa using fun heq : c = '.' => hdate (heq ▸ List.mem_reverse.mp hc)

theorem archiveDate_archiveName (hdate : '.' ∉ date) : archiveDate (archiveName f date) = date := by
  rw [archiveDate, archiveName, stripGz_gz, rtakeWhile_dot hdate]

theorem dot_notMem_dateText (days : ℕ) : '.' ∉ dateText days := fun h =>
  ne_of_isDigit ((isNumeral_toDigits _).2 '.' h) rfl rfl

/-- The number that the script reads off the archive of a day is that of the day. -/
@[simp]
theorem archiveNumber_archiveName (f : Name) (days : ℕ) :
    archiveNumber (archiveName f (dateText days)) = ymd days := by
  rw [archiveNumber, archiveDate_archiveName (dot_notMem_dateText days), dateText,
    Nat.ofDigitChars_ten_toDigits]

/-- An archive is of one log and of one day. -/
theorem archiveName_injective (hdate : '.' ∉ date) (hdate' : '.' ∉ date')
    (h : archiveName f date = archiveName f' date') : f = f' ∧ date = date' := by
  have hdates : date = date' := by
    rw [← archiveDate_archiveName (f := f) hdate, h, archiveDate_archiveName hdate']
  subst hdates
  rw [archiveName, archiveName] at h
  exact ⟨List.append_cancel_right (List.append_cancel_right h), rfl⟩

/-! ## Which names are not which -/

/-- Two endings of the same length are not both there. -/
theorem not_suffix_of_suffix {a b : Name} (hlength : a.length = b.length) (hne : a ≠ b)
    (h : a <:+ name) : ¬ b <:+ name := fun h' =>
  hne ((List.suffix_of_suffix_length_le h h' hlength.le).eq_of_length hlength)

/-- The three names of a rotation differ. -/
theorem rotation_names_ne (f date : Name) : f ≠ archiveName f date ∧ f ≠ tmpName f date ∧
    archiveName f date ≠ tmpName f date := by
  refine ⟨fun h => ?_, fun h => ?_, fun h => ?_⟩ <;>
    simpa [archiveName, tmpName] using congrArg List.length h

theorem not_isLog_tmpName (f date : Name) : ¬ isLog (tmpName f date) :=
  not_suffix_of_suffix (by decide) (by decide) (List.suffix_append _ _)

theorem gz_suffix_archiveName (f date : Name) : ".gz".toList <:+ archiveName f date :=
  List.suffix_append _ _

theorem not_isLog_of_gz (h : ".gz".toList <:+ name) : ¬ isLog name := by
  intro hlog
  have hog : "og".toList <:+ name := by
    exact List.IsSuffix.trans (by decide) hlog
  have hz : "gz".toList <:+ name := List.IsSuffix.trans (by decide) h
  exact not_suffix_of_suffix (by decide) (by decide) hog hz

theorem not_isLog_archiveName (f date : Name) : ¬ isLog (archiveName f date) :=
  not_isLog_of_gz (gz_suffix_archiveName f date)

theorem not_gz_tmpName (f date : Name) : ¬ ".gz".toList <:+ tmpName f date := by
  intro h
  have hz : "gz".toList <:+ tmpName f date := List.IsSuffix.trans (by decide) h
  have hmp : "mp".toList <:+ tmpName f date :=
    List.IsSuffix.trans (by decide) (List.suffix_append (archiveName f date) ".tmp".toList)
  exact not_suffix_of_suffix (by decide) (by decide) hmp hz

theorem not_isArchive_tmpName (f date : Name) : isArchive (tmpName f date) ≠ true := by
  have hdate : archiveDate (tmpName f date) = "tmp".toList := by
    rw [archiveDate, stripGz, if_neg (not_gz_tmpName f date)]
    exact rtakeWhile_dot (by decide)
  rw [isArchive, hdate]
  decide

/-- What ends in a date is no text of letters behind the last dot. -/
theorem rtakeWhile_dateText (f : Name) (days : ℕ) :
    (f ++ '.' :: dateText days).rtakeWhile (· ≠ '.') = dateText days :=
  rtakeWhile_dot (dot_notMem_dateText days)

theorem dateText_ne {text : Name} (days : ℕ) (htext : text.all Char.isDigit = false) :
    dateText days ≠ text := by
  rintro rfl
  have hdigits : (dateText days).all Char.isDigit = true :=
    List.all_eq_true.mpr (isNumeral_toDigits _).2
  cases hdigits.symm.trans htext

/-- An archive that an earlier version has made is no log and no copy. -/
theorem not_isLog_plain (f : Name) (days : ℕ) : ¬ isLog (f ++ '.' :: dateText days) := by
  rintro ⟨front, h⟩
  refine dateText_ne days (show "log".toList.all Char.isDigit = false by decide) ?_
  rw [← rtakeWhile_dateText f, ← h]
  exact rtakeWhile_dot (by decide)

theorem plain_ne_tmpName (f g : Name) (days : ℕ) (date : Name) :
    f ++ '.' :: dateText days ≠ tmpName g date := by
  intro h
  refine dateText_ne days (show "tmp".toList.all Char.isDigit = false by decide) ?_
  rw [← rtakeWhile_dateText f, h]
  exact rtakeWhile_dot (by decide)

/-- What ends in a date, compressed or not, is no live log. -/
theorem not_isLog_of_isArchive (h : isArchive name = true) : ¬ isLog name := by
  rintro ⟨front, rfl⟩
  rw [isArchive, Bool.and_eq_true, decide_eq_true_eq] at h
  have hstrip : stripGz (front ++ ".log".toList) = front ++ ".log".toList :=
    if_neg fun hgz => not_isLog_of_gz hgz (List.suffix_append _ _)
  have hdate : archiveDate (front ++ ".log".toList) = "log".toList := by
    rw [archiveDate, hstrip]
    exact rtakeWhile_dot (by decide)
  rw [hdate] at h
  exact absurd h.1 (by decide)

end Logs
