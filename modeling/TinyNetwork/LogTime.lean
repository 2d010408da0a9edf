import TinyNetwork.FixedWidth
import TinyNetwork.LogInsertion

/-! The time at the start of a log record: `LoggerImpl::formatTime` in
`logger/Logging.cc`. The calendar is written as year, month, day, hour, minute and
second, of which the first 17 characters are kept, and behind them stand the
microseconds. The calendar comes from `localtime`. -/
namespace TinyNetwork
open BoundedText FixedWidth MachineWord MemoryRegion

/-- The fields of `struct tm` that are used, in the ranges that `localtime` fills them in. -/
structure Tm where
  tm_year : ℤ
  tm_mon : ℤ
  tm_mday : ℤ
  tm_hour : ℤ
  tm_min : ℤ
  tm_sec : ℤ
  ranges : (0 ≤ tm_mon ∧ tm_mon ≤ 11) ∧ (1 ≤ tm_mday ∧ tm_mday ≤ 31) ∧
    (0 ≤ tm_hour ∧ tm_hour ≤ 23) ∧ (0 ≤ tm_min ∧ tm_min ≤ 59) ∧ (0 ≤ tm_sec ∧ tm_sec ≤ 60)

structure ThreadInfo where
  t_time : List Byte
  t_lastSecond : ℤ
  sized : t_time.length = 64

namespace LogTime

def kMicroSecondsPerSecond : ℤ := 1000 * 1000

def seconds (now : ℤ) : ℤ := now.tdiv kMicroSecondsPerSecond

def microseconds (now : ℤ) : ℤ := now.tmod kMicroSecondsPerSecond

/-- At most the size of the array is written, with the NUL. -/
def snprintf (array text : List Byte) : List Byte :=
  overwrite array 0 (text.take (array.length - 1) ++ [0])

@[simp] theorem snprintf_length (array text : List Byte) :
    (snprintf array text).length = array.length := overwrite_length _ _ _

def calendar (tm_time : Tm) : List Byte :=
  blankPadded 4 (tm_time.tm_year + 1900) ++ 47 :: (zeroPadded 2 (tm_time.tm_mon + 1) ++
    47 :: (zeroPadded 2 tm_time.tm_mday ++ 32 :: (zeroPadded 2 tm_time.tm_hour ++
    58 :: (zeroPadded 2 tm_time.tm_min ++ 58 :: zeroPadded 2 tm_time.tm_sec))))

section Code
variable (localtime : ℤ → Tm)

def formatTime (info : ThreadInfo) (now : ℤ) (s : LogStream) : ThreadInfo × LogStream :=
  let t_time := snprintf info.t_time (calendar (localtime (seconds now)))
  let buf := snprintf (List.replicate 32 0) (zeroPadded 6 (microseconds now) ++ [32])
  (⟨t_time, seconds now, (snprintf_length _ _).trans info.sized⟩,
    ⟨(s.buffer_.append (t_time.take 17)).append (buf.take 7)⟩)

end Code

section Text

def clock (tm_time : Tm) : List Byte := (calendar tm_time).take 17

def fraction (microseconds : ℤ) : List Byte := (zeroPadded 6 microseconds ++ [32]).take 7

theorem snprintf_take {array text : List Byte} {k : ℕ} (short : k < array.length)
    (long : k ≤ text.length) : (snprintf array text).take k = text.take k := by
  have size : (text.take (array.length - 1) ++ [0]).length ≤ array.length := by
    rw [List.length_append, List.length_take, List.length_singleton]
    omega
  have reach : k ≤ (text.take (array.length - 1)).length := by
    rw [List.length_take]
    omega
  rw [snprintf, overwrite_of_le (by rwa [Nat.zero_add]), List.take_zero, List.nil_append,
    List.append_assoc, List.take_append_of_le_length reach, List.take_take,
    Nat.min_eq_left (by omega)]

theorem calendar_length (t : Tm) : 19 ≤ (calendar t).length := by
  have year := le_blankPadded_length 4 (t.tm_year + 1900)
  have two := le_zeroPadded_length 2
  have month := two (t.tm_mon + 1)
  have day := two t.tm_mday
  have hour := two t.tm_hour
  have minute := two t.tm_min
  have second := two t.tm_sec
  simp only [calendar, List.length_append, List.length_cons]
  omega

theorem clock_length (t : Tm) : (clock t).length = 17 := by
  have size := calendar_length t
  rw [clock, List.length_take]
  omega

theorem fraction_length (microseconds : ℤ) : (fraction microseconds).length = 7 := by
  have size := le_zeroPadded_length 6 microseconds
  rw [fraction, List.length_take, List.length_append, List.length_singleton]
  omega

def timePrefix (localtime : ℤ → Tm) (now : ℤ) : List Byte :=
  clock (localtime (seconds now)) ++ fraction (microseconds now)

theorem timePrefix_length (localtime : ℤ → Tm) (now : ℤ) :
    (timePrefix localtime now).length = 24 := by
  rw [timePrefix, List.length_append, clock_length, fraction_length]

theorem char_ne_newline {c : Byte} (h : c = Decimal.minus ∨ Decimal.isDigit c = true) :
    c ≠ 10 := by
  rintro rfl
  exact absurd h (by decide)

theorem calendar_char {t : Tm} {c : Byte} (h : c ∈ calendar t) : c ≠ 10 := by
  simp only [calendar, List.mem_append, List.mem_cons] at h
  rcases h with year | rfl | month | rfl | day | rfl | hour | rfl | minute | rfl | second
  · rcases blankPadded_char year with rfl | other
    · decide
    · exact char_ne_newline other
  · decide
  · exact char_ne_newline (zeroPadded_char month)
  · decide
  · exact char_ne_newline (zeroPadded_char day)
  · decide
  · exact char_ne_newline (zeroPadded_char hour)
  · decide
  · exact char_ne_newline (zeroPadded_char minute)
  · decide
  · exact char_ne_newline (zeroPadded_char second)

theorem timePrefix_char {localtime : ℤ → Tm} {now : ℤ} {c : Byte}
    (h : c ∈ timePrefix localtime now) : c ≠ 10 := by
  rcases List.mem_append.mp h with time | rest
  · exact calendar_char (List.mem_of_mem_take time)
  · rcases List.mem_append.mp (List.mem_of_mem_take rest) with digits | blank
    · exact char_ne_newline (zeroPadded_char digits)
    · rw [List.mem_singleton.mp blank]
      decide

theorem formatTime_content (localtime : ℤ → Tm) (info : ThreadInfo) (now : ℤ) {s : LogStream}
    (start : s.buffer_.content = []) :
    (formatTime localtime info now s).2.buffer_.content = timePrefix localtime now := by
  have calendar_ := calendar_length (localtime (seconds now))
  have digits := le_zeroPadded_length 6 (microseconds now)
  have first : (snprintf info.t_time (calendar (localtime (seconds now)))).take 17 =
      clock (localtime (seconds now)) :=
    snprintf_take (by rw [info.sized]; decide) (by omega)
  have second : (snprintf (List.replicate 32 0) (zeroPadded 6 (microseconds now) ++ [32])).take 7 =
      fraction (microseconds now) := by
    refine snprintf_take (by decide) ?_
    rw [List.length_append, List.length_singleton]
    omega
  simp only [formatTime, first, second]
  have empty : ([] : List Byte).length + (clock (localtime (seconds now))).length <
      kSmallBuffer := by
    rw [List.length_nil, clock_length]
    decide
  have room : (clock (localtime (seconds now))).length + (fraction (microseconds now)).length <
      kSmallBuffer := by
    rw [clock_length, fraction_length]
    decide
  rw [LogStream.append_offer, LogStream.append_offer, start, LogStream.offer_plain empty,
    List.nil_append, LogStream.offer_plain room, timePrefix]

end Text

section Order
open Decimal

def fields (t : Tm) : List ℤ := [t.tm_year, t.tm_mon, t.tm_mday, t.tm_hour, t.tm_min, t.tm_sec]

def minute (t : Tm) : List ℤ := [t.tm_year, t.tm_mon, t.tm_mday, t.tm_hour, t.tm_min]

def FourDigits (t : Tm) : Prop := 1000 ≤ t.tm_year + 1900 ∧ t.tm_year + 1900 ≤ 9999

instance (t : Tm) : Decidable (FourDigits t) := by
  unfold FourDigits
  infer_instance

def layout : Layout := [(4, 47), (2, 47), (2, 32), (2, 58), (2, 58)]

def shown (t : Tm) : List ℕ :=
  [(t.tm_year + 1900).natAbs, (t.tm_mon + 1).natAbs, t.tm_mday.natAbs, t.tm_hour.natAbs,
    t.tm_min.natAbs]

theorem shown_fits {t : Tm} (year : FourDigits t) : Fits layout (shown t) := by
  obtain ⟨low, high⟩ := year
  have ranges := t.ranges
  simp only [layout, shown, Fits, and_true]
  omega

theorem two_digits {v : ℤ} (positive : 0 ≤ v) (small : v < 100) :
    zeroPadded 2 v = field 2 v.natAbs := zeroPadded_eq (by decide) positive (by omega)

theorem clock_eq {t : Tm} (year : FourDigits t) : clock t = record layout (shown t) := by
  have size : (record layout (shown t)).length = 17 := record_length (shown_fits year)
  have year_ : blankPadded 4 (t.tm_year + 1900) = field 4 (t.tm_year + 1900).natAbs := by
    obtain ⟨low, high⟩ := year
    exact blankPadded_eq (by omega) (by omega) (by omega)
  have ranges := t.ranges
  have mon : zeroPadded 2 (t.tm_mon + 1) = field 2 (t.tm_mon + 1).natAbs :=
    two_digits (by omega) (by omega)
  have mday : zeroPadded 2 t.tm_mday = field 2 t.tm_mday.natAbs := two_digits (by omega) (by omega)
  have hour : zeroPadded 2 t.tm_hour = field 2 t.tm_hour.natAbs := two_digits (by omega) (by omega)
  have min : zeroPadded 2 t.tm_min = field 2 t.tm_min.natAbs := two_digits (by omega) (by omega)
  have whole : calendar t = record layout (shown t) ++ zeroPadded 2 t.tm_sec := by
    rw [calendar, year_, mon, mday, hour, min]
    simp only [layout, shown, record, List.append_assoc, List.cons_append, List.nil_append]
  rw [clock, whole, ← size]
  exact List.take_left

theorem clock_eq_iff {t u : Tm} (ht : FourDigits t) (hu : FourDigits u) :
    clock t = clock u ↔ minute t = minute u := by
  have equal : clock t = clock u ↔ shown t = shown u := by
    rw [clock_eq ht, clock_eq hu]
    exact ⟨record_inj (shown_fits ht) (shown_fits hu), fun same => same ▸ rfl⟩
  rw [equal]
  obtain ⟨low₁, -⟩ := ht
  obtain ⟨low₂, -⟩ := hu
  have ranges₁ := t.ranges
  have ranges₂ := u.ranges
  simp only [shown, minute, List.cons.injEq, and_true]
  omega

theorem clock_lt_iff {t u : Tm} (ht : FourDigits t) (hu : FourDigits u) :
    clock t < clock u ↔ minute t < minute u := by
  rw [clock_eq ht, clock_eq hu, record_lt_iff (shown_fits ht) (shown_fits hu)]
  obtain ⟨low₁, -⟩ := ht
  obtain ⟨low₂, -⟩ := hu
  have ranges₁ := t.ranges
  have ranges₂ := u.ranges
  simp only [shown, minute, List.cons_lt_cons_iff, List.not_lt_nil, and_false, or_false]
  omega

theorem minute_of_fields {t u : Tm} (h : fields t < fields u) :
    minute t < minute u ∨ minute t = minute u := by
  simp only [fields, minute, List.cons_lt_cons_iff, List.not_lt_nil, and_false, or_false,
    List.cons.injEq, and_true] at h ⊢
  omega

/-- The digit that is cut off a negative remainder of six digits, and the blank that stands
in its place behind fewer digits. -/
def rank (size : ℕ) : ℕ := if size < 100000 then 20 * size else 2 * size + 1

def MicrosecondsBefore (x y : ℤ) : Prop :=
  if x < 0 then 0 ≤ y ∨ rank x.natAbs < rank y.natAbs else 0 ≤ y ∧ x < y

instance (x y : ℤ) : Decidable (MicrosecondsBefore x y) := by
  unfold MicrosecondsBefore
  infer_instance

theorem fraction_positive {x : ℤ} (positive : 0 ≤ x) (small : x < 1000000) :
    fraction x = field 6 x.natAbs ++ [32] := by
  have padded : zeroPadded 6 x = field 6 x.natAbs :=
    zeroPadded_eq (by decide) positive (by omega)
  rw [fraction, padded]
  exact List.take_of_length_le (by rw [List.length_append, field_length]; rfl)

theorem fraction_negative {x : ℤ} (negative : x < 0) (small : -1000000 < x) :
    fraction x = minus :: (field 5 (if x.natAbs < 100000 then x.natAbs else x.natAbs / 10) ++
      [if x.natAbs < 100000 then 32 else digit (x.natAbs % 10)]) := by
  generalize size : x.natAbs = n
  have below : n < 10 ^ 6 := by omega
  rw [fraction, zeroPadded, if_pos negative, size]
  split_ifs with short
  · rw [padded_eq (by decide) short]
    exact List.take_of_length_le (by
      rw [List.cons_append, List.length_cons, List.length_append, field_length]
      rfl)
  · have long := lt_ofNat_length (Nat.not_lt.mp short : 10 ^ 5 ≤ n)
    have digits : ofNat n = field 6 n := by
      have full : 6 - (ofNat n).length = 0 := by omega
      rw [← padded_eq (by decide) below, full]
      rfl
    have none_ : 6 - 1 - (ofNat n).length = 0 := by omega
    rw [none_, digits, List.replicate_zero, List.nil_append, List.cons_append, List.take_succ_cons]
    exact congrArg _ (List.take_left' (field_length 6 n))

theorem single_lt_iff {c d : Byte} : [c] < [d] ↔ c < d := by
  rw [List.cons_lt_cons_iff]
  simp only [List.not_lt_nil, and_false, or_false]

/-- A sign stands before every digit. -/
theorem minus_lt_field {k n : ℕ} (rest tail : List Byte) :
    minus :: rest < field (k + 1) n ++ tail := by
  obtain ⟨c, digits, text⟩ := List.exists_cons_of_length_eq_add_one (field_length (k + 1) n)
  have isDigit_ : isDigit c = true := field_isDigit (text ▸ List.mem_cons_self)
  rw [text, List.cons_append, List.cons_lt_cons_iff]
  left
  simp only [isDigit, Bool.and_eq_true, decide_eq_true_eq] at isDigit_
  exact UInt8.lt_of_lt_of_le (by decide : minus < 48) isDigit_.1

theorem blank_lt_digit {d : ℕ} (h : d < 10) : 32 < digit d := by
  rw [UInt8.lt_iff_toNat_lt, digit_toNat h]
  change 32 < 48 + d
  omega

theorem negative_lt_iff {n k : ℕ} (hn : n < 1000000) (hk : k < 1000000) :
    field 5 (if n < 100000 then n else n / 10) ++ [if n < 100000 then 32 else digit (n % 10)] <
      field 5 (if k < 100000 then k else k / 10) ++ [if k < 100000 then 32 else digit (k % 10)] ↔
    rank n < rank k := by
  have small : ∀ n : ℕ, n % 10 < 10 := fun n => Nat.mod_lt n (by decide)
  have size : ∀ n : ℕ, n < 1000000 → (if n < 100000 then n else n / 10) < 10 ^ 5 := by
    intro n hn
    split_ifs <;> omega
  have equal : field 5 (if n < 100000 then n else n / 10) =
      field 5 (if k < 100000 then k else k / 10) ↔
      (if n < 100000 then n else n / 10) = if k < 100000 then k else k / 10 :=
    ⟨field_inj (size n hn) (size k hk), fun same => same ▸ rfl⟩
  rw [append_lt_append_iff (by rw [field_length, field_length]),
    field_lt_iff (size n hn) (size k hk), equal, single_lt_iff]
  unfold rank
  split_ifs with shortN shortK shortK
  · have refl : ¬(32 : Byte) < 32 := by decide
    simp only [refl, and_false, or_false]
    omega
  · have less := blank_lt_digit (small k)
    simp only [less, and_true]
    omega
  · have less : ¬digit (n % 10) < 32 := UInt8.lt_asymm (blank_lt_digit (small n))
    simp only [less, and_false, or_false]
    omega
  · rw [digit_lt_iff (small n) (small k)]
    omega

theorem fraction_lt_iff {x y : ℤ} (hx : -1000000 < x ∧ x < 1000000)
    (hy : -1000000 < y ∧ y < 1000000) : fraction x < fraction y ↔ MicrosecondsBefore x y := by
  unfold MicrosecondsBefore
  split_ifs with negative
  · rw [fraction_negative negative hx.1]
    by_cases positive : 0 ≤ y
    · rw [fraction_positive positive hy.2]
      exact iff_of_true (minus_lt_field _ _) (Or.inl positive)
    · rw [fraction_negative (by omega) hy.1, List.cons_lt_cons_self,
        negative_lt_iff (by omega) (by omega), or_iff_right positive]
  · rw [fraction_positive (by omega) hx.2]
    by_cases positive : 0 ≤ y
    · have refl : ¬[(32 : Byte)] < [32] := by decide
      have size : (field 6 x.natAbs).length = (field 6 y.natAbs).length := by
        rw [field_length, field_length]
      rw [fraction_positive positive hy.2, append_lt_append_iff size,
        field_lt_iff (by omega) (by omega)]
      simp only [refl, and_false, or_false, positive, true_and]
      omega
    · rw [fraction_negative (by omega) hy.1]
      exact iff_of_false (List.lt_asymm (minus_lt_field _ _)) (fun both => positive both.1)

theorem microseconds_range (now : ℤ) :
    -1000000 < microseconds now ∧ microseconds now < 1000000 := by
  have size : (microseconds now).natAbs = now.natAbs % 1000000 :=
    Int.natAbs_tmod now kMicroSecondsPerSecond
  omega

theorem seconds_mono {a b : ℤ} (before : a < b) : seconds a ≤ seconds b :=
  Int.tdiv_le_tdiv (by decide) before.le

theorem timePrefix_lt_iff {localtime : ℤ → Tm} {a b : ℤ} (before : a < b)
    (year₁ : FourDigits (localtime (seconds a))) (year₂ : FourDigits (localtime (seconds b)))
    (monotone : ∀ s t, seconds a ≤ s → s < t → t ≤ seconds b →
      fields (localtime s) < fields (localtime t)) :
    timePrefix localtime a < timePrefix localtime b ↔
      minute (localtime (seconds a)) ≠ minute (localtime (seconds b)) ∨
      MicrosecondsBefore (microseconds a) (microseconds b) := by
  have ordered : minute (localtime (seconds a)) < minute (localtime (seconds b)) ∨
      minute (localtime (seconds a)) = minute (localtime (seconds b)) := by
    rcases (seconds_mono before).eq_or_lt with same | later
    · exact Or.inr (congrArg (fun s => minute (localtime s)) same)
    · exact minute_of_fields (monotone _ _ le_rfl later le_rfl)
  rw [timePrefix, timePrefix, append_lt_append_iff (by rw [clock_length, clock_length]),
    clock_lt_iff year₁ year₂, clock_eq_iff year₁ year₂,
    fraction_lt_iff (microseconds_range a) (microseconds_range b)]
  rcases ordered with less | equal
  · have different : minute (localtime (seconds a)) ≠ minute (localtime (seconds b)) := by
      intro equal
      rw [equal] at less
      exact List.lt_irrefl _ less
    exact iff_of_true (Or.inl less) (Or.inl different)
  · rw [equal]
    simp only [List.lt_irrefl, ne_eq, not_true_eq_false, true_and]

/-- Of two instants the earlier has the smaller prefix exactly when their minutes differ or,
the second being lost, the texts of their microseconds are in order. -/
theorem prefixes_ordered_iff (localtime : ℤ → Tm) (a b : ℤ) (info₁ info₂ : ThreadInfo)
    (data₁ data₂ : List Byte) (sized₁ : data₁.length = kSmallBuffer)
    (sized₂ : data₂.length = kSmallBuffer) (before : a < b)
    (year₁ : FourDigits (localtime (seconds a))) (year₂ : FourDigits (localtime (seconds b)))
    (monotone : ∀ s t, seconds a ≤ s → s < t → t ≤ seconds b →
      fields (localtime s) < fields (localtime t)) :
    (formatTime localtime info₁ a (LogStream.fresh data₁ sized₁)).2.buffer_.content <
        (formatTime localtime info₂ b (LogStream.fresh data₂ sized₂)).2.buffer_.content ↔
      minute (localtime (seconds a)) ≠ minute (localtime (seconds b)) ∨
      MicrosecondsBefore (microseconds a) (microseconds b) := by
  rw [formatTime_content localtime info₁ a (LogStream.fresh_content data₁ sized₁),
    formatTime_content localtime info₂ b (LogStream.fresh_content data₂ sized₂)]
  exact timePrefix_lt_iff before year₁ year₂ monotone

def firstDay (s : ℤ) : Tm where
  tm_year := 70
  tm_mon := 0
  tm_mday := 1
  tm_hour := s / 3600 % 24
  tm_min := s / 60 % 60
  tm_sec := s % 60
  ranges := by omega

theorem firstDay_mono {s t : ℤ} (start : 0 ≤ s) (later : s < t) (night : t < 86400) :
    fields (firstDay s) < fields (firstDay t) := by
  simp only [fields, firstDay, List.cons_lt_cons_self, List.cons_lt_cons_iff, List.not_lt_nil,
    and_false, or_false]
  omega

def newThread : ThreadInfo := ⟨List.replicate 64 0, 0, List.length_replicate⟩

theorem prefixes_ordered_minutes :
    (formatTime firstDay newThread 500000 LogStream.empty).2.buffer_.content <
      (formatTime firstDay newThread 60250000 LogStream.empty).2.buffer_.content := by
  refine (prefixes_ordered_iff firstDay 500000 60250000 newThread newThread _ _
    List.length_replicate List.length_replicate (by decide) (by decide) (by decide) ?_).mpr
    (Or.inl (by decide))
  intro s t start later night
  exact firstDay_mono (le_trans (by decide) start) later (lt_of_le_of_lt night (by decide))

/-- 1.5 seconds, 2.25 seconds and 2.5 seconds after midnight. -/
theorem prefixes_lose_seconds :
    FourDigits (firstDay 1) ∧ FourDigits (firstDay 2) ∧
    (∀ s t, 1 ≤ s → s < t → t ≤ 2 → fields (firstDay s) < fields (firstDay t)) ∧
    ¬(formatTime firstDay newThread 1500000 LogStream.empty).2.buffer_.content <
      (formatTime firstDay newThread 2250000 LogStream.empty).2.buffer_.content ∧
    (formatTime firstDay newThread 1500000 LogStream.empty).2.buffer_.content =
      (formatTime firstDay newThread 2500000 LogStream.empty).2.buffer_.content := by
  have start : LogStream.empty.buffer_.content = [] := FixedBuffer.construct_content _ _
  refine ⟨by decide, by decide, fun s t low later high => ?_, ?_, ?_⟩
  · exact firstDay_mono (by omega) later (by omega)
  · rw [formatTime_content firstDay newThread 1500000 start,
      formatTime_content firstDay newThread 2250000 start]
    decide +kernel
  · rw [formatTime_content firstDay newThread 1500000 start,
      formatTime_content firstDay newThread 2500000 start]
    decide +kernel

end Order

end LogTime
end TinyNetwork
