import TinyNetwork.LogTime

/-! One log record: the constructors and the destructor of `Logger` in `logger/Logging.cc`.
A constructor starts the record with the time and the level, the user inserts into its
stream, and the destructor adds the trailer and hands the record out. The source path
and the function name are C strings in the memory; the text of a literal is inserted as
it is. -/
namespace TinyNetwork
open BoundedText ByteMemory MachineWord

namespace Logger

inductive LogLevel where
  | TRACE
  | DEBUG
  | INFO
  | WARN
  | ERROR
  | FATAL
  deriving DecidableEq

def getLevelName : LogLevel → List Byte
  | .TRACE => [84, 82, 65, 67, 69, 32]
  | .DEBUG => [68, 69, 66, 85, 71, 32]
  | .INFO => [73, 78, 70, 79, 32, 32]
  | .WARN => [87, 65, 82, 78, 32, 32]
  | .ERROR => [69, 82, 82, 79, 82, 32]
  | .FATAL => [70, 65, 84, 65, 76, 32]

def LogLevel.number : LogLevel → ℤ
  | .TRACE => 0
  | .DEBUG => 1
  | .INFO => 2
  | .WARN => 3
  | .ERROR => 4
  | .FATAL => 5

structure SourceFile where
  data_ : ℕ
  size_ : ℤ

structure LoggerImpl where
  stream_ : LogStream
  level_ : LogLevel
  line_ : ℤ
  basename_ : SourceFile

structure Surroundings where
  memory : Memory
  format : FloatFormat
  localtime : ℤ → Tm
  info : ThreadInfo
  now : ℤ
  data : List Byte
  sized : data.length = kSmallBuffer

inductive Effect where
  | g_output (msg : List Byte)
  | g_flush
  | abort

structure Outcome where
  stream : LogStream
  effects : List Effect

section Code
variable (w : Surroundings) (fuel : ℕ)

def SourceFile.construct (filename : ℕ) : Option SourceFile :=
  (strrchr fuel w.memory filename 47).bind fun slash =>
  let data_ := match slash with
    | some slash => slash + 1
    | none => filename
  (strlen fuel w.memory data_).map fun size => ⟨data_, narrow size⟩

namespace LoggerImpl

/-- `savedErrno` is not used. -/
def construct (level : LogLevel) (_savedErrno : ℤ) (file : ℕ) (line : ℤ) : Option LoggerImpl :=
  (SourceFile.construct w fuel file).map fun basename_ =>
    let s := (LogTime.formatTime w.localtime w.info w.now (LogStream.fresh w.data w.sized)).2
    ⟨⟨s.buffer_.append (getLevelName level)⟩, level, line, basename_⟩

def insert (impl : LoggerImpl) (values : List Insertion) : Option LoggerImpl :=
  (impl.stream_.insertValues fuel w.format w.memory values).map fun (s, _) =>
    { impl with stream_ := s }

def finish (impl : LoggerImpl) : Option LoggerImpl :=
  insert w fuel { impl with stream_ := ⟨impl.stream_.buffer_.append [32, 45, 32]⟩ }
    [.dataTemplate impl.basename_.data_ impl.basename_.size_, .char 58,
      .integer .int impl.line_, .char 10]

def destroy (impl : LoggerImpl) : Option Outcome :=
  (impl.finish w fuel).map fun impl =>
    { stream := impl.stream_
      effects := .g_output impl.stream_.buffer_.handedOut ::
        if impl.level_ = .FATAL then [.g_flush, .abort] else [] }

end LoggerImpl

def construct (file : ℕ) (line : ℤ) : Option LoggerImpl :=
  LoggerImpl.construct w fuel .INFO 0 file line

/-- The level goes where the error number is expected. -/
def constructLevel (file : ℕ) (line : ℤ) (level : LogLevel) : Option LoggerImpl :=
  LoggerImpl.construct w fuel .INFO level.number file line

def constructFunc (file : ℕ) (line : ℤ) (level : LogLevel) (func : ℕ) : Option LoggerImpl :=
  (LoggerImpl.construct w fuel .INFO level.number file line).bind fun impl =>
    impl.insert w fuel [.cString func, .char 32]

inductive LogMacro where
  | LOG_DEBUG
  | LOG_INFO
  | LOG_WARN
  | LOG_ERROR
  | LOG_FATAL
  deriving DecidableEq

namespace LogMacro

def requested : LogMacro → LogLevel
  | LOG_DEBUG => .DEBUG
  | LOG_INFO => .INFO
  | LOG_WARN => .WARN
  | LOG_ERROR => .ERROR
  | LOG_FATAL => .FATAL

def construct (file : ℕ) (line : ℤ) (func : ℕ) : LogMacro → Option LoggerImpl
  | LOG_DEBUG => Logger.constructFunc w fuel file line .DEBUG func
  | LOG_INFO => Logger.construct w fuel file line
  | LOG_WARN => Logger.constructLevel w fuel file line .WARN
  | LOG_ERROR => Logger.constructLevel w fuel file line .ERROR
  | LOG_FATAL => Logger.constructLevel w fuel file line .FATAL

def message (a : LogMacro) (file : ℕ) (line : ℤ) (func : ℕ) (values : List Insertion) :
    Option LoggerImpl :=
  (a.construct w fuel file line func).bind fun impl => impl.insert w fuel values

def statement (a : LogMacro) (file : ℕ) (line : ℤ) (func : ℕ) (values : List Insertion) :
    Option Outcome :=
  (a.message w fuel file line func values).bind fun impl => impl.destroy w fuel

end LogMacro

end Code

section Assembly
variable {w : Surroundings} {fuel : ℕ} {path base name : List Byte} {line : ℤ}
  {file func : ℕ} {a : LogMacro} {values : List Insertion} {pieces : List (Piece Byte)}

def basename (path : List Byte) : List Byte := afterLast 47 path

theorem SourceFile.construct_spec (text : Spells w.memory file path)
    (turns : path.length < fuel) :
    ∃ b, SourceFile.construct w fuel file = some b ∧
      Spells w.memory b.data_ (basename path) ∧ b.size_ = narrow (basename path).length := by
  rcases text.strrchr_eq (c := 47) turns with ⟨absent, found⟩ | ⟨front, back, rfl, last, found⟩
  · refine ⟨⟨file, narrow path.length⟩, ?_, ?_, ?_⟩
    · simp only [SourceFile.construct, found, Option.bind_some, text.strlen_eq turns,
        Option.map_some]
    · rw [basename, afterLast_absent absent]
      exact text
    · rw [basename, afterLast_absent absent]
  · have behind : Spells w.memory (file + front.length + 1) back := text.drop.2.2
    have short : back.length < fuel := by
      rw [List.length_append, List.length_cons] at turns
      omega
    refine ⟨⟨file + front.length + 1, narrow back.length⟩, ?_, ?_, ?_⟩
    · simp only [SourceFile.construct, found, Option.bind_some, behind.strlen_eq short,
        Option.map_some]
    · rw [basename, afterLast_append last]
      exact behind
    · rw [basename, afterLast_append last]

structure Describes (w : Surroundings) (impl : LoggerImpl) (line : ℤ) (base : List Byte) :
    Prop where
  level : impl.level_ = .INFO
  line : impl.line_ = line
  name : Spells w.memory impl.basename_.data_ base
  size : impl.basename_.size_ = narrow base.length

def start (w : Surroundings) : List Byte :=
  LogTime.timePrefix w.localtime w.now ++ getLevelName .INFO

theorem LoggerImpl.construct_spec (text : Spells w.memory file path)
    (turns : path.length < fuel) (line savedErrno : ℤ) :
    ∃ impl, LoggerImpl.construct w fuel .INFO savedErrno file line = some impl ∧
      Describes w impl line (basename path) ∧ impl.stream_.buffer_.content = start w := by
  obtain ⟨b, made, name, size⟩ := SourceFile.construct_spec text turns
  refine ⟨_, by rw [LoggerImpl.construct, made, Option.map_some], ⟨rfl, rfl, name, size⟩, ?_⟩
  have room : (LogTime.timePrefix w.localtime w.now).length + (getLevelName .INFO).length <
      kSmallBuffer := by
    rw [LogTime.timePrefix_length]
    decide
  rw [LogStream.append_offer, LogTime.formatTime_content w.localtime w.info w.now
    (LogStream.fresh_content w.data w.sized), LogStream.offer_plain room, start]

theorem LoggerImpl.insert_spec {impl : LoggerImpl} (describes : Describes w impl line base)
    (renders : List.Forall₂ (LogStream.Renders w.format w.memory) values pieces)
    (turns : 20 + (pieces.flatMap Piece.text).length < fuel) :
    ∃ impl', impl.insert w fuel values = some impl' ∧ Describes w impl' line base ∧
      impl'.stream_.buffer_.content =
        offerAll kSmallBuffer impl.stream_.buffer_.content pieces := by
  obtain ⟨s, reads, inserted, content⟩ :=
    LogStream.insertValues_spec (s := impl.stream_) renders turns
  obtain ⟨level, line, name, size⟩ := describes
  refine ⟨{ impl with stream_ := s }, ?_, ⟨level, line, name, size⟩, content⟩
  rw [LoggerImpl.insert, inserted, Option.map_some]

def header (name : List Byte) : LogMacro → List (Piece Byte)
  | .LOG_DEBUG => [LogStream.plain name, LogStream.plain [32]]
  | _ => []

theorem LogMacro.construct_spec (a : LogMacro) (line : ℤ) (text : Spells w.memory file path)
    (function : LogStream.Shows w.memory func name)
    (turns : 21 + path.length + name.length < fuel) :
    ∃ impl, a.construct w fuel file line func = some impl ∧
      Describes w impl line (basename path) ∧
      impl.stream_.buffer_.content = offerAll kSmallBuffer (start w) (header name a) := by
  have forPath : path.length < fuel := by omega
  cases a with
  | LOG_DEBUG =>
    obtain ⟨impl, made, describes, content⟩ :=
      LoggerImpl.construct_spec text forPath line LogLevel.DEBUG.number
    have renders : List.Forall₂ (LogStream.Renders w.format w.memory)
        [.cString func, .char 32] (header name .LOG_DEBUG) :=
      .cons (.cString function) (.cons .char .nil)
    have forHeader : 20 + ((header name .LOG_DEBUG).flatMap Piece.text).length < fuel := by
      simp only [header, LogStream.plain, List.flatMap_cons, List.flatMap_nil,
        List.length_append, List.length_cons, List.length_nil]
      omega
    obtain ⟨impl', inserted, describes', content'⟩ :=
      LoggerImpl.insert_spec describes renders forHeader
    refine ⟨impl', ?_, describes', content ▸ content'⟩
    rw [LogMacro.construct, Logger.constructFunc, made, Option.bind_some, inserted]
  | LOG_INFO => exact LoggerImpl.construct_spec text forPath line 0
  | LOG_WARN => exact LoggerImpl.construct_spec text forPath line LogLevel.WARN.number
  | LOG_ERROR => exact LoggerImpl.construct_spec text forPath line LogLevel.ERROR.number
  | LOG_FATAL => exact LoggerImpl.construct_spec text forPath line LogLevel.FATAL.number

theorem LogMacro.message_spec (a : LogMacro) (line : ℤ) (text : Spells w.memory file path)
    (function : LogStream.Shows w.memory func name)
    (renders : List.Forall₂ (LogStream.Renders w.format w.memory) values pieces)
    (turns : 21 + path.length + name.length + (pieces.flatMap Piece.text).length < fuel) :
    ∃ impl, a.message w fuel file line func values = some impl ∧
      Describes w impl line (basename path) ∧
      impl.stream_.buffer_.content =
        offerAll kSmallBuffer (start w) (header name a ++ pieces) := by
  have forStart : 21 + path.length + name.length < fuel := by omega
  have forValues : 20 + (pieces.flatMap Piece.text).length < fuel := by omega
  obtain ⟨impl, made, describes, content⟩ :=
    LogMacro.construct_spec a line text function forStart
  obtain ⟨impl', inserted, describes', content'⟩ :=
    LoggerImpl.insert_spec describes renders forValues
  refine ⟨impl', ?_, describes', ?_⟩
  · rw [LogMacro.message, made, Option.bind_some, inserted]
  · rw [content', content, offerAll, offerAll, offerAll, List.foldl_append]

def place (base : List Byte) (line : ℤ)
    (short : (Decimal.ofInt line).length ≤ LogStream.kMaxNumericSize) : List (Piece Byte) :=
  [LogStream.plain base, LogStream.plain [58], LogStream.numeric (Decimal.ofInt line) short,
    LogStream.plain [10]]

def trailer (base : List Byte) (line : ℤ)
    (short : (Decimal.ofInt line).length ≤ LogStream.kMaxNumericSize) : List (Piece Byte) :=
  LogStream.plain [32, 45, 32] :: place base line short

theorem int_length (range : IntegerType.int.Holds line) : (Decimal.ofInt line).length ≤ 11 := by
  have low : -2 ^ 31 ≤ line := range.1
  have high : line < 2 ^ 31 := range.2
  exact Decimal.ofInt_length (by decide) (by omega)

theorem int_short (range : IntegerType.int.Holds line) :
    (Decimal.ofInt line).length ≤ LogStream.kMaxNumericSize := (LogStream.ofInt_short range).le

theorem basename_length_le (path : List Byte) : (basename path).length ≤ path.length := by
  have sub := (List.takeWhile_sublist (l := path.reverse) fun c => c ≠ (47 : Byte)).length_le
  rwa [List.length_reverse, ← List.length_reverse] at sub

theorem LoggerImpl.destroy_spec {impl : LoggerImpl} (describes : Describes w impl line base)
    (range : IntegerType.int.Holds line) (small : base.length < 2 ^ 31)
    (turns : 40 + base.length < fuel) :
    ∃ outcome, impl.destroy w fuel = some outcome ∧
      outcome.stream.buffer_.content =
        offerAll kSmallBuffer impl.stream_.buffer_.content (trailer base line (int_short range)) ∧
      outcome.effects = [.g_output outcome.stream.buffer_.handedOut] := by
  obtain ⟨level, rfl, name, size⟩ := describes
  have size_ : widen impl.basename_.size_ = base.length := by rw [size, widen_narrow small]
  have text : LogStream.Renders w.format w.memory
      (.dataTemplate impl.basename_.data_ impl.basename_.size_) (LogStream.plain base) := by
    have shown : LogStream.Renders w.format w.memory
        (.dataTemplate impl.basename_.data_ impl.basename_.size_)
        (LogStream.plain (read w.memory impl.basename_.data_ (widen impl.basename_.size_))) :=
      .dataTemplate
    rwa [size_, name.read_eq] at shown
  have renders : List.Forall₂ (LogStream.Renders w.format w.memory)
      [.dataTemplate impl.basename_.data_ impl.basename_.size_, .char 58,
        .integer .int impl.line_, .char 10] (place base impl.line_ (int_short range)) :=
    .cons text (.cons .char (.cons (.integer range _) (.cons .char .nil)))
  have digits := int_length range
  have forPlace : 20 + ((place base impl.line_ (int_short range)).flatMap Piece.text).length <
      fuel := by
    simp only [place, LogStream.plain, LogStream.numeric, List.flatMap_cons, List.flatMap_nil,
      List.length_append, List.length_cons, List.length_nil]
    omega
  have dashed : Describes w { impl with stream_ := ⟨impl.stream_.buffer_.append [32, 45, 32]⟩ }
      impl.line_ base := ⟨level, rfl, name, size⟩
  obtain ⟨impl', inserted, ⟨level', -, -, -⟩, content⟩ :=
    LoggerImpl.insert_spec dashed renders forPlace
  refine ⟨_, by rw [LoggerImpl.destroy, LoggerImpl.finish, inserted, Option.map_some], ?_, ?_⟩
  · rw [trailer, offerAll_cons, ← LogStream.append_offer]
    exact content
  · have quiet : impl'.level_ ≠ .FATAL := by
      rw [level']
      decide
    simp only [if_neg quiet]

end Assembly

section Trailer
open LogStream
variable {base content : List Byte} {line : ℤ}
  {short : (Decimal.ofInt line).length ≤ kMaxNumericSize}

def trailerText (base : List Byte) (line : ℤ) : List Byte :=
  [32, 45, 32] ++ base ++ [58] ++ Decimal.ofInt line ++ [10]

def CompleteLine (base : List Byte) (line : ℤ) (content : List Byte) : Prop :=
  List.IsSuffix (trailerText base line) content ∧ content.count 10 = 1

theorem dash_room (room : content.length + 4 ≤ kSmallBuffer) :
    offer kSmallBuffer content (plain [32, 45, 32]) = content ++ [32, 45, 32] := offer_plain room

theorem number_room (digits : (Decimal.ofInt line).length ≤ 11)
    (room : content.length + 49 ≤ kSmallBuffer) :
    offerAll kSmallBuffer content [plain [58], numeric (Decimal.ofInt line) short, plain [10]] =
      content ++ [58] ++ Decimal.ofInt line ++ [10] := by
  have colon : offer kSmallBuffer content (plain [58]) = content ++ [58] :=
    offer_plain (by rw [List.length_singleton]; omega)
  have number : offer kSmallBuffer (content ++ [58]) (numeric (Decimal.ofInt line) short) =
      content ++ [58] ++ Decimal.ofInt line := by
    apply offer_taken
    rw [List.length_append, List.length_singleton]
    exact room
  have newline : offer kSmallBuffer (content ++ [58] ++ Decimal.ofInt line) (plain [10]) =
      content ++ [58] ++ Decimal.ofInt line ++ [10] := by
    apply offer_plain
    rw [List.length_append, List.length_append, List.length_singleton, List.length_singleton]
    omega
  rw [offerAll_cons, colon, offerAll_cons, number, offerAll_cons, newline]
  rfl

theorem trailer_room (digits : (Decimal.ofInt line).length ≤ 11)
    (room : content.length + base.length + 52 ≤ kSmallBuffer) :
    offerAll kSmallBuffer content (trailer base line short) =
      content ++ trailerText base line := by
  have dashed : (content ++ [32, 45, 32]).length = content.length + 3 := List.length_append
  have named : (content ++ [32, 45, 32] ++ base).length = content.length + 3 + base.length := by
    rw [List.length_append, dashed]
  have name : offer kSmallBuffer (content ++ [32, 45, 32]) (plain base) =
      content ++ [32, 45, 32] ++ base := offer_plain (by rw [dashed]; omega)
  rw [trailer, place, offerAll_cons, dash_room (by omega), offerAll_cons, name,
    number_room digits (by rw [named]; omega), trailerText]
  simp only [List.append_assoc]

theorem trailer_nameless (digits : (Decimal.ofInt line).length ≤ 11)
    (room : content.length + 52 ≤ kSmallBuffer)
    (long : kSmallBuffer ≤ content.length + base.length + 3) :
    offerAll kSmallBuffer content (trailer base line short) =
      content ++ [32, 45, 32] ++ [58] ++ Decimal.ofInt line ++ [10] := by
  have dashed : (content ++ [32, 45, 32]).length = content.length + 3 := List.length_append
  have name : offer kSmallBuffer (content ++ [32, 45, 32]) (plain base) =
      content ++ [32, 45, 32] := by
    apply offer_dropped
    change ¬_ + (base.length + 1) ≤ kSmallBuffer
    rw [dashed]
    omega
  rw [trailer, place, offerAll_cons, dash_room (by omega), offerAll_cons, name,
    number_room digits (by rw [dashed]; omega)]

theorem ofInt_last (v : ℤ) :
    ∃ front, Decimal.ofInt v = front ++ [Decimal.digit (v.natAbs % 10)] := by
  have digits := FixedWidth.ofNat_eq v.natAbs
  generalize (if v.natAbs / 10 = 0 then [] else Decimal.ofNat (v.natAbs / 10)) = front at digits
  unfold Decimal.ofInt
  split_ifs
  · exact ⟨Decimal.minus :: front, by rw [digits, List.cons_append]⟩
  · exact ⟨front, digits⟩

theorem not_number_suffix (front content : List Byte) :
    ¬List.IsSuffix (front ++ Decimal.ofInt line) (content ++ [58]) := by
  rintro ⟨before, same⟩
  obtain ⟨digits, number⟩ := ofInt_last line
  rw [number, ← List.append_assoc, ← List.append_assoc] at same
  have last := (List.append_inj' same rfl).2
  have isDigit := Decimal.digit_isDigit (Nat.mod_lt line.natAbs (by decide : 10 > 0))
  rw [List.singleton_inj.mp last] at isDigit
  exact absurd isDigit (by decide)

theorem number_clean (line : ℤ) : 10 ∉ Decimal.ofInt line := fun mem =>
  LogTime.char_ne_newline (FixedWidth.ofInt_char mem) rfl

theorem newline_taken {front : List Byte} (clean : 10 ∉ content)
    (ends : List.IsSuffix (front ++ [10]) (offer kSmallBuffer content (plain [10]))) :
    content.length + 2 ≤ kSmallBuffer ∧ List.IsSuffix front content := by
  by_cases room : content.length + 2 ≤ kSmallBuffer
  · have taken : offer kSmallBuffer content (plain [10]) = content ++ [10] := offer_taken room
    rw [taken] at ends
    exact ⟨room, List.suffix_append_self_iff.mp ends⟩
  · have dropped : offer kSmallBuffer content (plain [10]) = content := offer_dropped room
    rw [dropped] at ends
    exact absurd (ends.subset (List.mem_append_right _ List.mem_cons_self)) clean

theorem number_taken {front : List Byte}
    (ends : List.IsSuffix (front ++ Decimal.ofInt line)
      (offer kSmallBuffer (content ++ [58]) (numeric (Decimal.ofInt line) short))) :
    (content ++ [58]).length + 48 ≤ kSmallBuffer := by
  by_contra full
  have dropped : offer kSmallBuffer (content ++ [58]) (numeric (Decimal.ofInt line) short) =
      content ++ [58] := offer_dropped full
  rw [dropped] at ends
  exact not_number_suffix _ _ ends

theorem trailer_cases (clean : 10 ∉ content) (cleanBase : 10 ∉ base)
    (complete : List.IsSuffix (trailerText base line)
      (offerAll kSmallBuffer content (trailer base line short))) :
    content.length + base.length + 52 ≤ kSmallBuffer ∨
      content.length + 52 ≤ kSmallBuffer ∧ kSmallBuffer ≤ content.length + base.length + 3 := by
  rw [trailer, place, offerAll_cons, offerAll_cons, offerAll_cons, offerAll_cons, offerAll_cons]
    at complete
  obtain ⟨c₁, dashed⟩ : ∃ c, c = offer kSmallBuffer content (plain [32, 45, 32]) := ⟨_, rfl⟩
  obtain ⟨c₂, named⟩ : ∃ c, c = offer kSmallBuffer c₁ (plain base) := ⟨_, rfl⟩
  obtain ⟨c₃, parted⟩ : ∃ c, c = offer kSmallBuffer c₂ (plain [58]) := ⟨_, rfl⟩
  obtain ⟨c₄, numbered⟩ : ∃ c, c = offer kSmallBuffer c₃ (numeric (Decimal.ofInt line) short) :=
    ⟨_, rfl⟩
  rw [← dashed, ← named, ← parted, ← numbered] at complete
  have le₁ : content.length ≤ c₁.length := dashed ▸ le_offer_length _
  have le₂ : c₁.length ≤ c₂.length := named ▸ le_offer_length _
  have le₃ : c₂.length ≤ c₃.length := parted ▸ le_offer_length _
  have le₄ : c₃.length ≤ c₄.length := numbered ▸ le_offer_length _
  have clean₁ : 10 ∉ c₁ := dashed ▸ offer_not_mem clean fun _ => by decide
  have clean₂ : 10 ∉ c₂ := named ▸ offer_not_mem clean₁ fun _ => cleanBase
  have clean₃ : 10 ∉ c₃ := parted ▸ offer_not_mem clean₂ fun _ => by decide
  have clean₄ : 10 ∉ c₄ := numbered ▸ offer_not_mem clean₃ fun _ => number_clean line
  -- the pieces from the last one back: each was taken, down to the dash
  obtain ⟨newline, behind⟩ := newline_taken clean₄ complete
  have colon : c₃ = c₂ ++ [58] := parted.trans (offer_plain (by
    rw [List.length_singleton]
    omega))
  have size₃ : c₃.length = c₂.length + 1 := by rw [colon, List.length_append]; rfl
  have number : c₃.length + 48 ≤ kSmallBuffer := by
    rw [numbered, colon] at behind
    rw [colon]
    exact number_taken behind
  have dash : c₁ = content ++ [32, 45, 32] := dashed.trans (dash_room (by omega))
  have size₁ : c₁.length = content.length + 3 := by rw [dash, List.length_append]; rfl
  by_cases room : c₁.length + (base.length + 1) ≤ kSmallBuffer
  · left
    have size₂ : c₂.length = c₁.length + base.length := by
      rw [named.trans (offer_taken room), List.length_append]
      rfl
    omega
  · right
    omega

/-- The trailer fits, or it stands there because the message has ended with the beginning of
it and the file name was dropped. -/
def TrailerStands (base content : List Byte) (avail : ℕ) : Prop :=
  base.length + 52 ≤ avail ∨ 52 ≤ avail ∧ avail ≤ base.length + 3 ∧
    List.IsSuffix ([32, 45, 32] ++ base) (content ++ [32, 45, 32])

theorem count_newline {front : List Byte} (clean : 10 ∉ front) :
    (front ++ [10]).count 10 = 1 := by
  rw [List.count_append, List.count_eq_zero.mpr clean]
  rfl

theorem trailer_complete_iff (digits : (Decimal.ofInt line).length ≤ 11)
    (clean : 10 ∉ content) (cleanBase : 10 ∉ base) :
    CompleteLine base line (offerAll kSmallBuffer content (trailer base line short)) ↔
      TrailerStands base content (kSmallBuffer - content.length) := by
  have dash : (10 : Byte) ∉ [32, 45, 32] := by decide
  have colon : (10 : Byte) ∉ [58] := by decide
  constructor
  · rintro ⟨ends, -⟩
    rcases trailer_cases clean cleanBase ends with room | ⟨room, long⟩
    · left
      omega
    · right
      refine ⟨by omega, by omega, ?_⟩
      rw [trailer_nameless digits room long, trailerText] at ends
      exact List.suffix_append_self_iff.mp (List.suffix_append_self_iff.mp
        (List.suffix_append_self_iff.mp ends))
  · rintro (room | ⟨room, long, ends⟩)
    · rw [trailer_room digits (by omega)]
      refine ⟨List.suffix_append _ _, ?_⟩
      rw [trailerText, ← List.append_assoc]
      exact count_newline (List.not_mem_append clean (List.not_mem_append (List.not_mem_append
        (List.not_mem_append dash cleanBase) colon) (number_clean line)))
    · rw [trailer_nameless digits (by omega) (by omega)]
      constructor
      · rw [trailerText]
        exact List.suffix_append_self_iff.mpr (List.suffix_append_self_iff.mpr
          (List.suffix_append_self_iff.mpr ends))
      · exact count_newline (List.not_mem_append (List.not_mem_append
          (List.not_mem_append clean dash) colon) (number_clean line))

end Trailer

section Records
open LogStream
variable {w : Surroundings} {path name : List Byte} {line : ℤ} {file func : ℕ} {a : LogMacro}
  {values : List Insertion} {pieces : List (Piece Byte)}

theorem start_length (w : Surroundings) : (start w).length = 30 := by
  rw [start, List.length_append, LogTime.timePrefix_length]
  rfl

theorem start_clean (w : Surroundings) : 10 ∉ start w :=
  List.not_mem_append (fun time => LogTime.timePrefix_char time rfl) (by decide)

theorem header_clean (cleanName : 10 ∉ name) : ∀ p ∈ header name a, 10 ∉ p.text := by
  cases a with
  | LOG_DEBUG =>
    simp only [header, List.forall_mem_cons, plain]
    exact ⟨cleanName, by decide, by simp⟩
  | _ => exact fun p mem => absurd mem List.not_mem_nil

theorem header_need : ∀ p ∈ header name a, p.need ≤ p.text.length + kMaxNumericSize := by
  cases a with
  | LOG_DEBUG =>
    simp only [header, List.forall_mem_cons, plain]
    refine ⟨Nat.add_le_add_left (by decide) _, by decide, by simp⟩
  | _ => exact fun p mem => absurd mem List.not_mem_nil

/-- A record is a complete line exactly when its message leaves room for the trailer, up to a
coincidence at the end of the message. -/
theorem record_complete_iff (w : Surroundings) (a : LogMacro) (file func : ℕ) (line : ℤ)
    (values : List Insertion) (path name : List Byte) (pieces : List (Piece Byte))
    (text : Spells w.memory file path) (short : path.length < 1000)
    (function : Shows w.memory func name) (range : IntegerType.int.Holds line)
    (renders : List.Forall₂ (Renders w.format w.memory) values pieces)
    (cleanBase : 10 ∉ basename path) (cleanName : 10 ∉ name)
    (clean : ∀ p ∈ pieces, p.need ≤ kSmallBuffer → 10 ∉ p.text) :
    ∃ enough, ∀ fuel ≥ enough, ∃ impl outcome,
      a.message w fuel file line func values = some impl ∧
      impl.destroy w fuel = some outcome ∧
      (CompleteLine (basename path) line outcome.stream.buffer_.content ↔
        TrailerStands (basename path) impl.stream_.buffer_.content
          impl.stream_.buffer_.avail) := by
  refine ⟨41 + path.length + name.length + (pieces.flatMap Piece.text).length,
    fun fuel turns => ?_⟩
  have base := basename_length_le path
  have forMessage : 21 + path.length + name.length + (pieces.flatMap Piece.text).length < fuel := by
    omega
  have forTrailer : 40 + (basename path).length < fuel := by omega
  obtain ⟨impl, made, describes, message⟩ :=
    LogMacro.message_spec a line text function renders forMessage
  obtain ⟨outcome, destroyed, content, -⟩ :=
    LoggerImpl.destroy_spec describes range (by omega) forTrailer
  have cleanMessage : 10 ∉ impl.stream_.buffer_.content := by
    rw [message]
    refine offerAll_not_mem (start_clean w) fun p mem taken => ?_
    rcases List.mem_append.mp mem with inHeader | inPieces
    · exact header_clean cleanName p inHeader
    · exact clean p inPieces taken
  refine ⟨impl, outcome, made, destroyed, ?_⟩
  rw [content, trailer_complete_iff (int_length range) cleanMessage cleanBase,
    FixedBuffer.content_length, FixedBuffer.avail]

def layoutText (w : Surroundings) (level : LogLevel) (a : LogMacro) (name base : List Byte)
    (line : ℤ) (pieces : List (Piece Byte)) : List Byte :=
  LogTime.timePrefix w.localtime w.now ++ getLevelName level ++
    (header name a).flatMap Piece.text ++ pieces.flatMap Piece.text ++ trailerText base line

structure FollowsLayout (w : Surroundings) (a : LogMacro) (name base : List Byte) (line : ℤ)
    (pieces : List (Piece Byte)) (outcome : Outcome) : Prop where
  content : outcome.stream.buffer_.content = layoutText w a.requested a name base line pieces
  effects : outcome.effects = .g_output outcome.stream.buffer_.handedOut ::
    if a.requested = .FATAL then [.g_flush, .abort] else []

theorem message_room (a : LogMacro) (base : List Byte)
    (renders : List.Forall₂ (Renders w.format w.memory) values pieces)
    (room : 30 + ((header name a).flatMap Piece.text).length +
      (pieces.flatMap Piece.text).length + base.length + 52 ≤ kSmallBuffer) :
    offerAll kSmallBuffer (start w) (header name a ++ pieces) =
      start w ++ (header name a).flatMap Piece.text ++ pieces.flatMap Piece.text := by
  have asked : ∀ p ∈ header name a ++ pieces, p.need ≤ p.text.length + kMaxNumericSize := by
    intro p mem
    rcases List.mem_append.mp mem with inHeader | inPieces
    · exact header_need p inHeader
    · exact Renders.need_le_all renders p inPieces
  rw [offerAll_room asked, List.flatMap_append, List.append_assoc]
  rw [start_length, List.flatMap_append, List.length_append]
  change _ + 48 ≤ kSmallBuffer
  omega

/-- Every statement makes the record of an `INFO` one, and only hands it out. -/
theorem statement_room (a : LogMacro) (text : Spells w.memory file path)
    (function : Shows w.memory func name) (range : IntegerType.int.Holds line)
    (renders : List.Forall₂ (Renders w.format w.memory) values pieces)
    (room : 30 + ((header name a).flatMap Piece.text).length +
      (pieces.flatMap Piece.text).length + (basename path).length + 52 ≤ kSmallBuffer) :
    ∃ enough, ∀ fuel ≥ enough, ∃ outcome,
      a.statement w fuel file line func values = some outcome ∧
      outcome.stream.buffer_.content =
        layoutText w .INFO a name (basename path) line pieces ∧
      outcome.effects = [.g_output outcome.stream.buffer_.handedOut] := by
  refine ⟨5000 + path.length + name.length, fun fuel turns => ?_⟩
  have small : kSmallBuffer = 4000 := rfl
  obtain ⟨impl, made, describes, message⟩ :=
    LogMacro.message_spec a line text function renders (by omega : _ < fuel)
  obtain ⟨outcome, destroyed, content, effects⟩ :=
    LoggerImpl.destroy_spec describes range (by omega) (by omega : _ < fuel)
  refine ⟨outcome, ?_, ?_, effects⟩
  · rw [LogMacro.statement, made, Option.bind_some, destroyed]
  · rw [content, message, message_room a (basename path) renders room,
      trailer_room (int_length range), layoutText, start]
    rw [List.length_append, List.length_append, start_length]
    exact room

theorem levelName_iff (level : LogLevel) :
    getLevelName .INFO = getLevelName level ↔ level = .INFO := by
  cases level <;> decide

/-- The record follows the layout exactly for the statement that asks for `INFO`. -/
theorem record_layout_iff (w : Surroundings) (a : LogMacro) (file func : ℕ) (line : ℤ)
    (values : List Insertion) (path name : List Byte) (pieces : List (Piece Byte))
    (text : Spells w.memory file path) (function : Shows w.memory func name)
    (range : IntegerType.int.Holds line)
    (renders : List.Forall₂ (Renders w.format w.memory) values pieces)
    (room : 30 + ((header name a).flatMap Piece.text).length +
      (pieces.flatMap Piece.text).length + (basename path).length + 52 ≤ kSmallBuffer) :
    ∃ enough, ∀ fuel ≥ enough, ∃ outcome,
      a.statement w fuel file line func values = some outcome ∧
      (FollowsLayout w a name (basename path) line pieces outcome ↔ a.requested = .INFO) := by
  obtain ⟨enough, spec⟩ := statement_room a text function range renders room
  refine ⟨enough, fun fuel turns => ?_⟩
  obtain ⟨outcome, done, content, effects⟩ := spec fuel turns
  refine ⟨outcome, done, fun follows => ?_, fun info => ⟨?_, ?_⟩⟩
  · have same := content.symm.trans follows.content
    simp only [layoutText, List.append_assoc, List.append_cancel_left_eq,
      List.append_cancel_right_eq] at same
    exact (levelName_iff _).mp same
  · rw [content, info]
  · rw [effects, info]
    rfl

def sampleMemory : Memory := fun p =>
  if p < 10000 then
    [0, 115, 114, 99, 47, 97, 46, 99, 99, 0, 109, 97, 105, 110, 0].getD p 0
  else 65

theorem sampleSized : (List.replicate kSmallBuffer (0 : Byte)).length = kSmallBuffer :=
  List.length_replicate

def sample : Surroundings where
  memory := sampleMemory
  format := zeroFormat
  localtime := LogTime.firstDay
  info := LogTime.newThread
  now := 0
  data := List.replicate kSmallBuffer 0
  sized := sampleSized

theorem samplePath : Spells sample.memory 1 [115, 114, 99, 47, 97, 46, 99, 99] := by decide

theorem sampleName : Shows sample.memory 10 [109, 97, 105, 110] := by decide

theorem record_complete_word :
    ∃ fuel impl outcome,
      LogMacro.LOG_WARN.message sample fuel 1 7 10 [.string 10000 3] = some impl ∧
      impl.destroy sample fuel = some outcome ∧
      (CompleteLine [97, 46, 99, 99] 7 outcome.stream.buffer_.content ↔
        TrailerStands [97, 46, 99, 99] impl.stream_.buffer_.content
          impl.stream_.buffer_.avail) := by
  obtain ⟨enough, complete⟩ := record_complete_iff sample .LOG_WARN 1 10 7 [.string 10000 3] _ _ _
    samplePath (by decide) sampleName (by decide) (.cons .string .nil) (by decide) (by decide)
    (by decide +kernel)
  exact ⟨enough, complete enough le_rfl⟩

/-- A message of 3969 letters leaves one byte, and nothing of the trailer is taken. -/
theorem record_loses_newline :
    10 ∉ read sample.memory 10000 3969 ∧
    ∃ enough, ∀ fuel ≥ enough, ∃ outcome,
      LogMacro.LOG_INFO.statement sample fuel 1 7 10 [.string 10000 3969] = some outcome ∧
      10 ∉ outcome.stream.buffer_.content ∧
      ¬CompleteLine [97, 46, 99, 99] 7 outcome.stream.buffer_.content := by
  have letters : 10 ∉ read sample.memory 10000 3969 := by
    intro mem
    obtain ⟨q, behind, here⟩ := mem_read mem
    change (if q < 10000 then _ else 65) = (10 : Byte) at here
    rw [if_neg (Nat.not_lt.mpr behind)] at here
    exact absurd here (by decide)
  refine ⟨letters, 5000, fun fuel turns => ?_⟩
  have renders : List.Forall₂ (Renders sample.format sample.memory) [.string 10000 3969]
      [plain (read sample.memory 10000 3969)] := .cons .string .nil
  have size : (read sample.memory 10000 3969).length = 3969 := read_length 3969
  generalize read sample.memory 10000 3969 = text at letters renders size
  have forMessage : 21 + 8 + 4 + ([plain text].flatMap Piece.text).length < fuel := by
    rw [List.flatMap_singleton]
    change 33 + text.length < fuel
    omega
  obtain ⟨impl, made, describes, message⟩ :=
    LogMacro.message_spec .LOG_INFO 7 samplePath sampleName renders forMessage
  obtain ⟨outcome, destroyed, content, -⟩ := LoggerImpl.destroy_spec describes
    (by decide : IntegerType.int.Holds 7) (by decide) (Nat.lt_of_lt_of_le (by decide) turns)
  have filled : impl.stream_.buffer_.content = start sample ++ text := by
    rw [message]
    exact offer_plain (by rw [start_length, size]; decide)
  have full : outcome.stream.buffer_.content = start sample ++ text := by
    rw [content, filled]
    apply offerAll_full
    rw [List.length_append, start_length, size]
    decide
  have none_ : 10 ∉ outcome.stream.buffer_.content := by
    rw [full]
    exact List.not_mem_append (start_clean sample) letters
  refine ⟨outcome, ?_, none_, fun complete => none_ (complete.1.subset ?_)⟩
  · rw [LogMacro.statement, made, Option.bind_some, destroyed]
  · exact List.mem_append_right _ List.mem_cons_self

theorem record_layout_info :
    ∃ fuel outcome, LogMacro.LOG_INFO.statement sample fuel 1 7 10 [.char 33] = some outcome ∧
      FollowsLayout sample .LOG_INFO [109, 97, 105, 110] [97, 46, 99, 99] 7 [plain [33]]
        outcome := by
  obtain ⟨enough, spec⟩ := record_layout_iff sample .LOG_INFO 1 10 7 [.char 33] _ _ [plain [33]]
    samplePath sampleName (by decide) (.cons .char .nil) (by decide)
  obtain ⟨outcome, done, layout⟩ := spec enough le_rfl
  exact ⟨enough, outcome, done, layout.mpr rfl⟩

/-- A fatal record calls itself `INFO`, and the process goes on. -/
theorem record_not_fatal :
    ∃ enough, ∀ fuel ≥ enough, ∃ outcome,
      LogMacro.LOG_FATAL.statement sample fuel 1 7 10 [.char 33] = some outcome ∧
      outcome.stream.buffer_.content = LogTime.timePrefix sample.localtime sample.now ++
        getLevelName .INFO ++ [33] ++ trailerText [97, 46, 99, 99] 7 ∧
      outcome.effects = [.g_output outcome.stream.buffer_.handedOut] ∧
      ¬FollowsLayout sample .LOG_FATAL [109, 97, 105, 110] [97, 46, 99, 99] 7 [plain [33]]
        outcome := by
  obtain ⟨enough, spec⟩ := statement_room .LOG_FATAL samplePath sampleName
    (by decide : IntegerType.int.Holds 7)
    (.cons .char .nil : List.Forall₂ (Renders sample.format sample.memory) [.char 33] [plain [33]])
    (by decide)
  refine ⟨enough, fun fuel turns => ?_⟩
  obtain ⟨outcome, done, content, effects⟩ := spec fuel turns
  refine ⟨outcome, done, ?_, effects, fun follows => ?_⟩
  · rw [content]
    simp only [layoutText, header, List.flatMap_nil, List.append_nil]
    rfl
  · have ends := follows.effects
    rw [effects] at ends
    exact absurd (List.tail_eq_of_cons_eq ends) (List.cons_ne_nil _ _).symm

end Records

end Logger
end TinyNetwork
