import TinyNetwork.ConnectionRequests
import TinyNetwork.PatternSearch

/-! Lines out of a `Buffer`: `findCRLF` of `net/Buffer.cc`, and a connection whose user code
takes the lines it finds and answers them. A line ends at the first `"\r\n"`, which may arrive in
two pieces; whatever the pieces, the lines taken are those of the stream received. -/
namespace TinyNetwork
open MachineWord PatternSearch StreamHandler

namespace Buffer
variable {b : Buffer}

def kCRLF : List Byte := [13, 10]

/-- `std::search(peek(), beginWrite(), kCRLF, kCRLF + 2)`; `NULL` stands for the end. -/
def findCRLF (b : Buffer) : Option ℕ :=
  let crlf := b.readerIndex_ + search kCRLF b.readable
  if crlf = b.writerIndex_ then none else some crlf

theorem findCRLF_eq (h : WellFormed b) : b.findCRLF =
    if search kCRLF b.readable < b.readable.length then
      some (b.readerIndex_ + search kCRLF b.readable)
    else none := by
  have inside := search_le kCRLF b.readable
  have size := (readable_length h).trans (readableBytes_eq h)
  have order := h.reader_le
  unfold findCRLF
  dsimp only
  by_cases found : search kCRLF b.readable < b.readable.length
  · rw [if_pos found, if_neg (by omega)]
  · rw [if_neg found, if_pos (by omega)]

def takeLine (b : Buffer) : Option (List (Option Byte) × Buffer) :=
  b.findCRLF.map fun crlf =>
    let (line, b) := b.retrieveAsString (sizeSub crlf b.readerIndex_)
    (line, b.retrieve 2)

theorem takeLine_spec (h : WellFormed b) (found : search kCRLF b.readable < b.readable.length) :
    ∃ c, b.takeLine = some ((b.readable.take (search kCRLF b.readable)).map some, c) ∧
      WellFormed c ∧ c.readable = b.readable.drop (search kCRLF b.readable + 2) := by
  have size := (readable_length h).trans (readableBytes_eq h)
  have small := h.writer_le.trans h.size_le
  unfold maxSize at small
  have pointer : sizeSub (b.readerIndex_ + search kCRLF b.readable) b.readerIndex_ =
      search kCRLF b.readable := by
    rw [sizeSub_of_le (Nat.le_add_right _ _) (by omega), Nat.add_sub_cancel_left]
  have inside : search kCRLF b.readable ≤ b.readableBytes := by
    rw [← readable_length h]
    omega
  have string := retrieveAsString_fst h inside
  have once := retrieve_wellFormed h (search kCRLF b.readable)
  refine ⟨(b.retrieve (search kCRLF b.readable)).retrieve 2, ?_, retrieve_wellFormed once 2, ?_⟩
  · rw [takeLine, findCRLF_eq h, if_pos found, Option.map_some, pointer, ← string]
    rfl
  · rw [retrieve_readable once, retrieve_readable h, List.drop_drop]

theorem takeLine_none (h : WellFormed b) (none_ : ¬search kCRLF b.readable < b.readable.length) :
    b.takeLine = none := by
  rw [takeLine, findCRLF_eq h, if_neg none_]
  rfl

end Buffer

namespace BufferLines
open Buffer Transition TcpConnection ConnectionOutput ConnectionRequests

variable {σ : Type*} (answer : σ → List Byte → List Byte × σ)

def lineParser : Parser σ Byte Byte where
  parse s items :=
    if search kCRLF items < items.length then
      some ⟨search kCRLF items + 2, (answer s (items.take (search kCRLF items))).1,
        (answer s (items.take (search kCRLF items))).2⟩
    else none
  positive s items o h := by
    obtain ⟨-, rfl⟩ := guard_met h
    exact Nat.zero_lt_succ _
  consumed_le s items o h := by
    obtain ⟨found, rfl⟩ := guard_met h
    exact search_room found
  stable s items more o h := by
    obtain ⟨found, rfl⟩ := guard_met h
    have longer : search kCRLF (items ++ more) < (items ++ more).length := by
      rw [search_append found, List.length_append]
      omega
    rw [if_pos longer, search_append found, List.take_append_of_le_length found.le]

def respond : σ → List (List Byte) → List Byte × σ
  | s, [] => ([], s)
  | s, line :: lines =>
    let (reply, s) := answer s line
    let (replies, s) := respond s lines
    (reply ++ replies, s)

/-- `while (const char* crlf = buf->findCRLF())`, with the answers to the lines. -/
def takeLines : ℕ → σ → Buffer → List Byte × σ × Buffer
  | 0, s, b => ([], s, b)
  | fuel + 1, s, b =>
    match b.takeLine with
    | none => ([], s, b)
    | some (line, c) =>
      let (reply, s) := answer s line.reduceOption
      let (replies, s, c) := takeLines fuel s c
      (reply ++ replies, s, c)

/-- `messageCallback_` takes the lines there are; each turn of its loop takes a byte at least. What
it sends, it sends in any pieces. A closed connection gets no more events. -/
def next (s : Conversation σ) : ConnectionRequests.Action → Option (Conversation σ)
  | .handleRead r pieces onDown =>
    if s.conn.state_ = .kDisconnected then none
    else (s.conn.inputBuffer_.readFd 0 r).bind fun result =>
      let (reply, user, buf) := takeLines answer result.1.readableBytes s.user result.1
      (s.conn.handleRead ⟨r, .wrote 0, sends pieces, onDown⟩).bind fun c =>
        if r.bytes = [] then some { s with conn := c }
        else if (pieces.map Prod.fst).flatten = reply then
          some ⟨{ c with inputBuffer_ := buf }, user, s.received ++ r.bytes⟩
        else none
  | .handleWrite answer => some { s with conn := s.conn.handleWrite answer }

def lineServer (first : σ) : System (Conversation σ) ConnectionRequests.Action where
  init s := s.user = first ∧ s.received = [] ∧ ∃ address sockfd poller wc hw mark,
    (construct address sockfd poller wc hw mark).connectEstablished [] = some s.conn
  next := BufferLines.next answer

def encode (lines : List (List Byte)) : List Byte := lines.flatMap (· ++ kCRLF)

variable {answer} {s : σ} {items line rest : List Byte}

theorem crlf_some : kCRLF ≠ [] := List.cons_ne_nil _ _

theorem encode_cons (line : List Byte) (lines : List (List Byte)) (rest : List Byte) :
    encode (line :: lines) ++ rest = line ++ (kCRLF ++ (encode lines ++ rest)) := by
  simp [encode]

theorem handle_rest (open_ : ¬kCRLF <:+: items) :
    (lineParser answer).handle s items = .nothing s := by
  refine (lineParser answer).handle_none (if_neg fun found => open_ ?_)
  obtain ⟨rest, same⟩ := search_split found
  exact ⟨items.take (search kCRLF items), rest, same.symm⟩

theorem handle_line (found : search kCRLF items < items.length) :
    (lineParser answer).handle s items =
      Outcome.andThen ⟨search kCRLF items + 2, (answer s (items.take (search kCRLF items))).1,
        (answer s (items.take (search kCRLF items))).2⟩
        ((lineParser answer).handle (answer s (items.take (search kCRLF items))).2
          (items.drop (search kCRLF items + 2))) :=
  (lineParser answer).handle_some (if_pos found)

/-- The loop over the buffer does what the parser does with its content. -/
theorem takeLines_handles {fuel : ℕ} {b : Buffer} (h : WellFormed b)
    (enough : b.readable.length ≤ fuel) :
    (takeLines answer fuel s b).1 = ((lineParser answer).handle s b.readable).reply ∧
      (takeLines answer fuel s b).2.1 = ((lineParser answer).handle s b.readable).state ∧
      WellFormed (takeLines answer fuel s b).2.2 ∧
      (takeLines answer fuel s b).2.2.readable =
        (lineParser answer).handler.left s b.readable := by
  induction fuel generalizing s b with
  | zero =>
    have empty : b.readable = [] := List.length_eq_zero_iff.mp (Nat.le_zero.mp enough)
    rw [Handler.left, empty]
    exact ⟨rfl, rfl, h, empty.trans List.drop_nil.symm⟩
  | succ fuel ih =>
    by_cases found : search kCRLF b.readable < b.readable.length
    · obtain ⟨c, taken, kept, left⟩ := takeLine_spec h found
      have shorter : c.readable.length ≤ fuel := by
        rw [left, List.length_drop]
        omega
      obtain ⟨reply, state, wellFormed, rest⟩ := ih (s := (answer s
        (b.readable.take (search kCRLF b.readable))).2) kept shorter
      rw [left] at reply state rest
      have line : ((b.readable.take (search kCRLF b.readable)).map some).reduceOption =
          b.readable.take (search kCRLF b.readable) :=
        List.filterMap_map.trans List.filterMap_some
      simp only [takeLines, taken, line, Handler.left, Parser.handler] at rest wellFormed ⊢
      rw [handle_line found]
      refine ⟨?_, ?_, wellFormed, ?_⟩
      · rw [reply]
        rfl
      · rw [state]
        rfl
      · rw [rest, Outcome.andThen, List.drop_drop]
    · have none_ := takeLine_none h found
      have open_ := search_end crlf_some found
      simp only [takeLines, none_, Handler.left, Parser.handler]
      rw [handle_rest open_]
      exact ⟨rfl, rfl, h, rfl⟩

theorem next_answered {first : σ} {s t : Conversation σ} {a : ConnectionRequests.Action}
    (held : Answered (lineParser answer).handler first s) (working : Working s a)
    (hn : BufferLines.next answer s a = some t) : Answered (lineParser answer).handler first t := by
  cases a with
  | handleWrite result =>
    cases hn
    exact held.write result
  | handleRead r pieces onDown =>
    simp only [BufferLines.next] at hn
    split_ifs at hn with closed none_
    · obtain ⟨⟨b, n, e⟩, hb, hn⟩ := Option.bind_eq_some_iff.mp hn
      obtain ⟨c, hc, hn⟩ := Option.bind_eq_some_iff.mp hn
      obtain rfl := Option.some.inj hn
      exact held.silent working.1 none_ hb rfl hc
    · obtain ⟨⟨b, n, e⟩, hb, hn⟩ := Option.bind_eq_some_iff.mp hn
      obtain ⟨c, hc, hn⟩ := Option.bind_eq_some_iff.mp hn
      obtain ⟨wellFormed, content⟩ := readFd_content held.input working.1 hb
      obtain ⟨reply, state, kept, left⟩ := @takeLines_handles _ answer s.user _ b wellFormed
        (readable_length wellFormed).le
      split_ifs at hn with replies
      obtain rfl := Option.some.inj hn
      have read := held.read working closed none_ hb hc (replies.trans reply)
      refine state ▸ read.withInput kept ?_
      rw [left, Handler.left_append, content, held.waiting, held.user]

theorem lineServer_answered {first : σ} {s : Conversation σ}
    (reached : (lineServer answer first).Reachable Working s) :
    Answered (lineParser answer).handler first s :=
  reached.invariant (fun _ start => answered_initial start)
    fun _ _ _ held working hn => next_answered held working hn

theorem search_line (clean : ¬kCRLF <:+: line) (rest : List Byte) :
    search kCRLF (line ++ (kCRLF ++ rest)) = line.length := by
  induction line with
  | nil => exact if_pos (List.prefix_append kCRLF rest)
  | cons a line ih =>
    have inner : ¬kCRLF <:+: line := fun inside => clean (List.infix_cons inside)
    have nothere : ¬kCRLF <+: a :: (line ++ (kCRLF ++ rest)) := fun front => by
      obtain ⟨first, next⟩ := List.cons_prefix_cons.mp front
      cases line with
      | nil => exact absurd (List.cons_prefix_cons.mp next).1 (by decide)
      | cons b line =>
        have second := (List.cons_prefix_cons.mp next).1
        exact clean ⟨[], line, by rw [← first, ← second]; rfl⟩
    rw [List.cons_append, search, if_neg nothere, ih inner, List.length_cons]

theorem handle_encoded {lines : List (List Byte)} (clean : ∀ line ∈ lines, ¬kCRLF <:+: line)
    (open_ : ¬kCRLF <:+: rest) :
    ((lineParser answer).handle s (encode lines ++ rest)).consumed = (encode lines).length ∧
      ((lineParser answer).handle s (encode lines ++ rest)).reply = (respond answer s lines).1 ∧
      ((lineParser answer).handle s (encode lines ++ rest)).state =
        (respond answer s lines).2 := by
  induction lines generalizing s with
  | nil =>
    rw [show encode [] ++ rest = rest from rfl, handle_rest open_]
    exact ⟨rfl, rfl, rfl⟩
  | cons line lines ih =>
    obtain ⟨first, others⟩ := List.forall_mem_cons.mp clean
    have whole := encode_cons line lines rest
    have at_ := search_line first (encode lines ++ rest)
    have found : search kCRLF (encode (line :: lines) ++ rest) <
        (encode (line :: lines) ++ rest).length := by
      rw [whole, at_]
      simp [kCRLF]
    have behind : (line ++ (kCRLF ++ (encode lines ++ rest))).drop (line.length + 2) =
        encode lines ++ rest := by
      rw [← List.drop_drop, List.drop_left]
      rfl
    obtain ⟨consumed, reply, state⟩ := ih (s := (answer s line).2) others
    rw [handle_line found, whole, at_, List.take_left, behind]
    refine ⟨?_, ?_, ?_⟩
    · rw [Outcome.andThen, consumed]
      simp [encode, kCRLF]
      omega
    · rw [Outcome.andThen, reply]
      rfl
    · rw [Outcome.andThen, state]
      rfl

theorem lines_rest (items : List Byte) : ∃ lines rest, items = encode lines ++ rest ∧
    (∀ line ∈ lines, ¬kCRLF <:+: line) ∧ ¬kCRLF <:+: rest := by
  induction size : items.length using Nat.strong_induction_on generalizing items with
  | _ n ih =>
    by_cases found : search kCRLF items < items.length
    · obtain ⟨more, same⟩ := search_split found
      have shorter : more.length < n := by
        have length := congrArg List.length same
        rw [List.length_append, List.length_append, size] at length
        simp only [kCRLF, List.length_cons, List.length_nil] at length
        omega
      obtain ⟨lines, rest, parts, clean, open_⟩ := ih more.length shorter more rfl
      refine ⟨items.take (search kCRLF items) :: lines, rest, ?_,
        List.forall_mem_cons.mpr ⟨search_clean crlf_some items, clean⟩, open_⟩
      rw [encode_cons, ← parts, ← List.append_assoc]
      exact same
    · exact ⟨[], items, rfl, by simp, search_end crlf_some found⟩

/-- A stream is lines and a rest in one way only. -/
theorem encode_unique {lines lines' : List (List Byte)} {rest' : List Byte}
    (clean : ∀ line ∈ lines, ¬kCRLF <:+: line) (open_ : ¬kCRLF <:+: rest)
    (clean' : ∀ line ∈ lines', ¬kCRLF <:+: line) (open_' : ¬kCRLF <:+: rest')
    (same : encode lines ++ rest = encode lines' ++ rest') : lines = lines' ∧ rest = rest' := by
  induction lines generalizing lines' with
  | nil =>
    cases lines' with
    | nil => exact ⟨rfl, same⟩
    | cons line' lines' =>
      rw [encode_cons] at same
      exact absurd ⟨line', encode lines' ++ rest', by rw [List.append_assoc, ← same]; rfl⟩ open_
  | cons line lines ih =>
    cases lines' with
    | nil =>
      rw [encode_cons] at same
      exact absurd ⟨line, encode lines ++ rest, by rw [List.append_assoc, same]; rfl⟩ open_'
    | cons line' lines' =>
      obtain ⟨first, others⟩ := List.forall_mem_cons.mp clean
      obtain ⟨first', others'⟩ := List.forall_mem_cons.mp clean'
      rw [encode_cons, encode_cons] at same
      have length : line.length = line'.length := by
        rw [← search_line first (encode lines ++ rest), same, search_line first']
      obtain ⟨rfl, behind⟩ := List.append_inj same length
      obtain ⟨rfl, rest_⟩ := ih others others' (List.append_cancel_left behind)
      exact ⟨rfl, rest_⟩

/-- Whatever the pieces in which a stream of lines arrives and its answers go, each line is taken
once, whole and in order, up to the last end of a line received: the rest waits in `inputBuffer_`,
where `findCRLF` finds nothing. -/
theorem lines_answered {first : σ} {s : Conversation σ}
    (reached : (lineServer answer first).Reachable Working s) :
    ∃ lines, (∀ line ∈ lines, ¬kCRLF <:+: line) ∧
      s.received = encode lines ++ s.conn.inputBuffer_.readable ∧
      s.conn.inputBuffer_.findCRLF = none ∧
      accepted s.conn.trace ++ s.conn.outputBuffer_.readable = (respond answer first lines).1 ∧
      s.user = (respond answer first lines).2 ∧
      ∀ lines' rest', (∀ line ∈ lines', ¬kCRLF <:+: line) → ¬kCRLF <:+: rest' →
        s.received = encode lines' ++ rest' → lines' = lines := by
  have held := lineServer_answered reached
  obtain ⟨lines, rest, parts, clean, open_⟩ := lines_rest s.received
  have handled := @handle_encoded _ answer first rest lines clean open_
  rw [← parts] at handled
  obtain ⟨consumed, reply, state⟩ := handled
  have waiting : s.conn.inputBuffer_.readable = rest := by
    rw [held.waiting, Handler.left, show (lineParser answer).handler.handle first s.received =
      (lineParser answer).handle first s.received from rfl, consumed, parts, List.drop_left]
  refine ⟨lines, clean, waiting ▸ parts, ?_, held.stream.trans reply, held.user.trans state,
    fun lines' rest' clean' open_' same => ?_⟩
  · refine (findCRLF_eq held.input).trans (if_neg fun found => ?_)
    obtain ⟨more, same⟩ := search_split found
    exact open_ (waiting ▸ ⟨_, more, same.symm⟩)
  · exact (encode_unique clean' open_' clean open_ (same.symm.trans parts)).1

def sendBack (s : Unit) (line : List Byte) : List Byte × Unit := (line ++ kCRLF, s)

/-- A line whose end comes in two pieces is sent back, and the next one has begun. -/
theorem lines_answered_cut : ∃ s : Conversation Unit,
    (lineServer sendBack ()).Reachable Working s ∧
      (s.received, s.conn.inputBuffer_.readable) = ([104, 105, 13, 10, 106], [106]) ∧
      ∃ lines, (∀ line ∈ lines, ¬kCRLF <:+: line) ∧
        s.received = encode lines ++ s.conn.inputBuffer_.readable ∧
        s.conn.inputBuffer_.findCRLF = none ∧
        accepted s.conn.trace ++ s.conn.outputBuffer_.readable =
          (respond sendBack () lines).1 := by
  have run : ((lineServer sendBack ()).execute
      Working sample [.handleRead (.received [104, 105, 13]) [] [],
        .handleRead (.received [10, 106]) [([104, 105, 13, 10], .wrote 4)] []]).map
      (fun s => (s.received, s.conn.inputBuffer_.readable)) =
      some ([104, 105, 13, 10, 106], [106]) := by decide +kernel
  have start : (lineServer sendBack ()).init sample := ⟨rfl, rfl, 1, 7, _, true, true, 64, rfl⟩
  obtain ⟨s, reached, ends⟩ := System.Reachable.of_replay start run
  obtain ⟨lines, clean, parts, none_, stream, -⟩ := lines_answered reached
  exact ⟨s, reached, ends, lines, clean, parts, none_, stream⟩

end BufferLines

end TinyNetwork
