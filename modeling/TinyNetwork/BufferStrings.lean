import TinyNetwork.BufferTraffic

/-! The strings `retrieveAsString` returns. It copies as many bytes as it is asked for and
consumes no more than there are, so the two halves agree for lengths up to
`readableBytes()`, and a longer one returns bytes that were never appended or have been
returned before. Over a history of `append` and `retrieveAsString` the returned strings
and the content make up the appended data exactly when no length was longer. -/
namespace TinyNetwork.BufferStrings
open MachineWord Transition Buffer

def TakesFront (b : Buffer) (len : ℕ) : Prop :=
  (b.retrieveAsString len).1 = ((readable b).take len).map some ∧
    readable (b.retrieveAsString len).2 = (readable b).drop len

theorem retrieveAsString_length (b : Buffer) (len : ℕ) :
    (b.retrieveAsString len).1.length = len := by
  simp only [retrieveAsString, MemoryRegion.peek, List.length_map, List.length_range]

theorem takesFront_iff {b : Buffer} (h : WellFormed b) {len : ℕ} :
    TakesFront b len ↔ len ≤ b.readableBytes := by
  constructor
  · rintro ⟨string, -⟩
    have size := congrArg List.length string
    rw [retrieveAsString_length, List.length_map, List.length_take, readable_length h] at size
    omega
  · intro within
    exact ⟨retrieveAsString_fst h within, retrieve_readable h len⟩

/-- A buffer used with `append` and `retrieveAsString` only: all that was appended, all that
was returned, and whether no length so far was above `readableBytes()`. -/
structure Strings where
  buffer : Buffer
  appended : List Byte
  returned : List (Option Byte)
  within : Bool

inductive Action where
  | append (data : List Byte)
  | retrieveAsString (len : ℕ)

def next (s : Strings) : Action → Option Strings
  | .append data => (s.buffer.append data).map fun b =>
      { s with buffer := b, appended := s.appended ++ data }
  | .retrieveAsString len =>
    let result := s.buffer.retrieveAsString len
    some { s with
      buffer := result.2
      returned := s.returned ++ result.1
      within := s.within && decide (len ≤ s.buffer.readableBytes) }

def strings (initialSize : ℕ) : System Strings Action where
  init s := construct initialSize = some s.buffer ∧ s.appended = [] ∧ s.returned = [] ∧
    s.within = true
  next := next

def Passing (s : Strings) : Action → Prop
  | .append data => s.buffer.Passes data.length
  | .retrieveAsString _ => True

/-- The strings returned so far and the content make up what was appended. -/
def Conserved (s : Strings) : Prop :=
  s.returned ++ (readable s.buffer).map some = s.appended.map some

structure Counted (s : Strings) : Prop where
  wellFormed : WellFormed s.buffer
  conserved : s.within = true → Conserved s
  exceeded : s.within = false →
    s.appended.length < s.returned.length + (readable s.buffer).length

variable {s t : Strings} {initialSize : ℕ}

theorem Counted.exact (h : Counted s) : Conserved s ↔ s.within = true := by
  constructor
  · intro conserved
    by_contra beyond
    have more := h.exceeded (Bool.not_eq_true _ ▸ beyond)
    have size := congrArg List.length conserved
    rw [List.length_append, List.length_map, List.length_map] at size
    omega
  · exact h.conserved

theorem Counted.append (h : Counted s) {data : List Byte} (passes : s.buffer.Passes data.length)
    (hn : next s (.append data) = some t) : Counted t := by
  obtain ⟨b, hb, rfl⟩ := Option.map_eq_some_iff.mp hn
  obtain ⟨kept, content⟩ := append_passes h.wellFormed passes hb
  refine ⟨kept, fun within => ?_, fun beyond => ?_⟩
  · have conserved := h.conserved within
    unfold Conserved at conserved ⊢
    rw [content, List.map_append, ← List.append_assoc, conserved, List.map_append]
  · have more := h.exceeded beyond
    rw [content]
    simp only [List.length_append]
    omega

theorem Counted.retrieveAsString (h : Counted s) {len : ℕ}
    (hn : next s (.retrieveAsString len) = some t) : Counted t := by
  obtain rfl := Option.some.inj hn
  have size := retrieveAsString_length s.buffer len
  have content : readable (s.buffer.retrieveAsString len).2 = (readable s.buffer).drop len :=
    retrieve_readable h.wellFormed len
  have total := readable_length h.wellFormed
  refine ⟨retrieve_wellFormed h.wellFormed len, fun within => ?_, fun beyond => ?_⟩
  · simp only [Bool.and_eq_true, decide_eq_true_eq] at within
    obtain ⟨string, rest⟩ := (takesFront_iff h.wellFormed).mpr within.2
    have conserved := h.conserved within.1
    unfold Conserved at conserved ⊢
    simp only
    rw [string, rest, List.append_assoc, ← List.map_append, List.take_append_drop, conserved]
  · simp only [Bool.and_eq_false_iff, decide_eq_false_iff_not] at beyond
    simp only
    rw [content, List.length_append, size, List.length_drop]
    by_cases before : s.within = true
    · have conserved := congrArg List.length (h.conserved before)
      have above := beyond.resolve_left (by simp [before])
      rw [List.length_append, List.length_map, List.length_map] at conserved
      omega
    · have more := h.exceeded (Bool.not_eq_true _ ▸ before)
      omega

theorem strings_counted (small : kCheapPrepend + initialSize < 2 ^ 64)
    (h : (strings initialSize).Reachable Passing s) : Counted s := by
  refine h.invariant (P := Counted) ?_ ?_
  · rintro s ⟨built, appended, returned, within⟩
    obtain ⟨kept, empty⟩ := construct_wellFormed small built
    refine ⟨kept, fun _ => ?_, fun beyond => ?_⟩
    · simp [Conserved, appended, returned, empty]
    · simp [within] at beyond
  · intro s action t hs passing hn
    cases action with
    | append data => exact hs.append passing hn
    | retrieveAsString len => exact hs.retrieveAsString hn

/-- In every reachable buffer a string is what is consumed exactly when it is asked for up to
`readableBytes()`, and over a history nothing is lost or repeated exactly when all are. -/
theorem strings_exact (small : kCheapPrepend + initialSize < 2 ^ 64) :
    (∀ b, (bufferTraffic initialSize).Reachable Buffer.Passing b →
      ∀ len, TakesFront b len ↔ len ≤ b.readableBytes) ∧
    ∀ s, (strings initialSize).Reachable Passing s → (Conserved s ↔ s.within = true) :=
  ⟨fun _ reached _ => takesFront_iff (traffic_wellFormed small reached),
    fun _ reached => (strings_counted small reached).exact⟩

theorem strings_exact_default : kCheapPrepend + kInitialSize < 2 ^ 64 ∧
    (∀ b, (bufferTraffic kInitialSize).Reachable Buffer.Passing b →
      ∀ len, TakesFront b len ↔ len ≤ b.readableBytes) ∧
    ∀ s, (strings kInitialSize).Reachable Passing s → (Conserved s ↔ s.within = true) :=
  ⟨by decide, strings_exact (by decide)⟩

/-- Five bytes are asked of a buffer that holds two, after four were returned: the string
ends in three zero bytes of the vector. -/
theorem stale_string :
    ∃ b, (bufferTraffic kInitialSize).Reachable Buffer.Passing b ∧ ¬TakesFront b 5 := by
  have run : ((bufferTraffic kInitialSize).execute Buffer.Passing fresh
      [.op (.append [1, 2, 3, 4, 5, 6]), .op (.retrieveAsString 4)]).map
      (fun b => ((b.retrieveAsString 5).1, readable b)) =
      some ([some 5, some 6, some 0, some 0, some 0], [5, 6]) := by decide +kernel
  obtain ⟨b, reached, ends⟩ := System.Reachable.of_replay construct_initial run
  obtain ⟨string, content⟩ := Prod.mk.inj ends
  refine ⟨b, reached, fun takes => ?_⟩
  have front := takes.1
  rw [string, content] at front
  exact absurd front (by decide)

end TinyNetwork.BufferStrings
