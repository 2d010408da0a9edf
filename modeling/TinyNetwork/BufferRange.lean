import TinyNetwork.Buffer

/-! `ensureWritableBytes` over the whole range of `size_t`. `makeSpace` takes the length
through an `int`, so from `2^31` on the vector grows by less than was asked for, or is cut
short. Such a length is served only where nothing has to grow: it is writable already, or
the free space is enough and the `int` that arrives is not below `-kCheapPrepend`, where
the test of `makeSpace` wraps. -/
namespace TinyNetwork.Buffer
open MachineWord MemoryRegion

/-- `ensureWritableBytes(len)` returns, with the content unchanged and room for a copy of
`len` bytes. -/
def MakesRoom (b : Buffer) (len : ℕ) : Prop :=
  ∃ b', b.ensureWritableBytes len = some b' ∧ len ≤ b'.writableBytes ∧
    readable b' = readable b ∧ b'.writerIndex_ + len ≤ b'.buffer_.length

def Passes (b : Buffer) (len : ℕ) : Prop :=
  len ≤ b.writableBytes ∨ len < 2 ^ 31 ∨
    (len + kCheapPrepend ≤ b.writableBytes + b.prependableBytes ∧
      -(kCheapPrepend : ℤ) ≤ narrow len)

instance (b : Buffer) (len : ℕ) : Decidable (b.Passes len) := by
  unfold Passes
  infer_instance

variable {b b' : Buffer} {len : ℕ}

section Wide
variable (h : WellFormed b)
include h

/-- The test is exact unless the `int` is below `-kCheapPrepend`; then it always holds. -/
theorem grows_iff : b.Grows (narrow len) ↔
    narrow len < -(kCheapPrepend : ℤ) ∨
      (b.writableBytes + b.prependableBytes : ℤ) < narrow len + kCheapPrepend := by
  have hr := h.reader_le
  have hw := h.writer_le
  have hs := h.size_le
  have range := narrow_range len
  have need := sizeAdd_widen kCheapPrepend (narrow len)
  unfold maxSize at hs
  unfold Grows
  rw [sizeAdd_comm (widen _), free_eq h, writableBytes_eq h]
  unfold prependableBytes kCheapPrepend at *
  omega

/-- A length from `2^31` on never grows the vector enough. -/
theorem grown_short (wide : 2 ^ 31 ≤ len) (grows : b.Grows (narrow len))
    (hb : b.makeSpace (narrow len) = some b') : b'.buffer_.length < b'.writerIndex_ + len := by
  have hw := h.writer_le
  have hs := h.size_le
  have range := narrow_range len
  have size := sizeAdd_widen b.writerIndex_ (narrow len)
  rw [makeSpace, if_pos grows] at hb
  obtain ⟨mem, hmem, rfl⟩ := Option.map_eq_some_iff.mp hb
  obtain ⟨grown, bound⟩ := resize_length hmem
  unfold maxSize at hs bound
  simp only [grown]
  omega

theorem passes_spec (passes : b.Passes len) (hb : b.ensureWritableBytes len = some b') :
    WellFormed b' ∧ readable b' = readable b ∧ b'.writerIndex_ + len ≤ b'.buffer_.length := by
  rcases passes with within | small | ⟨enough, above⟩
  · exact ensureWritableBytes_spec h (fun full => absurd within (Nat.not_le_of_lt full)) hb
  · exact ensureWritableBytes_spec h (fun _ => small) hb
  · by_cases full : b.writableBytes < len
    · have stays : ¬b.Grows (narrow len) := by
        rw [grows_iff h]
        have below := narrow_le len
        omega
      rw [ensureWritableBytes, if_pos full] at hb
      obtain ⟨kept, content, freed⟩ := makeSpace_slide h stays hb
      refine ⟨kept, content, ?_⟩
      have hw := h.writer_le
      rw [writableBytes_eq h] at enough
      unfold prependableBytes at enough
      omega
    · exact ensureWritableBytes_spec h (fun wide => absurd wide full) hb

theorem passes_returns (passes : b.Passes len) (fits : b.writerIndex_ + len ≤ maxSize) :
    ∃ b', b.ensureWritableBytes len = some b' := by
  unfold ensureWritableBytes
  split_ifs with full
  · by_cases grows : b.Grows (narrow len)
    · have small : len < 2 ^ 31 := by
        rw [grows_iff h] at grows
        have below := narrow_le len
        rcases passes with within | small | ⟨enough, above⟩ <;> omega
      have size : sizeAdd b.writerIndex_ (widen (narrow len)) = b.writerIndex_ + len := by
        rw [widen_narrow small]
        exact sizeAdd_of_lt (by unfold maxSize at fits; omega)
      rw [makeSpace, if_pos grows, size, resize, if_pos fits]
      exact ⟨_, rfl⟩
    · exact ⟨_, if_neg grows⟩
  · exact ⟨b, rfl⟩

theorem append_returns (data : List Byte) (passes : b.Passes data.length)
    (fits : b.writerIndex_ + data.length ≤ maxSize) : ∃ b', b.append data = some b' := by
  obtain ⟨c, hc⟩ := passes_returns h passes fits
  exact ⟨_, congrArg (Option.map _) hc⟩

theorem append_passes {data : List Byte} (passes : b.Passes data.length)
    (hb : b.append data = some b') : WellFormed b' ∧ readable b' = readable b ++ data := by
  obtain ⟨c, hc, same⟩ := Option.map_eq_some_iff.mp hb
  obtain ⟨kept, content, room⟩ := passes_spec h passes hc
  rw [← content]
  exact copy_spec kept room same.symm

/-- `ensureWritableBytes(len)` makes room exactly for the lengths that pass. -/
theorem ensureWritableBytes_sound (fits : b.writerIndex_ + len ≤ maxSize) :
    b.MakesRoom len ↔ b.Passes len := by
  constructor
  · rintro ⟨b', hb, -, -, room⟩
    by_contra fails
    simp only [Passes, not_or, not_and, Nat.not_le, Nat.not_lt, Int.not_le] at fails
    obtain ⟨full, wide, wraps⟩ := fails
    rw [ensureWritableBytes, if_pos full] at hb
    by_cases grows : b.Grows (narrow len)
    · exact absurd room (Nat.not_le_of_lt (grown_short h wide grows hb))
    · obtain ⟨-, -, freed⟩ := makeSpace_slide h grows hb
      have hw := h.writer_le
      rw [grows_iff h] at grows
      rw [writableBytes_eq h] at wraps
      unfold prependableBytes at wraps
      omega
  · intro passes
    obtain ⟨b', hb⟩ := passes_returns h passes fits
    obtain ⟨kept, content, room⟩ := passes_spec h passes hb
    refine ⟨b', hb, ?_, content, room⟩
    rw [writableBytes_eq kept]
    omega

end Wide

theorem ensureWritableBytes_sound_fresh :
    fresh.writerIndex_ + 5000 ≤ maxSize ∧ (fresh.MakesRoom 5000 ↔ fresh.Passes 5000) :=
  ⟨by decide, ensureWritableBytes_sound fresh_wellFormed (by decide)⟩

/-- Room for `2^32` bytes is asked of a default buffer, which keeps its 1024. -/
theorem ensureWritableBytes_short :
    fresh.WellFormed ∧ fresh.writerIndex_ + 2 ^ 32 ≤ maxSize ∧ ¬fresh.MakesRoom (2 ^ 32) := by
  have left : (fresh.ensureWritableBytes (2 ^ 32)).map writableBytes = some 1024 := by
    decide +kernel
  refine ⟨fresh_wellFormed, by decide, ?_⟩
  rintro ⟨b', hb, room, -⟩
  rw [hb] at left
  have writable : b'.writableBytes = 1024 := Option.some.inj left
  omega

end TinyNetwork.Buffer
