import TinyNetwork.TimerQueue

/-! What `getExpired` takes out of the set of timers. The sentry `(now, nullptr)` is the
least pair of its instant, so the lower bound leaves the entries of exactly that instant in
the set: the cut is at the due entries only where no entry is due at `now` itself. -/
namespace TinyNetwork.TimerQueue

/-- `getExpired(now)` returns the due entries in order and leaves the others. -/
structure TakesDue (q : TimerQueue) (now : ℤ) : Prop where
  taken : ∀ e, e ∈ (q.getExpired now).1 ↔ e ∈ q.timers_.elements ∧ e.timestamp ≤ now
  ordered : (q.getExpired now).1.Pairwise (· < ·)
  left : ∀ e, e ∈ (q.getExpired now).2.timers_.elements ↔
    e ∈ q.timers_.elements ∧ now < e.timestamp

variable {q : TimerQueue} {now : ℤ} {e : Entry}

theorem mem_expired :
    e ∈ (q.getExpired now).1 ↔ e ∈ q.timers_.elements ∧ e.timestamp < now :=
  OrderedSet.mem_before.trans (and_congr_right fun _ => Entry.lt_sentry)

theorem mem_remaining :
    e ∈ (q.getExpired now).2.timers_.elements ↔ e ∈ q.timers_.elements ∧ now ≤ e.timestamp := by
  rw [← not_lt, ← Entry.lt_sentry, not_lt]
  exact OrderedSet.mem_eraseBefore

/-- Both parts are right exactly when no entry is due at `now` itself. -/
theorem getExpired_due :
    TakesDue q now ↔ ∀ e ∈ q.timers_.elements, e.timestamp ≠ now := by
  constructor
  · intro h e mem same
    have early := (mem_expired.mp ((h.taken e).mpr ⟨mem, same.le⟩)).2
    exact absurd same early.ne
  · intro apart
    refine ⟨fun e => mem_expired.trans ?_, OrderedSet.before_ascending _ _,
      fun e => mem_remaining.trans ?_⟩
    · exact and_congr_right fun mem => ⟨le_of_lt, fun due => lt_of_le_of_ne due (apart e mem)⟩
    · exact and_congr_right fun mem => ⟨fun late => lt_of_le_of_ne late (apart e mem).symm,
        le_of_lt⟩

/-- A timer due at 1000 stays in the set when the clock reads 1000. -/
theorem getExpired_leaves_due :
    ¬TakesDue { construct with timers_ := OrderedSet.empty.insert (Entry.mk 1000 1) } 1000 := by
  intro h
  have due := (h.taken (Entry.mk 1000 1)).mpr ⟨OrderedSet.mem_place.mpr (.inl rfl), le_rfl⟩
  have early : (1000 : ℤ) < 1000 := (mem_expired.mp due).2
  exact absurd early (lt_irrefl _)

end TinyNetwork.TimerQueue
