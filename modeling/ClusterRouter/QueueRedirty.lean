import ClusterRouter.QueuePool

/-!
# Re-dirty marks and the rate-limit panic

An enqueue of a key whose item is in flight only marks the item: `redirtiedAt`
keeps the earliest time asked for, with the `ratelimit` of the call that asked for
it, and the completion re-inserts the key with the delay `time.Until(redirtiedAt)`.
`insert` panics on a new key asked for with both a rate limit and a positive delay.
Every mark ever written, on an item in flight or long completed, is `MarkedBy` the
clock's last reading; so on one non-decreasing clock the panic is never reached,
and the re-dirty re-insert is due no earlier than the mark. The requeue of a
failure with retries left ignores the mark.
-/

set_option autoImplicit false

namespace ClusterRouter

/-- The marks that steps reading a clock no later than `clock` can leave on an
item: a rate-limited one, set only by a delay-0 insert, is not in the future, and
any one is at most the largest `time.Duration` ahead. -/
def QueueItem.MarkedBy (clock : ℤ) (item : QueueItem) : Prop :=
  (item.redirtiedWithRatelimit = true → item.redirtiedAt ≤ clock) ∧
  (item.redirtiedAt ≠ 0 → item.redirtiedAt ≤ clock + 9223372036854775807)

namespace QueueItem

variable {c c' now : ℤ} {item : QueueItem} {ratelimit : Bool} {delay : Duration}

theorem MarkedBy.mono (h : item.MarkedBy c) (hc : c ≤ c') : item.MarkedBy c' :=
  ⟨fun hr => (h.1 hr).trans hc, fun hz => (h.2 hz).trans (by omega)⟩

theorem newItem_markedBy (key : String) (now : ℤ) (limit : Duration) :
    (newItem key ratelimit delay now limit).MarkedBy c := by
  simp [MarkedBy]

theorem redirty_markedBy (h : item.MarkedBy now) (hl : ratelimit = true → delay.ns ≤ 0) :
    (item.redirty (now + delay.ns) ratelimit).MarkedBy now := by
  rcases @redirty_marks (now + delay.ns) ratelimit item with ⟨ht, hr⟩ | ⟨-, -, ht, hr⟩
  · refine ⟨fun hrl => ?_, fun _ => ?_⟩ <;> rw [ht]
    · have := hl (hr ▸ hrl); omega
    · have := delay.le_max; omega
  · rw [MarkedBy, ht, hr]; exact h

end QueueItem

namespace Queue

variable {q q' : Queue} {key : String} {ratelimit : Bool} {delay limit : Duration}
  {wall now : ℤ} {a qi : ℕ} {failed : Bool}

theorem insert_markedBy (h : q.insert key ratelimit delay now limit = .ok (q', a))
    (hm : ∀ b, (q.heap b).MarkedBy now) (hl : ratelimit = true → delay.ns ≤ 0) (b : ℕ) :
    (q'.heap b).MarkedBy now :=
  insert_heap h hm (fun _ _ hi => hi) (QueueItem.redirty_markedBy (hm a) hl)
    (QueueItem.newItem_markedBy _ _ _) b

theorem handleQueueItemObject_markedBy
    (h : q.handleQueueItemObject qi failed wall now limit = .ok q')
    (hm : ∀ b, (q.heap b).MarkedBy wall) (hw : wall ≤ now) (b : ℕ) : (q'.heap b).MarkedBy now := by
  have hn := fun b => (hm b).mono hw
  rcases handleQueueItemObject_cases h with ⟨-, rfl⟩ | ⟨-, -, -, q₁, a, hi, rfl⟩ |
    ⟨-, -, -, q₁, a, hi, rfl⟩ | ⟨-, -, -, rfl⟩
  · exact hn b
  · have := insert_markedBy hi hn fun _ => le_rfl
    exact heap_modify_of this (this a) b
  · -- the mark's delay is `time.Until` of a mark not after `wall`
    have := insert_markedBy hi hn fun hr => timeUntil_nonpos.2 ((hm qi).1 hr)
    exact heap_modify_of this (this a) b
  · exact hn b

theorem handleQueueItemObject_reinsert (hqi : qi ≠ q.next)
    (hq : q.itemsInQueue.lookup (q.keyAt qi) = none)
    (h : q.handleQueueItemObject qi failed wall now limit = .ok q')
    (hre : (q.heap qi).forget = false ∧
      (failed = true ∧ (q.heap qi).requeues + 1 < MaxRetries ∨ (q.heap qi).redirtiedAt ≠ 0)) :
    q'.itemsInQueue.lookup (q.keyAt qi) = some q.next ∧
    (q'.heap q.next).requeues =
      (if failed = true ∧ (q.heap qi).requeues + 1 < MaxRetries then (q.heap qi).requeues + 1
        else 0) ∧
    q'.plannedAt q.next = now +
      (if failed = true ∧ (q.heap qi).requeues + 1 < MaxRetries then limit.ns
        else if (q.heap qi).redirtiedWithRatelimit then limit.ns
        else (timeUntil (q.heap qi).redirtiedAt wall).ns) ∧
    (q'.heap q.next).Fresh := by
  have hp : (q.deleteBeingProcessed (q.keyAt qi)).itemsBeingProcessed.lookup (q.keyAt qi) = none :=
    AList.lookup_erase _ _
  rcases handleQueueItemObject_cases h with ⟨hf, -⟩ | ⟨-, hc, hrq, q₁, a, hi, rfl⟩ |
    ⟨-, hc, -, q₁, a, hi, rfl⟩ | ⟨-, hc, hz, -⟩
  · simp [hf] at hre
  · obtain ⟨rfl, rfl⟩ := insert_new hp hq hi
    simp [hc, hrq, keyAt, plannedAt, hqi, newItem_plannedToStartWorkAt, deleteBeingProcessed,
      QueueItem.Fresh]
  · obtain ⟨rfl, rfl⟩ := insert_new hp hq hi
    simp [hc, keyAt, plannedAt, newItem_plannedToStartWorkAt, deleteBeingProcessed, QueueItem.Fresh]
  · exact absurd hz (hre.2.resolve_left hc)

theorem handleQueueItemObject_heap_lt (hq : q.itemsInQueue.lookup (q.keyAt qi) = none)
    (h : q.handleQueueItemObject qi failed wall now limit = .ok q') {b : ℕ} (hb : b < q.next) :
    q'.heap b = q.heap b := by
  have hp : (q.deleteBeingProcessed (q.keyAt qi)).itemsBeingProcessed.lookup (q.keyAt qi) = none :=
    AList.lookup_erase _ _
  rcases handleQueueItemObject_cases h with ⟨-, rfl⟩ | ⟨-, -, -, q₁, a, hi, rfl⟩ |
    ⟨-, -, -, q₁, a, hi, rfl⟩ | ⟨-, -, -, rfl⟩
  · rfl
  · obtain ⟨rfl, rfl⟩ := insert_new hp hq hi; simp [hb.ne, deleteBeingProcessed]
  · obtain ⟨rfl, rfl⟩ := insert_new hp hq hi; simp [hb.ne, deleteBeingProcessed]
  · rfl

theorem handleQueueItemObject_spans (hqi : qi ≠ q.next)
    (hq : q.itemsInQueue.lookup (q.keyAt qi) = none)
    (h : q.handleQueueItemObject qi failed wall now limit = .ok q') :
    (q'.spans = q.spans ∧ ((q.heap qi).forget = true ∨ (q.heap qi).redirtiedAt = 0)) ∨
    (q'.spans = .insert (q.keyAt qi) :: q.spans ∧
      q'.itemsInQueue.lookup (q.keyAt qi) = some q.next) := by
  rcases handleQueueItemObject_cases h with ⟨hf, rfl⟩ | ⟨hf, hc, hrq, q₁, a, hi, rfl⟩ |
    ⟨hf, hc, hz, q₁, a, hi, rfl⟩ | ⟨-, -, hz, rfl⟩
  · exact .inl ⟨rfl, .inl hf⟩
  · exact .inr ⟨(insert_frame hi).2.2.2.1, (handleQueueItemObject_reinsert hqi hq h ⟨hf, .inl ⟨hc, hrq⟩⟩).1⟩
  · exact .inr ⟨(insert_frame hi).2.2.2.1, (handleQueueItemObject_reinsert hqi hq h ⟨hf, .inr hz⟩).1⟩
  · exact .inl ⟨rfl, .inr hz⟩

theorem handleQueueItemObject_mem {k : String}
    (h : q.handleQueueItemObject qi failed wall now limit = .ok q') (hk : k ∈ q.itemsInQueue) :
    k ∈ q'.itemsInQueue := by
  rcases handleQueueItemObject_cases h with ⟨-, rfl⟩ | ⟨-, -, -, q₁, a, hi, rfl⟩ |
    ⟨-, -, -, q₁, a, hi, rfl⟩ | ⟨-, -, -, rfl⟩
  · exact hk
  · have := insert_mem hi hk; exact this
  · have := insert_mem hi hk; exact this
  · exact hk

end Queue

/-- Every item's re-dirty mark, in flight or long completed, is `MarkedBy` the
clock's last reading. -/
def Marked (s : System) : Prop := ∀ a, (s.queue.heap a).MarkedBy s.clock

variable {s s' : System} {a : Action} {r : Reading}

theorem marked_step (hm : Marked s) (hr : OnClock s a r) (h : s.step a r = .ok s') : Marked s' := by
  obtain ⟨s₁, h₁, rfl⟩ := System.step_eq_ok.1 h
  have hw : ∀ b, (s.queue.heap b).MarkedBy r.wall := fun b => (hm b).mono hr.1
  have hn : ∀ b, (s.queue.heap b).MarkedBy r.now := fun b => (hw b).mono hr.2
  show ∀ b, (s₁.queue.heap b).MarkedBy r.now
  rcases System.transition_cases h₁ with rfl | ⟨_, rl, d, q', b, ha, hi, rfl⟩ | ⟨key, -, rfl⟩ |
    ⟨i, -, -, -, -, rfl⟩ | ⟨i, e, q', -, -, -, hg, rfl⟩ | ⟨i, head, -, -, -, -, rfl⟩ |
    ⟨i, head, -, -, -, -, rfl⟩ | ⟨i, t, -, -, -, -, rfl⟩ | ⟨i, e, failed, q', -, -, -, hq, rfl⟩
  · exact hn
  · refine Queue.insert_markedBy hi hn fun hrl => ?_
    rcases ha with ⟨-, -, rfl⟩ | ⟨-, rfl, -⟩ | ⟨-, rfl⟩
    · exact le_rfl
    · cases hrl
    · cases hrl
  · intro b; rw [Queue.forget_heap]; exact hn b
  · exact hn
  · obtain ⟨-, -, -, rfl⟩ := Queue.getNextItem_dispatched hg; exact hn
  · exact hn
  · exact hn
  · exact hn
  · exact Queue.handleQueueItemObject_markedBy hq hw hr.2

theorem Reach.marked (h : Reach OnClock s) : Marked s := by
  induction h with
  | run h => intro b; simp [(run_new h).1, QueueItem.MarkedBy, Queue.new]
  | step a r _ hr hs ih => exact marked_step ih hr hs

theorem transition_ok
    (hm : ∀ b, (s.queue.heap b).redirtiedWithRatelimit = true → (s.queue.heap b).redirtiedAt ≤ r.wall) :
    ∃ s', s.transition r a = .ok s' := by
  cases a with
  | enqueue key | enqueueWithoutRateLimit key | enqueueWithoutRateLimitWithDelay key _ =>
    -- only a rate-limited insert with a delay panics, and no producer makes one
    exact Except.map_ok_of_ok (Except.map_ok_of_ok (Queue.insert_ok (by simp)))
  | forget key => exact ⟨_, rfl⟩
  | acquire i | poll i | wakeup i | timer i =>
    -- the worker's own moves never fail
    simp only [System.transition]
    repeat' split
    all_goals exact ⟨_, rfl⟩
  | complete i failed =>
    simp only [System.transition]
    split
    · split_ifs
      · exact Except.map_ok_of_ok (Queue.handleQueueItemObject_ok (hm _))
      · exact ⟨_, rfl⟩
    · exact ⟨_, rfl⟩

/-- On one non-decreasing clock, for any sequence of operations, dispatches and
completions: every in-flight item re-dirtied with the rate limit is marked no later
than the clock's last reading, and no step reaches the panic of `insert`. -/
theorem onClock_never_panics (h : Reach OnClock s) :
    (∀ k a, s.queue.itemsBeingProcessed.lookup k = some a →
      (s.queue.heap a).redirtiedWithRatelimit = true → (s.queue.heap a).redirtiedAt ≤ s.clock) ∧
    ∀ a r, OnClock s a r → ∃ s', s.step a r = .ok s' := by
  refine ⟨fun _ a _ => (h.marked a).1, fun a r hr => ?_⟩
  exact Except.map_ok_of_ok (transition_ok fun b hb => ((h.marked b).1 hb).trans hr.1)

theorem onClock_never_panics_busy :
    ∃ s, Reach OnClock s ∧ Busy 0 s ∧
    (∀ k a, s.queue.itemsBeingProcessed.lookup k = some a →
      (s.queue.heap a).redirtiedWithRatelimit = true → (s.queue.heap a).redirtiedAt ≤ s.clock) ∧
    ∀ a r, OnClock s a r → ∃ s', s.step a r = .ok s' :=
  let ⟨s, hs, hb⟩ := reach_busy
  ⟨s, hs, hb, onClock_never_panics hs⟩

theorem complete_step (h : Reachable s) {i qi : ℕ} {failed : Bool} (hi : s.phase i = .handling qi)
    (hm : (s.queue.heap qi).redirtiedWithRatelimit = true → (s.queue.heap qi).redirtiedAt ≤ r.wall) :
    ∃ q', s.queue.handleQueueItemObject qi failed r.wall r.now r.limit = .ok q' ∧
      s.step (.complete i failed) r = .ok { s.moveTo i .idle with queue := q', clock := r.now } ∧
      qi < s.queue.next ∧ s.queue.itemsInQueue.lookup (s.queue.keyAt qi) = none := by
  have hw := h.wf
  have hp := h.pool
  have hpq := hp.handling i qi hi
  obtain ⟨j, hj, hjq⟩ := hp.held _ qi hpq
  obtain rfl := hp.exclusive i j qi qi hi hjq rfl
  obtain ⟨q', hq'⟩ : ∃ q', s.queue.handleQueueItemObject qi failed r.wall r.now r.limit = .ok q' :=
    Queue.handleQueueItemObject_ok hm
  exact ⟨q', hq', by simp only [System.step, System.transition, hi, if_pos hj, hq']; rfl,
    hw.fresh_processing _ qi hpq, hw.pending_none_of_processing hpq⟩

/-- On one non-decreasing clock, the completion of an in-flight item with
`forget = false` and a re-dirty mark `t` succeeds and leaves its key pending. A
failure with retries left is requeued after the rate limiter's delay, whatever
`t`; otherwise the key is re-inserted no earlier than `t`, when the rate limiter's
delay is not negative. -/
theorem completion_reinserts_redirty (h : Reach OnClock s) {i qi : ℕ} {failed : Bool}
    (hi : s.phase i = .handling qi) (hf : (s.queue.heap qi).forget = false)
    (ht : (s.queue.heap qi).redirtiedAt ≠ 0) (hr : OnClock s (.complete i failed) r) :
    ∃ s', s.step (.complete i failed) r = .ok s' ∧ ∃ a,
      s'.queue.itemsInQueue.lookup (s.queue.keyAt qi) = some a ∧
      (failed = true ∧ (s.queue.heap qi).requeues + 1 < MaxRetries →
        s'.queue.plannedAt a = r.now + r.limit.ns) ∧
      (¬(failed = true ∧ (s.queue.heap qi).requeues + 1 < MaxRetries) → 0 ≤ r.limit.ns →
        (s.queue.heap qi).redirtiedAt ≤ s'.queue.plannedAt a) := by
  have hm := h.marked qi
  obtain ⟨q', hq', hst, hqi, hq⟩ := complete_step h.reachable hi fun hrl => (hm.1 hrl).trans hr.1
  obtain ⟨hl, -, hpl, -⟩ := Queue.handleQueueItemObject_reinsert hqi.ne hq hq' ⟨hf, .inr ht⟩
  refine ⟨_, hst, s.queue.next, hl, fun hc => ?_, fun hc hlim => ?_⟩
  · show q'.plannedAt _ = _
    rw [hpl, if_pos hc]
  · show _ ≤ q'.plannedAt _
    have := hr.1
    have := hr.2
    rw [hpl, if_neg hc]
    split_ifs with hrl
    · have := hm.1 hrl; omega
    · have := hm.2 ht
      have := le_timeUntil (t := (s.queue.heap qi).redirtiedAt) (by omega : _ - r.wall ≤ _)
      omega

/-- Key "a" is enqueued at 100 and dispatched, then re-dirtied 10 ns ahead while its
handler runs: its mark is 110. -/
def redirtyRun : List (Action × Reading) :=
  [(.enqueueWithoutRateLimit "a", ⟨100, 100, 0⟩), (.acquire 0, ⟨100, 100, 0⟩),
   (.poll 0, ⟨100, 100, 0⟩),
   (.enqueueWithoutRateLimitWithDelay "a" (Duration.ofInt 10), ⟨100, 100, 0⟩)]

theorem redirtyRun_requeue :
    ∃ s, Reach OnClock s ∧ s.phase 0 = .handling 0 ∧ s.queue.keyAt 0 = "a" ∧
      (s.queue.heap 0).forget = false ∧ (s.queue.heap 0).redirtiedAt = 110 ∧
      OnClock s (.complete 0 true) ⟨100, 100, 0⟩ ∧
      ∃ s' ∈ (s.step (.complete 0 true) ⟨100, 100, 0⟩).toOption,
        s'.queue.itemsInQueue.lookup "a" = some 1 ∧ s'.queue.plannedAt 1 = 100 :=
  reach_of_execute (Reach.start Nat.one_pos : Reach OnClock ((Queue.new "q").start 1 100))
    (by decide : onClockFrom 100 redirtyRun = true) (by decide)

theorem completion_reinserts_redirty_run :
    ∃ s, Reach OnClock s ∧ s.phase 0 = .handling 0 ∧ (s.queue.heap 0).forget = false ∧
      (s.queue.heap 0).redirtiedAt ≠ 0 ∧ OnClock s (.complete 0 true) ⟨100, 100, 0⟩ ∧
      ∃ s', s.step (.complete 0 true) ⟨100, 100, 0⟩ = .ok s' ∧ ∃ a,
        s'.queue.itemsInQueue.lookup (s.queue.keyAt 0) = some a ∧
        (true = true ∧ (s.queue.heap 0).requeues + 1 < MaxRetries → s'.queue.plannedAt a = 100 + 0) ∧
        (¬(true = true ∧ (s.queue.heap 0).requeues + 1 < MaxRetries) → 0 ≤ (0 : Duration).ns →
          (s.queue.heap 0).redirtiedAt ≤ s'.queue.plannedAt a) := by
  obtain ⟨s, hs, h1, -, h2, h3, h4, -⟩ := redirtyRun_requeue
  have ht : (s.queue.heap 0).redirtiedAt ≠ 0 := by rw [h3]; decide
  exact ⟨s, hs, h1, h2, ht, h4, completion_reinserts_redirty hs h1 h2 ht h4⟩

/-- A re-dirty mark is not honoured by the requeue of a failure with retries left:
"a", marked at 110 while in flight, is pending again at 100. -/
theorem requeue_ignores_redirty :
    ∃ s, Reach OnClock s ∧ s.phase 0 = .handling 0 ∧ (s.queue.heap 0).forget = false ∧
      (s.queue.heap 0).redirtiedAt = 110 ∧ OnClock s (.complete 0 true) ⟨100, 100, 0⟩ ∧
      ∃ s', s.step (.complete 0 true) ⟨100, 100, 0⟩ = .ok s' ∧
        ∃ a, s'.queue.itemsInQueue.lookup (s.queue.keyAt 0) = some a ∧
          s'.queue.plannedAt a < (s.queue.heap 0).redirtiedAt := by
  obtain ⟨s, hs, h1, hk, h2, h3, h4, s', hs', h5, h6⟩ := redirtyRun_requeue
  refine ⟨s, hs, h1, h2, h3, h4, s', Except.toOption_eq_some.1 hs', 1, hk ▸ h5, ?_⟩
  rw [h6, h3]; decide

end ClusterRouter
