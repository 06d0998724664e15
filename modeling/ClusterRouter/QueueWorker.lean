import ClusterRouter.QueueInsert

/-!
# Workers, dispatch and completion

`Run` starts a pool of workers; each loops on `handleQueueItem`, which takes the
exclusive `waitForNextItemSemaphore`, passes through `getNextItem`'s loop until it
hands out the head of `items`, runs the handler outside the lock, and completes in
`handleQueueItemObject`. Producers call the enqueue operations and `Forget` at any
time. Each of these is one atomic step of `System`; the handler's result, the
clock readings and the rate limiter's delay are the step's inputs.
-/

set_option autoImplicit false

namespace ClusterRouter

/-- What one pass of `getNextItem`'s loop found under the lock. -/
inductive Poll
  | dispatched (item : ℕ)
  | wait (head : Option ℤ)

theorem Except.map_eq_ok {ε α β : Type} {f : α → β} {x : Except ε α} {b : β} :
    x.map f = .ok b ↔ ∃ a, x = .ok a ∧ f a = b := by
  cases x <;> simp [Except.map]

theorem Except.toOption_eq_some {ε α : Type} {x : Except ε α} {a : α} :
    x.toOption = some a ↔ x = .ok a := by
  cases x <;> simp [Except.toOption]

theorem Except.map_ok_of_ok {ε α β : Type} {f : α → β} {x : Except ε α} :
    (∃ a, x = .ok a) → ∃ b, x.map f = .ok b
  | ⟨a, h⟩ => ⟨f a, by rw [h]; rfl⟩

theorem Except.map_eq_error {ε α β : Type} {f : α → β} {x : Except ε α} {e : ε} :
    x.map f = .error e ↔ x = .error e := by
  cases x <;> simp [Except.map]

namespace Queue

variable (q : Queue)

/-- `delete(q.itemsBeingProcessed, key)`. -/
def deleteBeingProcessed (key : String) : Queue :=
  { q with itemsBeingProcessed := q.itemsBeingProcessed.erase key }

/-- One pass of `getNextItem`'s loop under the lock: hand out the head of `items`
when `time.Until` of its planned time, read on the wall clock `wall`, is not
positive; otherwise report the planned time the timer waits for. -/
def getNextItem (wall : ℤ) : Queue × Poll :=
  match q.items with
  | [] => (q, .wait none)
  | e :: rest =>
    let qi := q.heap e
    if (timeUntil qi.plannedToStartWorkAt wall).ns ≤ 0 then
      ({ q with
          itemsBeingProcessed := q.itemsBeingProcessed.insert qi.key e
          items := rest
          itemsInQueue := q.itemsInQueue.erase qi.key }, .dispatched e)
    else (q, .wait (some qi.plannedToStartWorkAt))

/-- `handleQueueItemObject` from the moment the handler returns: `failed` is
whether it returned an error, `wall` what `time.Until` reads, `now` and `limit`
what `insert` reads. -/
def handleQueueItemObject (qi : ℕ) (failed : Bool) (wall now : ℤ) (limit : Duration) :
    Except String Queue :=
  let key := (q.heap qi).key
  let q := q.deleteBeingProcessed key
  if (q.heap qi).forget then .ok q
  else if failed ∧ (q.heap qi).requeues + 1 < MaxRetries then
    (q.insert key true 0 now limit).map fun (q', a) =>
      q'.modify a fun i =>
        { i with
          requeues := (q'.heap qi).requeues + 1
          originallyAdded := (q'.heap qi).originallyAdded }
  else if (q.heap qi).redirtiedAt ≠ 0 then
    (q.insert key (q.heap qi).redirtiedWithRatelimit (timeUntil (q.heap qi).redirtiedAt wall)
      now limit).map fun (q', a) => q'.modify a fun i => { i with addedViaRedirty := true }
  else .ok q

variable {q} {wall now : ℤ} {limit : Duration} {q' : Queue} {e qi : ℕ} {failed : Bool}

theorem getNextItem_dispatched (h : q.getNextItem wall = (q', .dispatched e)) :
    ∃ rest, q.items = e :: rest ∧ q.plannedAt e ≤ wall ∧
      q' = { q with itemsBeingProcessed := q.itemsBeingProcessed.insert (q.keyAt e) e,
                    items := rest, itemsInQueue := q.itemsInQueue.erase (q.keyAt e) } := by
  unfold getNextItem at h
  rcases hi : q.items with _ | ⟨b, rest⟩
  · simp [hi] at h
  · simp only [hi] at h
    split_ifs at h with hd
    · simp only [Prod.mk.injEq, Poll.dispatched.injEq] at h
      obtain ⟨rfl, rfl⟩ := h
      exact ⟨rest, rfl, timeUntil_nonpos.1 hd, rfl⟩
    · simp at h

theorem getNextItem_wait {head : Option ℤ} (h : q.getNextItem wall = (q', .wait head)) :
    q' = q ∧ (q.items = [] ∧ head = none ∨
      ∃ e rest, q.items = e :: rest ∧ wall < q.plannedAt e ∧ head = some (q.plannedAt e)) := by
  unfold getNextItem at h
  rcases hi : q.items with _ | ⟨b, rest⟩
  · simp only [hi, Prod.mk.injEq, Poll.wait.injEq] at h
    exact ⟨h.1.symm, .inl ⟨rfl, h.2.symm⟩⟩
  · simp only [hi] at h
    split_ifs at h with hd
    · simp at h
    simp only [Prod.mk.injEq, Poll.wait.injEq] at h
    exact ⟨h.1.symm, .inr ⟨b, rest, rfl, lt_of_not_le (mt timeUntil_nonpos.2 hd), h.2.symm⟩⟩

/-- Everything the completion can do: drop a forgotten item, requeue a failure
with retries left, re-insert a re-dirtied item, or drop the item. -/
theorem handleQueueItemObject_cases
    (h : q.handleQueueItemObject qi failed wall now limit = .ok q') :
    let item := q.heap qi
    let q₀ := q.deleteBeingProcessed item.key
    (item.forget = true ∧ q' = q₀) ∨
    (item.forget = false ∧ failed = true ∧ item.requeues + 1 < MaxRetries ∧
      ∃ q₁ a, q₀.insert item.key true 0 now limit = .ok (q₁, a) ∧
        q' = q₁.modify a fun i =>
          { i with
            requeues := (q₁.heap qi).requeues + 1
            originallyAdded := (q₁.heap qi).originallyAdded }) ∨
    (item.forget = false ∧ ¬(failed = true ∧ item.requeues + 1 < MaxRetries) ∧
      item.redirtiedAt ≠ 0 ∧
      ∃ q₁ a, q₀.insert item.key item.redirtiedWithRatelimit (timeUntil item.redirtiedAt wall)
          now limit = .ok (q₁, a) ∧ q' = q₁.modify a fun i => { i with addedViaRedirty := true }) ∨
    (item.forget = false ∧ ¬(failed = true ∧ item.requeues + 1 < MaxRetries) ∧
      item.redirtiedAt = 0 ∧ q' = q₀) := by
  unfold handleQueueItemObject at h
  simp only [deleteBeingProcessed] at h
  split_ifs at h with hf hr hz
  · exact .inl ⟨hf, (Except.ok.inj h).symm⟩
  · obtain ⟨⟨q₁, a⟩, hi, rfl⟩ := Except.map_eq_ok.1 h
    exact .inr (.inl ⟨by simpa using hf, hr.1, hr.2, q₁, a, hi, rfl⟩)
  · obtain ⟨⟨q₁, a⟩, hi, rfl⟩ := Except.map_eq_ok.1 h
    exact .inr (.inr (.inl ⟨by simpa using hf, hr, hz, q₁, a, hi, rfl⟩))
  · exact .inr (.inr (.inr ⟨by simpa using hf, hr, not_not.1 hz, (Except.ok.inj h).symm⟩))

theorem handleQueueItemObject_ok
    (hr : (q.heap qi).redirtiedWithRatelimit = true → (q.heap qi).redirtiedAt ≤ wall) :
    ∃ q', q.handleQueueItemObject qi failed wall now limit = .ok q' := by
  rcases h : q.handleQueueItemObject qi failed wall now limit with e | q'
  · unfold handleQueueItemObject at h
    simp only [deleteBeingProcessed] at h
    split_ifs at h
    · simpa using (insert_error (Except.map_eq_error.1 h)).2.2.2
    · obtain ⟨-, -, hrl, hd⟩ := insert_error (Except.map_eq_error.1 h)
      exact absurd (timeUntil_nonpos.2 (hr hrl)) (not_le.2 hd)
  · exact ⟨q', rfl⟩

theorem handleQueueItemObject_frame
    (h : q.handleQueueItemObject qi failed wall now limit = .ok q') :
    q'.itemsBeingProcessed = q.itemsBeingProcessed.erase (q.keyAt qi) ∧
    q'.waitForNextItemSemaphore = q.waitForNextItemSemaphore ∧ q.next ≤ q'.next ∧
    (∀ b < q.next, q'.keyAt b = q.keyAt b) ∧
    (q'.wakeupCh = true ∨ q'.items = q.items ∧ q'.heap = q.heap ∧ q'.wakeupCh = q.wakeupCh) := by
  rcases handleQueueItemObject_cases h with ⟨-, rfl⟩ | ⟨-, -, -, q₁, a, hi, rfl⟩ |
    ⟨-, -, -, q₁, a, hi, rfl⟩ | ⟨-, -, -, rfl⟩
  -- the two re-inserts differ only in the fields they write back, never the key
  all_goals first
    | exact ⟨rfl, rfl, le_rfl, fun _ _ => rfl, .inr ⟨rfl, rfl, rfl⟩⟩
    | obtain ⟨hp, hs, hw, -, hn, hk⟩ := insert_frame hi
      refine ⟨hp, hs, hn, fun b hb => ?_, .inl hw⟩
      rw [keyAt_modify _ b]
      exacts [hk b hb, fun _ => rfl]

end Queue

/-- Where a worker of `Run` is in its loop. -/
inductive Phase
  /-- waiting for `waitForNextItemSemaphore` -/
  | idle
  /-- holding it, about to take the lock in `getNextItem`'s loop -/
  | polling
  /-- holding it, lock released, in the `select`; `head` is the planned time of
  the head it saw, `none` for an empty list -/
  | sleeping (head : Option ℤ)
  /-- running the handler on the item `getNextItem` returned -/
  | handling (item : ℕ)
  deriving DecidableEq

/-- The queue, `Run`'s workers, the last reading of the clock, and for each worker the
`q.clock` reading at which the timer it last slept on fires. -/
structure System where
  queue : Queue
  workers : ℕ
  phase : ℕ → Phase
  clock : ℤ
  timer : ℕ → ℤ

/-- What a step reads: the wall clock (`time.Now`, through `time.Until`), then
`q.clock.Now()`, and the delay `q.ratelimiter.When` returns. -/
structure Reading where
  wall : ℤ
  now : ℤ
  limit : Duration

/-- The steps of the system: a producer's call, or one worker's atomic step. -/
inductive Action
  | enqueue (key : String)
  | enqueueWithoutRateLimit (key : String)
  | enqueueWithoutRateLimitWithDelay (key : String) (after : Duration)
  | forget (key : String)
  /-- `waitForNextItemSemaphore.Acquire` -/
  | acquire (worker : ℕ)
  /-- one locked pass of `getNextItem`'s loop -/
  | poll (worker : ℕ)
  /-- the `select` receives from `wakeupCh` -/
  | wakeup (worker : ℕ)
  /-- the `select`'s timer fires -/
  | timer (worker : ℕ)
  /-- the handler returns, and `handleQueueItemObject` completes -/
  | complete (worker : ℕ) (failed : Bool)

/-- `Run`'s pool of `workers` workers before any has started, the queue marked
running. -/
def Queue.start (q : Queue) (workers : ℕ) (clock : ℤ) : System :=
  { queue := { q with running := true }, workers := workers, phase := fun _ => .idle,
    clock := clock, timer := fun _ => 0 }

/-- `Run`'s checks, then its pool. -/
def Queue.run (q : Queue) (workers : ℤ) (clock : ℤ) : Except String System :=
  if workers ≤ 0 then .error ("Workers must be greater than 0, got: " ++ toString workers)
  else if q.running then .error ("Queue " ++ q.name ++ " is already running")
  else .ok (q.start workers.toNat clock)

/-- A worker holding `waitForNextItemSemaphore`: inside `getNextItem`. -/
def Phase.dispatching : Phase → Bool
  | .polling | .sleeping _ => true
  | _ => false

namespace System

variable (s : System)

/-- Worker `i` moves to `p`. -/
def moveTo (i : ℕ) (p : Phase) : System := { s with phase := Function.update s.phase i p }

@[simp] theorem moveTo_phase (i j : ℕ) (p : Phase) :
    (s.moveTo i p).phase j = if j = i then p else s.phase j := by
  by_cases h : j = i <;> simp [moveTo, h]

@[simp] theorem moveTo_queue (i : ℕ) (p : Phase) : (s.moveTo i p).queue = s.queue := rfl
@[simp] theorem moveTo_workers (i : ℕ) (p : Phase) : (s.moveTo i p).workers = s.workers := rfl

/-- Worker `i` goes to sleep on `head`. For a head planned at `t`,
`q.clock.NewTimer(time.Until(t))` starts at the reading `r` and fires once `q.clock`
reads `r.now` plus that duration. -/
def sleep (i : ℕ) (head : Option ℤ) (r : Reading) : System :=
  { s.moveTo i (.sleeping head) with
    timer := match head with
      | some t => Function.update s.timer i (r.now + (timeUntil t r.wall).ns)
      | none => s.timer }

@[simp] theorem sleep_queue (i : ℕ) (head : Option ℤ) (r : Reading) :
    (s.sleep i head r).queue = s.queue := rfl
@[simp] theorem sleep_workers (i : ℕ) (head : Option ℤ) (r : Reading) :
    (s.sleep i head r).workers = s.workers := rfl
@[simp] theorem sleep_phase (i : ℕ) (head : Option ℤ) (r : Reading) :
    (s.sleep i head r).phase = (s.moveTo i (.sleeping head)).phase := rfl

variable {s} in
theorem moveTo_phase_of_ne {i j : ℕ} {p x : Phase} (hx : p ≠ x)
    (h : (s.moveTo i p).phase j = x) : j ≠ i ∧ s.phase j = x := by
  by_cases hj : j = i <;> simp_all

/-- The step before the clock is read into `clock`. -/
def transition (r : Reading) : Action → Except String System
  | .enqueue key => (s.queue.enqueue key r.now r.limit).map fun q => { s with queue := q }
  | .enqueueWithoutRateLimit key =>
    (s.queue.enqueueWithoutRateLimit key r.now r.limit).map fun q => { s with queue := q }
  | .enqueueWithoutRateLimitWithDelay key after =>
    (s.queue.enqueueWithoutRateLimitWithDelay key after r.now r.limit).map
      fun q => { s with queue := q }
  | .forget key => .ok { s with queue := s.queue.forget key }
  | .acquire i =>
    if i < s.workers ∧ s.phase i = .idle ∧ s.queue.waitForNextItemSemaphore = false then
      .ok { s.moveTo i .polling with
            queue := { s.queue with waitForNextItemSemaphore := true } }
    else .ok s
  | .poll i =>
    if i < s.workers ∧ s.phase i = .polling then
      match s.queue.getNextItem r.wall with
      | (q, .dispatched e) =>
        .ok { s.moveTo i (.handling e) with
              queue := { q with waitForNextItemSemaphore := false }.span
                (.handleQueueItem (q.heap e).key) }
      | (_, .wait head) => .ok (s.sleep i head r)
    else .ok s
  | .wakeup i =>
    match s.phase i with
    | .sleeping _ =>
      if i < s.workers ∧ s.queue.wakeupCh = true then
        .ok { s.moveTo i .polling with queue := { s.queue with wakeupCh := false } }
      else .ok s
    | _ => .ok s
  | .timer i =>
    match s.phase i with
    | .sleeping (some _) =>
      if i < s.workers ∧ s.timer i ≤ r.now then .ok (s.moveTo i .polling) else .ok s
    | _ => .ok s
  | .complete i failed =>
    match s.phase i with
    | .handling a =>
      if i < s.workers then
        (s.queue.handleQueueItemObject a failed r.wall r.now r.limit).map
          fun q => { s.moveTo i .idle with queue := q }
      else .ok s
    | _ => .ok s

variable {s} {s' : System} {r : Reading} {a : Action}

/-- Everything a step can do before the clock is recorded. -/
theorem transition_cases (h : s.transition r a = .ok s') :
    s' = s ∨
    (∃ key ratelimit delay q' b,
      (a = .enqueue key ∧ ratelimit = true ∧ delay = 0 ∨
        a = .enqueueWithoutRateLimit key ∧ ratelimit = false ∧ delay = 0 ∨
        a = .enqueueWithoutRateLimitWithDelay key delay ∧ ratelimit = false) ∧
      s.queue.insert key ratelimit delay r.now r.limit = .ok (q', b) ∧ s' = { s with queue := q' }) ∨
    (∃ key, a = .forget key ∧ s' = { s with queue := s.queue.forget key }) ∨
    (∃ i, a = .acquire i ∧ i < s.workers ∧ s.phase i = .idle ∧
      s.queue.waitForNextItemSemaphore = false ∧
      s' = { s.moveTo i .polling with queue := { s.queue with waitForNextItemSemaphore := true } }) ∨
    (∃ i e q', a = .poll i ∧ i < s.workers ∧ s.phase i = .polling ∧
      s.queue.getNextItem r.wall = (q', .dispatched e) ∧
      s' = { s.moveTo i (.handling e) with
             queue := { q' with waitForNextItemSemaphore := false }.span
               (.handleQueueItem (q'.heap e).key) }) ∨
    (∃ i head, a = .poll i ∧ i < s.workers ∧ s.phase i = .polling ∧
      s.queue.getNextItem r.wall = (s.queue, .wait head) ∧ s' = s.sleep i head r) ∨
    (∃ i head, a = .wakeup i ∧ i < s.workers ∧ s.phase i = .sleeping head ∧
      s.queue.wakeupCh = true ∧
      s' = { s.moveTo i .polling with queue := { s.queue with wakeupCh := false } }) ∨
    (∃ i t, a = .timer i ∧ i < s.workers ∧ s.phase i = .sleeping (some t) ∧
      s.timer i ≤ r.now ∧ s' = s.moveTo i .polling) ∨
    (∃ i e failed q', a = .complete i failed ∧ i < s.workers ∧ s.phase i = .handling e ∧
      s.queue.handleQueueItemObject e failed r.wall r.now r.limit = .ok q' ∧
      s' = { s.moveTo i .idle with queue := q' }) := by
  cases a with
  | enqueue key =>
    obtain ⟨q', hq, rfl⟩ := Except.map_eq_ok.1 h
    obtain ⟨⟨q', b⟩, hi, rfl⟩ := Except.map_eq_ok.1 hq
    exact .inr <| .inl ⟨key, true, 0, q', b, .inl ⟨rfl, rfl, rfl⟩, hi, rfl⟩
  | enqueueWithoutRateLimit key =>
    obtain ⟨q', hq, rfl⟩ := Except.map_eq_ok.1 h
    obtain ⟨⟨q', b⟩, hi, rfl⟩ := Except.map_eq_ok.1 hq
    exact .inr <| .inl ⟨key, false, 0, q', b, .inr (.inl ⟨rfl, rfl, rfl⟩), hi, rfl⟩
  | enqueueWithoutRateLimitWithDelay key after =>
    obtain ⟨q', hq, rfl⟩ := Except.map_eq_ok.1 h
    obtain ⟨⟨q', b⟩, hi, rfl⟩ := Except.map_eq_ok.1 hq
    exact .inr <| .inl ⟨key, false, after, q', b, .inr (.inr ⟨rfl, rfl⟩), hi, rfl⟩
  | forget key => exact .inr <| .inr (.inl ⟨key, rfl, (Except.ok.inj h).symm⟩)
  | acquire i =>
    simp only [transition] at h
    split_ifs at h with hc
    · exact .inr <| .inr (.inr (.inl ⟨i, rfl, hc.1, hc.2.1, hc.2.2, (Except.ok.inj h).symm⟩))
    · exact .inl (Except.ok.inj h).symm
  | poll i =>
    simp only [transition] at h
    split_ifs at h with hc
    · rcases hg : s.queue.getNextItem r.wall with ⟨q', e | head⟩ <;> rw [hg] at h
      · exact .inr <| .inr (.inr (.inr (.inl ⟨i, e, q', rfl, hc.1, hc.2, rfl, (Except.ok.inj h).symm⟩)))
      · obtain ⟨rfl, -⟩ := Queue.getNextItem_wait hg
        exact .inr <| .inr (.inr (.inr (.inr (.inl ⟨i, head, rfl, hc.1, hc.2, rfl,
          (Except.ok.inj h).symm⟩))))
    · exact .inl (Except.ok.inj h).symm
  | wakeup i =>
    simp only [transition] at h
    rcases hp : s.phase i with _ | _ | head | e <;> simp only [hp] at h <;>
      try exact .inl (Except.ok.inj h).symm
    split_ifs at h with hc
    · exact .inr <| .inr (.inr (.inr (.inr (.inr (.inl ⟨i, head, rfl, hc.1, hp, hc.2,
        (Except.ok.inj h).symm⟩)))))
    · exact .inl (Except.ok.inj h).symm
  | timer i =>
    simp only [transition] at h
    rcases hp : s.phase i with _ | _ | (_ | t) | e <;> simp only [hp] at h <;>
      try exact .inl (Except.ok.inj h).symm
    split_ifs at h with hc
    · exact .inr <| .inr (.inr (.inr (.inr (.inr (.inr (.inl ⟨i, t, rfl, hc.1, hp, hc.2,
        (Except.ok.inj h).symm⟩))))))
    · exact .inl (Except.ok.inj h).symm
  | complete i failed =>
    simp only [transition] at h
    rcases hp : s.phase i with _ | _ | head | e <;> simp only [hp] at h <;>
      try exact .inl (Except.ok.inj h).symm
    split_ifs at h with hc
    · obtain ⟨q', hq, rfl⟩ := Except.map_eq_ok.1 h
      exact .inr <| .inr (.inr (.inr (.inr (.inr (.inr (.inr ⟨i, e, failed, q', rfl, hc, hp, hq,
        rfl⟩))))))
    · exact .inl (Except.ok.inj h).symm

variable (s) in
/-- One step, after which the clock last read `r.now`. -/
def step (a : Action) (r : Reading) : Except String System :=
  (s.transition r a).map fun s' => { s' with clock := r.now }

theorem step_eq_ok : s.step a r = .ok s' ↔
    ∃ s₁, s.transition r a = .ok s₁ ∧ s' = { s₁ with clock := r.now } := by
  rw [step, Except.map_eq_ok]
  exact exists_congr fun _ => and_congr_right fun _ => eq_comm

end System

/-- A run of steps; it stops at the first panic. -/
def System.execute : System → List (Action × Reading) → Except String System
  | s, [] => .ok s
  | s, (a, r) :: rest => (s.step a r).bind fun s' => s'.execute rest

/-- The states reached from `Run` on a `New` queue by steps that `allowed` allows. -/
inductive Reach (allowed : System → Action → Reading → Prop) : System → Prop
  | run {name : String} {workers clock : ℤ} {s : System} :
      (Queue.new name).run workers clock = .ok s → Reach allowed s
  | step {s s' : System} (a : Action) (r : Reading) :
      Reach allowed s → allowed s a r → s.step a r = .ok s' → Reach allowed s'

/-- Reachable by any steps, under any readings. -/
def Reachable (s : System) : Prop := Reach (fun _ _ _ => True) s

/-- A step taken on one non-decreasing clock: `time.Until` reads it first, then
`q.clock.Now()`, both no earlier than the last reading. -/
def OnClock (s : System) (_ : Action) (r : Reading) : Prop := s.clock ≤ r.wall ∧ r.wall ≤ r.now

instance (s : System) (a : Action) (r : Reading) : Decidable (OnClock s a r) :=
  inferInstanceAs (Decidable (_ ∧ _))

theorem run_new {name : String} {workers clock : ℤ} {s : System}
    (h : (Queue.new name).run workers clock = .ok s) :
    s.queue = { Queue.new name with running := true } ∧ s.phase = (fun _ => .idle) ∧
      s.clock = clock := by
  unfold Queue.run at h
  split_ifs at h
  cases h
  exact ⟨rfl, rfl, rfl⟩

theorem Reach.start {allowed : System → Action → Reading → Prop} {name : String} {workers : ℕ}
    {clock : ℤ} (hw : 0 < workers) : Reach allowed ((Queue.new name).start workers clock) :=
  .run (show (Queue.new name).run workers clock = _ by
    simp [Queue.run, Queue.new, hw, Nat.pos_iff_ne_zero.1 hw])

theorem Reach.mono {allowed allowed' : System → Action → Reading → Prop} {s : System}
    (hm : ∀ s a r, allowed s a r → allowed' s a r) (h : Reach allowed s) : Reach allowed' s := by
  induction h with
  | run h => exact .run h
  | step a r _ ha hs ih => exact .step a r ih (hm _ a r ha) hs

theorem Reach.reachable {allowed : System → Action → Reading → Prop} {s : System}
    (h : Reach allowed s) : Reachable s := by
  induction h with
  | run h => exact .run h
  | step a r _ _ hs ih => exact .step a r ih trivial hs

/-- Whether each reading of a run passes `ok` against the clock's reading before it. -/
def runOk (ok : ℤ → Reading → Bool) : ℤ → List (Action × Reading) → Bool
  | _, [] => true
  | clock, (_, r) :: rest => ok clock r && runOk ok r.now rest

/-- Whether the readings of a run come, in order, from one non-decreasing clock
last read at `clock`. -/
def onClockFrom : ℤ → List (Action × Reading) → Bool :=
  runOk fun clock r => decide (clock ≤ r.wall ∧ r.wall ≤ r.now)

theorem Reach.execute_of {allowed : System → Action → Reading → Prop} (ok : ℤ → Reading → Bool)
    (hok : ∀ s a r, ok s.clock r = true → allowed s a r) {s s' : System}
    {tr : List (Action × Reading)} (h : Reach allowed s) (hc : runOk ok s.clock tr = true)
    (he : s.execute tr = .ok s') : Reach allowed s' := by
  induction tr generalizing s with
  | nil => cases he; exact h
  | cons ar rest ih =>
    obtain ⟨a, r⟩ := ar
    simp only [runOk, Bool.and_eq_true] at hc
    simp only [System.execute] at he
    rcases hs : s.step a r with _ | s₁ <;> rw [hs] at he
    · cases he
    · obtain ⟨s₂, -, rfl⟩ := System.step_eq_ok.1 hs
      exact ih (.step a r h (hok s a r hc.1) hs) hc.2 he

theorem Reach.execute {s s' : System} {tr : List (Action × Reading)} (h : Reach OnClock s)
    (hc : onClockFrom s.clock tr = true) (he : s.execute tr = .ok s') : Reach OnClock s' :=
  h.execute_of _ (fun _ _ _ h => of_decide_eq_true h) hc he

theorem exists_of_execute {P : System → Prop} [DecidablePred P] (s : System)
    (tr : List (Action × Reading))
    (hp : (s.execute tr).toOption.map (fun s => decide (P s)) = some true) :
    ∃ s', s.execute tr = .ok s' ∧ P s' := by
  rcases he : s.execute tr with e | s'
  · simp [he, Except.toOption] at hp
  · simp only [he, Except.toOption, Option.map_some', Option.some.injEq, decide_eq_true_eq] at hp
    exact ⟨s', rfl, hp⟩

theorem reach_of_execute {s : System} {tr : List (Action × Reading)} {P : System → Prop}
    [DecidablePred P] (h : Reach OnClock s) (hc : onClockFrom s.clock tr = true)
    (hp : (s.execute tr).toOption.map (fun s => decide (P s)) = some true) :
    ∃ s', Reach OnClock s' ∧ P s' :=
  let ⟨s', he, hp⟩ := exists_of_execute s tr hp
  ⟨s', h.execute hc he, hp⟩

/-- Two workers from time `t`: "a", "b" and "c" are enqueued, "b" and "c" 20ns and
30ns ahead; worker 0 is handed "a", which is enqueued again while in flight; worker 1
polls, is woken by the token of that enqueue, polls again and sleeps until "b" is due. -/
def busyRun (t : ℤ) : List (Action × Reading) :=
  [(.enqueueWithoutRateLimit "a", ⟨t, t, 0⟩),
    (.enqueueWithoutRateLimitWithDelay "b" (Duration.ofInt 20), ⟨t, t, 0⟩),
    (.enqueueWithoutRateLimitWithDelay "c" (Duration.ofInt 30), ⟨t, t, 0⟩),
    (.acquire 0, ⟨t, t, 0⟩), (.poll 0, ⟨t + 1, t + 1, 0⟩), (.enqueue "a", ⟨t + 2, t + 2, 0⟩),
    (.acquire 1, ⟨t + 3, t + 3, 0⟩), (.poll 1, ⟨t + 4, t + 4, 0⟩),
    (.wakeup 1, ⟨t + 5, t + 5, 0⟩), (.poll 1, ⟨t + 6, t + 6, 0⟩)]

/-- Where `busyRun t` ends: "b" then "c" pending, "a" in flight with worker 0 and
re-dirtied, worker 1 asleep on "b" with no token. -/
def Busy (t : ℤ) (s : System) : Prop :=
  s.queue.items.map s.queue.keyAt = ["b", "c"] ∧ s.queue.itemsBeingProcessed.keys = ["a"] ∧
    s.phase 0 = .handling 0 ∧ (s.queue.heap 0).redirtiedAt = t + 2 ∧
    s.phase 1 = .sleeping (some (t + 20)) ∧ s.queue.wakeupCh = false

instance (t : ℤ) : DecidablePred (Busy t) := fun _ => inferInstanceAs (Decidable (_ ∧ _))

theorem reach_busy : ∃ s, Reach OnClock s ∧ Busy 0 s :=
  reach_of_execute (Reach.start (by decide) : Reach OnClock ((Queue.new "q").start 2 0))
    (by decide : onClockFrom 0 (busyRun 0) = true) (by decide)

/-- "a" is enqueued, then polled for with the wall clock at `wall`; `q.clock` reads
`0` throughout. -/
def pollAt (wall : ℤ) : List (Action × Reading) :=
  [(.enqueueWithoutRateLimit "a", ⟨0, 0, 0⟩), (.acquire 0, ⟨0, 0, 0⟩), (.poll 0, ⟨wall, 0, 0⟩)]

/-- The same operations with the same readings of `q.clock` dispatch "a" or put the
worker to sleep, depending on the wall clock alone. -/
theorem wall_clock_decides_dispatch :
    (((Queue.new "q").start 1 0).execute (pollAt 0)).toOption.map
        (fun s => (s.phase 0, s.queue.items)) = some (.handling 0, []) ∧
    (((Queue.new "q").start 1 0).execute (pollAt (-1))).toOption.map
        (fun s => (s.phase 0, s.queue.items)) = some (.sleeping (some 0), [0]) := by
  decide

end ClusterRouter
