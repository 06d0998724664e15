import ClusterRouter.QueuePool

/-!
# The dispatcher always gets to a due head

Only the workers `Run` starts ever leave `idle`, and `waitForNextItemSemaphore`
is held only by a worker inside `getNextItem`. With the no-lost-wakeup invariant
of `QueuePool` this gives progress: whenever the head of `items` is due on the
wall clock, some worker is not running a handler, and a dispatcher asleep with no
token in `wakeupCh` has seen `q.clock` reach its timer, at most two steps of the
workers themselves, with no enqueue and no completion, hand the head out. A timer
fires only once `q.clock` reaches it, so a `q.clock` that stays behind the wall
clock can leave a due head waiting. Fair scheduling of the steps is the runtime's,
and is not modelled.
-/

set_option autoImplicit false

namespace ClusterRouter

/-- The steps a worker takes on its own: no producer and no handler is involved. -/
def Action.ofWorker : Action → Bool
  | .acquire _ | .poll _ | .wakeup _ | .timer _ => true
  | _ => false

/-- Only the workers of the pool leave `idle`, and the semaphore is held only by a
worker inside `getNextItem`. -/
structure Dispatcher (s : System) : Prop where
  idle_beyond : ∀ j, s.workers ≤ j → s.phase j = .idle
  held : s.queue.waitForNextItemSemaphore = true → ∃ j, (s.phase j).dispatching

namespace Dispatcher

variable {s : System} {i : ℕ} {q : Queue}

theorem queue (hd : Dispatcher s)
    (hq : q.waitForNextItemSemaphore = s.queue.waitForNextItemSemaphore) :
    Dispatcher { s with queue := q } :=
  ⟨hd.idle_beyond, fun h => hd.held (hq ▸ h)⟩

theorem enter (hd : Dispatcher s) {p : Phase} (hi : i < s.workers) (hp : p.dispatching) :
    Dispatcher { s.moveTo i p with queue := q } where
  idle_beyond j (hj : s.workers ≤ j) := by simp [show j ≠ i by omega, hd.idle_beyond j hj]
  held _ := ⟨i, by simpa using hp⟩

theorem dispatch (hd : Dispatcher s) {e : ℕ} (hi : i < s.workers)
    (hq : q.waitForNextItemSemaphore = false) :
    Dispatcher { s.moveTo i (.handling e) with queue := q } where
  idle_beyond j (hj : s.workers ≤ j) := by simp [show j ≠ i by omega, hd.idle_beyond j hj]
  held h := absurd (hq ▸ h : false = true) Bool.false_ne_true

theorem complete (hd : Dispatcher s) {e : ℕ} (hi : s.phase i = .handling e)
    (hq : q.waitForNextItemSemaphore = s.queue.waitForNextItemSemaphore) :
    Dispatcher { s.moveTo i .idle with queue := q } where
  idle_beyond j hj := by by_cases h : j = i <;> simp [h, hd.idle_beyond j hj]
  held h := by
    obtain ⟨j, hj⟩ := hd.held (hq ▸ h)
    have hji : j ≠ i := by rintro rfl; simp [hi, Phase.dispatching] at hj
    exact ⟨j, by simpa [hji] using hj⟩

end Dispatcher

variable {s s' : System} {r : Reading} {a : Action}

theorem dispatcher_transition (hd : Dispatcher s) (h : s.transition r a = .ok s') :
    Dispatcher s' := by
  rcases System.transition_cases h with rfl | ⟨_, _, _, q', b, -, hi, rfl⟩ | ⟨key, -, rfl⟩ |
    ⟨i, -, hlt, -, -, rfl⟩ | ⟨i, e, q', -, hlt, -, -, rfl⟩ |
    ⟨i, head, -, hlt, -, -, rfl⟩ | ⟨i, head, -, hlt, -, -, rfl⟩ | ⟨i, t, -, hlt, -, -, rfl⟩ |
    ⟨i, e, failed, q', -, -, hhd, hq, rfl⟩
  · exact hd
  · exact hd.queue (Queue.insert_frame hi).2.1
  · exact hd.queue (@Queue.forget_frame s.queue key).2.1
  · exact hd.enter hlt rfl
  · exact hd.dispatch hlt rfl
  · have hs := hd.enter (i := i) (p := .sleeping head) (q := s.queue) hlt rfl
    exact ⟨hs.1, hs.2⟩
  · exact hd.enter hlt rfl
  · exact hd.enter (q := s.queue) hlt rfl
  · exact hd.complete hhd (Queue.handleQueueItemObject_frame hq).2.1

theorem Reachable.dispatcher (h : Reachable s) : Dispatcher s := by
  induction h with
  | run h =>
    obtain ⟨hq, hph, -⟩ := run_new h
    exact ⟨fun j _ => by rw [hph], fun hs => by simp [hq, Queue.new] at hs⟩
  | step a r _ _ hs ih =>
    obtain ⟨s₁, h₁, rfl⟩ := System.step_eq_ok.1 hs
    have hd₁ := dispatcher_transition ih h₁
    exact ⟨hd₁.1, hd₁.2⟩

/-! ## The worker steps that reach the head -/

section Steps

variable {i : ℕ}

theorem System.execute_cons {s₁ : System} {rest : List (Action × Reading)}
    (h : s.step a r = .ok s₁) : s.execute ((a, r) :: rest) = s₁.execute rest := by
  simp only [System.execute, h]; rfl

theorem acquire_step (hi : i < s.workers) (hidle : s.phase i = .idle)
    (hsem : s.queue.waitForNextItemSemaphore = false) :
    s.step (.acquire i) r = .ok { s.moveTo i .polling with
      queue := { s.queue with waitForNextItemSemaphore := true }, clock := r.now } := by
  simp only [System.step, System.transition, if_pos (And.intro hi (And.intro hidle hsem))]; rfl

theorem wakeup_step {head : Option ℤ} (hi : i < s.workers) (hsl : s.phase i = .sleeping head)
    (hw : s.queue.wakeupCh = true) :
    s.step (.wakeup i) r = .ok { s.moveTo i .polling with
      queue := { s.queue with wakeupCh := false }, clock := r.now } := by
  simp only [System.step, System.transition, hsl, if_pos (And.intro hi hw)]; rfl

theorem timer_step {t : ℤ} (hi : i < s.workers) (hsl : s.phase i = .sleeping (some t))
    (ht : s.timer i ≤ r.now) :
    s.step (.timer i) r = .ok { s.moveTo i .polling with clock := r.now } := by
  simp only [System.step, System.transition, hsl, if_pos (And.intro hi ht)]; rfl

theorem poll_step_due {e : ℕ} {rest : List ℕ} (hi : i < s.workers) (hpoll : s.phase i = .polling)
    (he : s.queue.items = e :: rest) (hdue : s.queue.plannedAt e ≤ r.wall) :
    ∃ s', s.execute [(.poll i, r)] = .ok s' ∧ s'.phase i = .handling e ∧ s'.queue.items = rest := by
  have hg : s.queue.getNextItem r.wall = ({ s.queue with
      itemsBeingProcessed := s.queue.itemsBeingProcessed.insert (s.queue.keyAt e) e,
      items := rest, itemsInQueue := s.queue.itemsInQueue.erase (s.queue.keyAt e) },
      .dispatched e) := by
    unfold Queue.getNextItem
    simp only [he]
    rw [if_pos (timeUntil_nonpos.2 (show (s.queue.heap e).plannedToStartWorkAt ≤ r.wall from hdue))]
    rfl
  exact ⟨_, by simp only [System.execute, System.step, System.transition,
    if_pos (And.intro hi hpoll), hg]; rfl, by simp, by rfl⟩

theorem then_poll {s₁ : System} {e : ℕ} {rest : List ℕ} (hx : s.step a r = .ok s₁)
    (hi : i < s₁.workers) (hpoll : s₁.phase i = .polling) (he : s₁.queue.items = e :: rest)
    (hdue : s₁.queue.plannedAt e ≤ r.wall) :
    ∃ s', s.execute ([a, .poll i].map fun a => (a, r)) = .ok s' ∧ s'.phase i = .handling e ∧
      s'.queue.items = rest := by
  obtain ⟨s', hs', h₁, h₂⟩ := poll_step_due hi hpoll he hdue
  exact ⟨s', by rw [List.map_cons, System.execute_cons hx]; exact hs', h₁, h₂⟩

end Steps

/-- In every reachable state whose head `e` is due on the wall clock `r.wall`, in
which some worker of the pool is not running a handler, and in which a worker asleep
with no token in `wakeupCh` has its timer due on `q.clock` at `r.now`, a run of at
most two steps of the workers alone, read at `r`, hands `e` out to a worker: a
polling holder of the semaphore polls; a sleeping one is woken by the token or, there
being none, by its timer, then polls; with no holder, a free worker is idle and takes
the semaphore, then polls. -/
theorem reachable_dispatch_progress (h : Reachable s) {e : ℕ} {rest : List ℕ} (r : Reading)
    (he : s.queue.items = e :: rest) (hdue : s.queue.plannedAt e ≤ r.wall)
    (hfree : ∃ i < s.workers, ∀ b, s.phase i ≠ .handling b)
    (htimer : ∀ j head, s.phase j = .sleeping head → s.queue.wakeupCh = false →
      s.timer j ≤ r.now) :
    ∃ tr : List Action, tr.length ≤ 2 ∧ (∀ a ∈ tr, a.ofWorker = true) ∧
      ∃ s', s.execute (tr.map fun a => (a, r)) = .ok s' ∧
        ∃ i, s'.phase i = .handling e ∧ s'.queue.items = rest := by
  have hd := h.dispatcher
  by_cases hj : ∃ j, (s.phase j).dispatching
  · obtain ⟨j, hj⟩ := hj
    have hjw : j < s.workers := not_le.1 fun hle => by
      simp [hd.idle_beyond j hle, Phase.dispatching] at hj
    rcases hph : s.phase j with _ | _ | head | b <;> rw [hph] at hj
    · cases hj
    · -- the holder polls
      obtain ⟨s', hs', hsj, hsi⟩ := poll_step_due hjw hph he hdue
      exact ⟨[.poll j], by simp, by simp [Action.ofWorker], s', hs', j, hsj, hsi⟩
    · -- the holder sleeps: a token wakes it, or, no wakeup being lost, its timer does
      cases hw : s.queue.wakeupCh
      · obtain ⟨t, rfl, -⟩ := (h.awake j head hph).resolve_left (by simp [hw]) e (by simp [he])
        obtain ⟨s', hs', hsj, hsi⟩ :=
          then_poll (timer_step hjw hph (htimer j _ hph hw)) hjw (by simp) he hdue
        exact ⟨_, by simp, by simp [Action.ofWorker], s', hs', j, hsj, hsi⟩
      · obtain ⟨s', hs', hsj, hsi⟩ := then_poll (wakeup_step hjw hph hw) hjw (by simp) he hdue
        exact ⟨_, by simp, by simp [Action.ofWorker], s', hs', j, hsj, hsi⟩
    · cases hj
  · -- no holder: the semaphore is free and the free worker is idle
    obtain ⟨i, hi, hni⟩ := hfree
    have hsem : s.queue.waitForNextItemSemaphore = false := by
      by_contra hs; exact hj (hd.held (by simpa using hs))
    have hidle : s.phase i = .idle := by
      have hnd : ¬(s.phase i).dispatching := fun h => hj ⟨i, h⟩
      cases hph : s.phase i <;> simp_all [Phase.dispatching]
    obtain ⟨s', hs', hsi', hsi⟩ := then_poll (acquire_step hi hidle hsem) hi (by simp) he hdue
    exact ⟨_, by simp, by simp [Action.ofWorker], s', hs', i, hsi', hsi⟩

/-- "a" is enqueued 10ns ahead into a pool of one worker, which polls, is woken by the
enqueue's token, polls again and sleeps with no token on a timer due at 10. -/
def timerRun : List (Action × Reading) :=
  [(.enqueueWithoutRateLimitWithDelay "a" (Duration.ofInt 10), ⟨0, 0, 0⟩),
    (.acquire 0, ⟨0, 0, 0⟩), (.poll 0, ⟨0, 0, 0⟩), (.wakeup 0, ⟨0, 0, 0⟩), (.poll 0, ⟨0, 0, 0⟩)]

theorem reachable_dispatch_progress_timer :
    ∃ s, Reachable s ∧ s.phase 0 = .sleeping (some 10) ∧ s.queue.wakeupCh = false ∧
      s.queue.items = [0] ∧ s.queue.plannedAt 0 ≤ (⟨10, 10, 0⟩ : Reading).wall ∧
      (∃ i < s.workers, ∀ b, s.phase i ≠ .handling b) ∧
      (∀ j head, s.phase j = .sleeping head → s.queue.wakeupCh = false →
        s.timer j ≤ (⟨10, 10, 0⟩ : Reading).now) ∧
      ∃ tr : List Action, tr.length ≤ 2 ∧ (∀ a ∈ tr, a.ofWorker = true) ∧
        ∃ s', s.execute (tr.map fun a => (a, ⟨10, 10, 0⟩)) = .ok s' ∧
          ∃ i, s'.phase i = .handling 0 ∧ s'.queue.items = [] := by
  obtain ⟨s, hs, hph, hw, hi, hp, hn, ht⟩ := reach_of_execute
    (P := fun s => s.phase 0 = .sleeping (some 10) ∧ s.queue.wakeupCh = false ∧
      s.queue.items = [0] ∧ s.queue.plannedAt 0 ≤ 10 ∧ s.workers = 1 ∧ s.timer 0 ≤ 10)
    (Reach.start Nat.one_pos : Reach OnClock ((Queue.new "q").start 1 0))
    (by decide : onClockFrom 0 timerRun = true) (by decide)
  have hfree : ∃ i < s.workers, ∀ b, s.phase i ≠ .handling b := ⟨0, by omega, fun b => by simp [hph]⟩
  have htimer : ∀ j head, s.phase j = .sleeping head → s.queue.wakeupCh = false →
      s.timer j ≤ (⟨10, 10, 0⟩ : Reading).now := fun j head hj _ => by
    rcases Nat.eq_zero_or_pos j with rfl | hj0
    · exact ht
    · simp [hs.reachable.dispatcher.idle_beyond j (by omega)] at hj
  exact ⟨s, hs.reachable, hph, hw, hi, hp, hfree, htimer,
    reachable_dispatch_progress hs.reachable ⟨10, 10, 0⟩ hi hp hfree htimer⟩

end ClusterRouter
