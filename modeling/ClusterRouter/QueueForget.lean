import ClusterRouter.QueueRetry
import Mathlib.Logic.Relation

/-!
# Forget

`Forget(k)` removes a pending `k` from the list and from `itemsInQueue`, marks an
in-flight `k` to be dropped, and otherwise only starts its span. From then on, as
long as no caller enqueues `k`, no step brings `k` back: the completion of its
in-flight item drops it whatever the handler returned and whatever re-dirty mark
it carries, and every other step touches only its own key, whose steps leave
`k`'s view alone.
-/

set_option autoImplicit false

namespace ClusterRouter

/-- The key an enqueue operation inserts. -/
def Action.enqueued : Action → Option String
  | .enqueue k | .enqueueWithoutRateLimit k | .enqueueWithoutRateLimitWithDelay k _ => some k
  | _ => none

/-- One step that `allowed` allows. -/
def System.Next (allowed : System → Action → Reading → Prop) (s s' : System) : Prop :=
  ∃ a r, allowed s a r ∧ s.step a r = .ok s'

/-- The view of a key after `Forget`: not pending, and an in-flight item is marked
to be dropped. -/
structure KeyView.Forgotten (v : KeyView) : Prop where
  not_pending : v.pending = none
  dropped : ∀ i, v.inFlight = some i → i.forget = true

namespace Queue

variable {q q' : Queue} {k : String} {qi : ℕ} {failed : Bool} {wall now : ℤ} {limit : Duration}

theorem forget_forgotten (hw : Wf q) : ((q.forget k).view k).Forgotten := by
  rcases @forget_cases q k with ⟨e, he, h⟩ | ⟨hn, b, hb, h⟩ | ⟨hn, hb, h⟩ <;> rw [h]
  · exact ⟨by simp [view], fun i hi => by simp [view, hw.not_mem_processing_of_pending he] at hi⟩
  · exact ⟨by simp [view, hn], fun i hi => by simp [view, hb] at hi; simp [← hi]⟩
  · exact ⟨by simp [view, hn], fun i hi => by simp [view, hb] at hi⟩

theorem forget_calls : ((q.forget k).view k).calls = (q.view k).calls := by
  simp [view, forget_spans]

theorem handleQueueItemObject_forgotten (hf : (q.heap qi).forget = true) :
    q.handleQueueItemObject qi failed wall now limit = .ok (q.deleteBeingProcessed (q.keyAt qi)) := by
  unfold handleQueueItemObject
  simp only [deleteBeingProcessed]
  rw [if_pos hf]; rfl

end Queue

variable {s s' : System} {a : Action} {r : Reading} {k : String}

theorem forgotten_transition (hw : Wf s.queue) (hp : Pool s) (hv : (s.queue.view k).Forgotten)
    (ha : a.enqueued ≠ some k) (h : s.transition r a = .ok s') :
    (s'.queue.view k).Forgotten ∧ (s'.queue.view k).calls = (s.queue.view k).calls := by
  rcases System.transition_cases h with rfl | ⟨key, _, _, q', b, hkey, hi, rfl⟩ | ⟨key, -, rfl⟩ |
    ⟨i, -, -, -, -, rfl⟩ | ⟨i, e, q', -, -, -, hg, rfl⟩ | ⟨i, head, -, -, -, -, rfl⟩ |
    ⟨i, head, -, -, -, -, rfl⟩ | ⟨i, t, -, -, -, -, rfl⟩ | ⟨i, qi, failed, q', -, -, hqi, hq, rfl⟩
  · exact ⟨hv, rfl⟩
  · -- an enqueue of another key
    have hk : k ≠ key := by
      rintro rfl
      rcases hkey with ⟨rfl, -⟩ | ⟨rfl, -⟩ | ⟨rfl, -⟩ <;> exact ha rfl
    show (q'.view k).Forgotten ∧ _
    rw [Queue.view_insert_ne hw hi hk]; exact ⟨hv, rfl⟩
  · show ((s.queue.forget key).view k).Forgotten ∧ _
    by_cases hk : k = key
    · subst hk; exact ⟨Queue.forget_forgotten hw, Queue.forget_calls⟩
    · rw [Queue.view_forget_ne hw hk]; exact ⟨hv, rfl⟩
  · exact ⟨hv, rfl⟩
  · -- the head is pending, so it is another key's
    obtain ⟨rest, hr, -, -⟩ := Queue.getNextItem_dispatched hg
    have hk : s.queue.keyAt e ≠ k := fun hk => by
      have hn := hv.not_pending
      rw [← hk] at hn
      simp [Queue.view, (hw.pending _ e).2 ⟨hr ▸ List.mem_cons_self e rest, rfl⟩] at hn
    rw [Queue.view_dispatch_ne hg hk]; exact ⟨hv, rfl⟩
  · exact ⟨hv, rfl⟩
  · exact ⟨hv, rfl⟩
  · exact ⟨hv, rfl⟩
  · have hpq := hp.handling i qi hqi
    show (q'.view k).Forgotten ∧ _
    by_cases hk : s.queue.keyAt qi = k
    · -- the forgotten item completes and is dropped
      subst hk
      have hf := hv.dropped (s.queue.heap qi) (by simp [Queue.view, hpq])
      rw [Queue.handleQueueItemObject_forgotten hf, Except.ok.injEq] at hq
      subst hq
      exact ⟨⟨hv.not_pending, fun i hi => by simp [Queue.view, Queue.deleteBeingProcessed] at hi⟩,
        rfl⟩
    · rw [Queue.view_handleQueueItemObject_ne hw hpq hq (Ne.symm hk)]; exact ⟨hv, rfl⟩

/-- The runs after `Forget(k)` in which no caller enqueues `k`. -/
def NoEnqueue (k : String) : System → System → Prop :=
  System.Next fun _ a _ => a.enqueued ≠ some k

theorem forgotten_run (h : Reachable s) (hv : (s.queue.view k).Forgotten)
    (hr : Relation.ReflTransGen (NoEnqueue k) s s') :
    Reachable s' ∧ (s'.queue.view k).Forgotten ∧ (s'.queue.view k).calls = (s.queue.view k).calls := by
  induction hr with
  | refl => exact ⟨h, hv, rfl⟩
  | tail _ hst ih =>
    obtain ⟨a, r, ha, hs⟩ := hst
    obtain ⟨hr₁, hv₁, hc₁⟩ := ih
    obtain ⟨s₂, h₂, rfl⟩ := System.step_eq_ok.1 hs
    obtain ⟨hv₂, hc₂⟩ := forgotten_transition hr₁.wf hr₁.pool hv₁ ha h₂
    exact ⟨.step a r hr₁ trivial hs, hv₂, hc₂.trans hc₁⟩

/-- For every reachable state, every reading and every key `k`: `Forget(k)` succeeds;
if `k` was pending at `e`, it removes `e` from the list and `k` from
`itemsInQueue` and changes no item and no in-flight entry; and in every run that
follows in which no caller enqueues `k`, `k` is never in the list again, is never
handed out (no `handleQueueItem` span of `k` is started), and the completion of an
in-flight item of `k` succeeds and leaves `k` neither pending nor in flight,
whatever the handler returned and whatever re-dirty mark the item carries. -/
theorem forget_stops_key (h : Reachable s) (k : String) (r : Reading) :
    ∃ s₁, s.step (.forget k) r = .ok s₁ ∧
      (∀ e, s.queue.itemsInQueue.lookup k = some e →
        s₁.queue.items = s.queue.items.erase e ∧
        s₁.queue.itemsInQueue = s.queue.itemsInQueue.erase k ∧
        s₁.queue.heap = s.queue.heap ∧
        s₁.queue.itemsBeingProcessed = s.queue.itemsBeingProcessed) ∧
      ∀ s', Relation.ReflTransGen (NoEnqueue k) s₁ s' →
        (∀ a ∈ s'.queue.items, s'.queue.keyAt a ≠ k) ∧
        s'.queue.spans.count (.handleQueueItem k) = s.queue.spans.count (.handleQueueItem k) ∧
        ∀ i qi failed r', s'.phase i = .handling qi → s'.queue.keyAt qi = k →
          ∃ s'', s'.step (.complete i failed) r' = .ok s'' ∧
            k ∉ s''.queue.itemsInQueue ∧ k ∉ s''.queue.itemsBeingProcessed := by
  have hw := h.wf
  refine ⟨{ s with queue := s.queue.forget k, clock := r.now }, rfl, fun e he => ?_,
    fun s' hr => ?_⟩
  · rcases @Queue.forget_cases s.queue k with ⟨e', he', hf⟩ | ⟨hn, -⟩ | ⟨hn, -⟩
    · rw [he, Option.some_inj] at he'
      subst he'
      rw [hf]; exact ⟨rfl, rfl, rfl, rfl⟩
    all_goals simp [he] at hn
  have h₁ : Reachable { s with queue := s.queue.forget k, clock := r.now } :=
    .step (.forget k) r h trivial rfl
  obtain ⟨hr', hv, hc⟩ := forgotten_run h₁ (Queue.forget_forgotten hw) hr
  have hw' := hr'.wf
  refine ⟨fun a ha hka => ?_, ?_, fun i qi failed r' hi hkq => ?_⟩
  · -- a pending item of `k` would make `k` pending
    have hn := hv.not_pending
    simp [Queue.view, (hw'.pending k a).2 ⟨ha, hka⟩] at hn
  · exact hc.trans Queue.forget_calls
  · -- the item of `k` in flight is marked to be dropped
    subst hkq
    have hpq := hr'.pool.handling i qi hi
    have hf := hv.dropped (s'.queue.heap qi) (by simp [Queue.view, hpq])
    refine ⟨_, by simp only [System.step, System.transition, hi, if_pos (hr'.pool.lt_workers hi),
      Queue.handleQueueItemObject_forgotten hf]; rfl, ?_, ?_⟩
    · have hn : s'.queue.itemsInQueue.lookup (s'.queue.keyAt qi) = none := by
        simpa [Queue.view] using hv.not_pending
      exact AList.lookup_eq_none.1 hn
    · simp [Queue.deleteBeingProcessed]

theorem forget_stops_key_busy :
    ∃ s, Reachable s ∧ Busy 0 s ∧ ∃ s₁, s.step (.forget "b") ⟨7, 7, 0⟩ = .ok s₁ ∧
      (∀ e, s.queue.itemsInQueue.lookup "b" = some e →
        s₁.queue.items = s.queue.items.erase e ∧
        s₁.queue.itemsInQueue = s.queue.itemsInQueue.erase "b" ∧
        s₁.queue.heap = s.queue.heap ∧
        s₁.queue.itemsBeingProcessed = s.queue.itemsBeingProcessed) ∧
      ∀ s', Relation.ReflTransGen (NoEnqueue "b") s₁ s' →
        (∀ a ∈ s'.queue.items, s'.queue.keyAt a ≠ "b") ∧
        s'.queue.spans.count (.handleQueueItem "b") = s.queue.spans.count (.handleQueueItem "b") ∧
        ∀ i qi failed r', s'.phase i = .handling qi → s'.queue.keyAt qi = "b" →
          ∃ s'', s'.step (.complete i failed) r' = .ok s'' ∧
            "b" ∉ s''.queue.itemsInQueue ∧ "b" ∉ s''.queue.itemsBeingProcessed :=
  let ⟨s, hs, hb⟩ := reach_busy
  ⟨s, hs.reachable, hb, forget_stops_key hs.reachable "b" ⟨7, 7, 0⟩⟩

/-! ## A forgotten enqueue is not forgotten by a later one -/

/-- The pending list: each item's key and planned time, in the list's order. -/
def System.pending (s : System) : List (String × ℤ) :=
  s.queue.items.map fun a => (s.queue.keyAt a, s.queue.plannedAt a)

/-- Key "a" is enqueued at 10 and handed to worker 0. -/
def inFlightRun : List (Action × Reading) :=
  [(.enqueueWithoutRateLimit "a", ⟨10, 10, 0⟩), (.acquire 0, ⟨10, 10, 0⟩), (.poll 0, ⟨10, 10, 0⟩)]

/-- After `Forget("a")`: "a" is enqueued 20 ns ahead, its handler succeeds, and worker 0
polls again, all at 10. -/
def afterForget : List (Action × Reading) :=
  [(.enqueueWithoutRateLimitWithDelay "a" (Duration.ofInt 20), ⟨10, 10, 0⟩),
   (.complete 0 false, ⟨10, 10, 0⟩), (.acquire 0, ⟨10, 10, 0⟩), (.poll 0, ⟨10, 10, 0⟩)]

/-- With "a" in flight, an enqueue of "a" at 10 followed by `Forget("a")` and the
same continuation re-inserts "a" at 10, from the forgotten mark, and hands it out
at once; `Forget("a")` alone re-inserts it at 30 and the worker sleeps until then. -/
theorem forgotten_enqueue_leaves_trace :
    ∃ s, Reach OnClock s ∧ s.queue.itemsBeingProcessed.lookup "a" = some 0 ∧
      (s.execute ((.enqueueWithoutRateLimit "a", ⟨10, 10, 0⟩) :: (.forget "a", ⟨10, 10, 0⟩) ::
          afterForget)).toOption.map (fun s => (s.phase 0, s.pending)) =
        some (.handling 1, []) ∧
      (s.execute ((.forget "a", ⟨10, 10, 0⟩) :: afterForget)).toOption.map
          (fun s => (s.phase 0, s.pending)) = some (.sleeping (some 30), [("a", 30)]) :=
  reach_of_execute (Reach.start Nat.one_pos : Reach OnClock ((Queue.new "q").start 1 10))
    (by decide : onClockFrom 10 inFlightRun = true) (by decide)

end ClusterRouter
