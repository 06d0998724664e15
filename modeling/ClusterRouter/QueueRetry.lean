import ClusterRouter.QueueRedirty

/-!
# Retries of a failing key

`requeues` counts the requeues of a key since its handler last succeeded: `insert`
creates items with none, a merge keeps the pending item's count, and only the
requeue of a failure raises it, by one and only below `MaxRetries`. Each dispatch
starts a `handleQueueItem` span, so the spans count the handler calls. In a run
where every handler call for a key fails, the key is never forgotten, and callers
enqueue it again only while it is pending, the handler is called for it
`MaxRetries` times and the key is then dropped.

Steps on other keys leave a key's `view` alone; the invariant is stated on views.
-/

set_option autoImplicit false

namespace ClusterRouter

/-- Every item, pending, in flight or completed, has used between none and
`MaxRetries - 1` requeues. -/
def RequeuesInRange (q : Queue) : Prop :=
  ∀ a, 0 ≤ (q.heap a).requeues ∧ (q.heap a).requeues ≤ MaxRetries - 1

/-- The key a span is about. -/
def Span.key : Span → String
  | .insert k | .forget k | .handleQueueItem k => k

/-- What the queue holds for one key: its pending item, its in-flight item, how
often `getNextItem` handed the key out, and whether it was ever inserted. -/
structure KeyView where
  pending : Option QueueItem
  inFlight : Option QueueItem
  calls : ℕ
  inserted : Bool

/-- The view of key `k`. -/
def Queue.view (q : Queue) (k : String) : KeyView where
  pending := (q.itemsInQueue.lookup k).map q.heap
  inFlight := (q.itemsBeingProcessed.lookup k).map q.heap
  calls := q.spans.count (.handleQueueItem k)
  inserted := decide (Span.insert k ∈ q.spans)

/-- The view of a key whose handler calls all failed: its item carries one requeue
per earlier call and no mark, and once the key is neither pending nor in flight it
was never inserted or has had all its calls. -/
structure KeyView.Retrying (v : KeyView) : Prop where
  pending : ∀ i, v.pending = some i → i.requeues = v.calls ∧ i.Fresh
  inFlight : ∀ i, v.inFlight = some i → i.requeues + 1 = v.calls ∧ i.Fresh
  idle : v.pending = none → v.inFlight = none →
    v.calls = 0 ∧ v.inserted = false ∨ (v.calls : ℤ) = MaxRetries ∧ v.inserted = true
  seen : v.pending ≠ none ∨ v.inFlight ≠ none → v.inserted = true

namespace KeyView

variable {i : QueueItem} {c : ℕ}

theorem retrying_pending (hi : i.requeues = c ∧ i.Fresh) : Retrying ⟨some i, none, c, true⟩ :=
  ⟨fun _ h => Option.some_inj.1 h ▸ hi, fun _ h => (nomatch h), fun h => (nomatch h), fun _ => rfl⟩

theorem retrying_inFlight (hi : i.requeues + 1 = c ∧ i.Fresh) :
    Retrying ⟨none, some i, c, true⟩ :=
  ⟨fun _ h => (nomatch h), fun _ h => Option.some_inj.1 h ▸ hi, fun _ h => (nomatch h),
    fun _ => rfl⟩

theorem retrying_dropped (hc : (c : ℤ) = MaxRetries) : Retrying ⟨none, none, c, true⟩ :=
  ⟨fun _ h => (nomatch h), fun _ h => (nomatch h), fun _ _ => .inr ⟨hc, rfl⟩, fun _ => rfl⟩

theorem retrying_unseen : Retrying ⟨none, none, 0, false⟩ :=
  ⟨fun _ h => (nomatch h), fun _ h => (nomatch h), fun _ _ => .inl ⟨rfl, rfl⟩,
    fun h => by simp at h⟩

theorem Retrying.calls_le {v : KeyView} (hv : v.Retrying)
    (hr : ∀ i, v.pending = some i ∨ v.inFlight = some i → i.requeues ≤ MaxRetries - 1) :
    (v.calls : ℤ) ≤ MaxRetries := by
  rcases hp : v.pending with _ | i
  · rcases hf : v.inFlight with _ | i
    · rcases hv.idle hp hf with ⟨hc, -⟩ | ⟨hc, -⟩
      · rw [hc]; decide
      · exact hc.le
    · have := hv.inFlight i hf
      have := hr i (.inr hf)
      omega
  · have := hv.pending i hp
    have := hr i (.inl hp)
    omega

end KeyView

namespace Wf

variable {q : Queue} {k : String} {b : ℕ}

theorem entry (hw : Wf q)
    (hb : q.itemsInQueue.lookup k = some b ∨ q.itemsBeingProcessed.lookup k = some b) :
    q.keyAt b = k ∧ b < q.next := by
  rcases hb with hb | hb
  · obtain ⟨hm, hk⟩ := (hw.pending k b).1 hb
    exact ⟨hk, hw.fresh_items b hm⟩
  · exact ⟨hw.processing k b hb, hw.fresh_processing k b hb⟩

end Wf

namespace Queue

variable {q q' : Queue} {key k : String} {ratelimit : Bool} {delay limit : Duration}
  {wall now : ℤ} {a qi : ℕ} {failed : Bool}

theorem insert_requeues (h : q.insert key ratelimit delay now limit = .ok (q', a)) (b : ℕ) :
    (q'.heap b).requeues = (q.heap b).requeues ∨ (q'.heap b).requeues = 0 := by
  rcases insert_cases h with ⟨-, rfl⟩ | ⟨-, -, rfl⟩ | ⟨-, -, -, -, rfl⟩
  · by_cases hb : b = a <;> simp [hb]
  · exact .inl (by rw [adjustPosition_heap]; rfl)
  · by_cases hb : b = q.next <;> simp [hb]

theorem insert_lookup_ne (h : q.insert key ratelimit delay now limit = .ok (q', a)) (hk : k ≠ key) :
    q'.itemsInQueue.lookup k = q.itemsInQueue.lookup k := by
  rcases insert_cases h with ⟨-, rfl⟩ | ⟨-, -, rfl⟩ | ⟨-, -, -, -, rfl⟩
  · rfl
  · simp
  · simp [AList.lookup_insert_ne hk]

theorem view_congr (hi : q'.itemsInQueue.lookup k = q.itemsInQueue.lookup k)
    (hp : q'.itemsBeingProcessed.lookup k = q.itemsBeingProcessed.lookup k)
    (hh : ∀ b, q.itemsInQueue.lookup k = some b ∨ q.itemsBeingProcessed.lookup k = some b →
      q'.heap b = q.heap b)
    (hs : q'.spans = q.spans ∨ ∃ sp : Span, sp.key ≠ k ∧ q'.spans = sp :: q.spans) :
    q'.view k = q.view k := by
  have hc : q'.spans.count (.handleQueueItem k) = q.spans.count (.handleQueueItem k) ∧
      (Span.insert k ∈ q'.spans ↔ Span.insert k ∈ q.spans) := by
    rcases hs with hs | ⟨sp, hsk, hs⟩ <;> rw [hs]
    · exact ⟨rfl, Iff.rfl⟩
    · refine ⟨List.count_cons_of_ne (fun h => hsk (by rw [← h]; rfl)) _, ?_⟩
      rw [List.mem_cons, or_iff_right fun h => hsk (by rw [← h]; rfl)]
  have hmap : ∀ o : Option ℕ, (∀ b, o = some b → q'.heap b = q.heap b) →
      o.map q'.heap = o.map q.heap := by
    rintro (_ | b) hb
    · rfl
    · simp [hb b rfl]
  simp only [view, hi, hp, hc.1, hc.2, hmap _ fun b h => hh b (.inl h),
    hmap _ fun b h => hh b (.inr h)]

theorem view_insert_ne (hw : Wf q) (h : q.insert key ratelimit delay now limit = .ok (q', a))
    (hk : k ≠ key) : q'.view k = q.view k := by
  obtain ⟨hp, -, -, hs, -, -⟩ := insert_frame h
  refine view_congr (insert_lookup_ne h hk) (by rw [hp]) (fun b hb => ?_)
    (.inr ⟨.insert key, Ne.symm hk, hs⟩)
  obtain ⟨hkb, hlt⟩ := hw.entry hb
  exact hw.insert_heap_eq h (hkb ▸ hk) hlt

theorem view_forget_ne (hw : Wf q) (hk : k ≠ key) : (q.forget key).view k = q.view k := by
  refine view_congr ?_ (by rw [forget_frame.1]) (fun b hb => ?_)
    (.inr ⟨.forget key, Ne.symm hk, forget_spans⟩)
  · rcases @forget_cases q key with ⟨e, -, h⟩ | ⟨-, c, -, h⟩ | ⟨-, -, h⟩ <;> rw [h]
    · exact AList.lookup_erase_ne hk
    · rfl
    · rfl
  · exact hw.forget_heap_eq ((hw.entry hb).1 ▸ hk)

theorem view_handleQueueItemObject_ne (hw : Wf q)
    (hp : q.itemsBeingProcessed.lookup (q.keyAt qi) = some qi)
    (h : q.handleQueueItemObject qi failed wall now limit = .ok q') (hk : k ≠ q.keyAt qi) :
    q'.view k = q.view k := by
  have hq := hw.pending_none_of_processing hp
  refine view_congr ?_ (by rw [(handleQueueItemObject_frame h).1, AList.lookup_erase_ne hk])
    (fun b hb => handleQueueItemObject_heap_lt hq h (hw.entry hb).2) ?_
  · rcases handleQueueItemObject_cases h with ⟨-, rfl⟩ | ⟨-, -, -, q₁, a, hi, rfl⟩ |
      ⟨-, -, -, q₁, a, hi, rfl⟩ | ⟨-, -, -, rfl⟩
    · rfl
    · have := insert_lookup_ne hi hk; exact this
    · have := insert_lookup_ne hi hk; exact this
    · rfl
  · rcases handleQueueItemObject_spans (hw.fresh_processing _ qi hp).ne hq h with ⟨hs, -⟩ | ⟨hs, -⟩
    · exact .inl hs
    · exact .inr ⟨.insert (q.keyAt qi), Ne.symm hk, hs⟩

theorem view_dispatch_ne {e : ℕ} (hg : q.getNextItem wall = (q', .dispatched e))
    (hk : q.keyAt e ≠ k) :
    ({ q' with waitForNextItemSemaphore := false }.span (.handleQueueItem (q'.heap e).key)).view k =
      q.view k := by
  obtain ⟨rest, -, -, rfl⟩ := getNextItem_dispatched hg
  exact view_congr (AList.lookup_erase_ne (Ne.symm hk)) (AList.lookup_insert_ne (Ne.symm hk))
    (fun _ _ => rfl) (.inr ⟨.handleQueueItem (q.keyAt e), hk, rfl⟩)

theorem view_pending {b : ℕ} (hi : q'.itemsInQueue.lookup k = some b)
    (hp : q'.itemsBeingProcessed.lookup k = none) (hs : q'.spans = .insert k :: q.spans) :
    q'.view k = ⟨some (q'.heap b), none, (q.view k).calls, true⟩ := by
  simp [view, hi, hp, hs]

theorem retrying_insert (hw : Wf q) (hv : (q.view k).Retrying)
    (hnew : Span.insert k ∈ q.spans → k ∈ q.itemsInQueue)
    (h : q.insert k ratelimit delay now limit = .ok (q', a)) : (q'.view k).Retrying := by
  have hs := (insert_frame h).2.2.2.1
  rcases insert_cases h with ⟨hb, -⟩ | ⟨hb, he, rfl⟩ | ⟨hb, he, -, rfl, rfl⟩
  · -- in flight, so inserted, so pending: impossible
    have hins := hv.seen (.inr (by simp [view, hb]))
    simp only [view, decide_eq_true_eq] at hins
    exact absurd (AList.lookup_isSome.1 (by simp [hb])) (hw.disjoint k (hnew hins))
  · rw [view_pending (by simpa using he) (by simpa using hb) hs]
    refine KeyView.retrying_pending ?_
    rw [adjustPosition_heap]
    exact hv.pending (q.heap a) (by simp [view, he])
  · have hins : Span.insert k ∉ q.spans := fun hin => by
      simpa [he] using AList.lookup_isSome.2 (hnew hin)
    have hc : (q.view k).calls = 0 := by
      rcases hv.idle (by simp [view, he]) (by simp [view, hb]) with ⟨hc, -⟩ | ⟨-, hc⟩
      · exact hc
      · simp [view, hins] at hc
    rw [view_pending (b := q.next) (by simp) (by simpa using hb) hs, hc]
    exact KeyView.retrying_pending ⟨by simp, by simpa using newItem_fresh k delay now limit⟩

theorem retrying_dispatch (hw : Wf q) (hv : (q.view k).Retrying) {e : ℕ}
    (hg : q.getNextItem wall = (q', .dispatched e)) (hk : q.keyAt e = k) :
    (({ q' with waitForNextItemSemaphore := false }.span
      (.handleQueueItem (q'.heap e).key)).view k).Retrying := by
  obtain ⟨rest, hi, -, rfl⟩ := getNextItem_dispatched hg
  subst hk
  have hpe : q.itemsInQueue.lookup (q.keyAt e) = some e :=
    (hw.pending _ e).2 ⟨hi ▸ List.mem_cons_self e rest, rfl⟩
  obtain ⟨hr, hf⟩ := hv.pending (q.heap e) (by simp [view, hpe])
  have hins := hv.seen (.inl (by simp [view, hpe]))
  simp only [view, decide_eq_true_eq, keyAt] at hins hr
  convert KeyView.retrying_inFlight (i := q.heap e)
    (c := q.spans.count (.handleQueueItem (q.keyAt e)) + 1) ⟨by rw [hr]; push_cast; rfl, hf⟩ using 1
  simp [view, hins, keyAt]

theorem retrying_complete (hw : Wf q) (hb : RequeuesInRange q)
    (hv : (q.view (q.keyAt qi)).Retrying) (hp : q.itemsBeingProcessed.lookup (q.keyAt qi) = some qi)
    (h : q.handleQueueItemObject qi true wall now limit = .ok q') :
    (q'.view (q.keyAt qi)).Retrying ∧
    (((q.view (q.keyAt qi)).calls : ℤ) < MaxRetries → q.keyAt qi ∈ q'.itemsInQueue) ∧
    (((q.view (q.keyAt qi)).calls : ℤ) = MaxRetries →
      q.keyAt qi ∉ q'.itemsInQueue ∧ q.keyAt qi ∉ q'.itemsBeingProcessed) := by
  have hq := hw.pending_none_of_processing hp
  have hqi : qi ≠ q.next := (hw.fresh_processing _ qi hp).ne
  obtain ⟨hr, hz, -, hf⟩ := hv.inFlight (q.heap qi) (by simp [view, hp])
  have hins := hv.seen (.inr (by simp [view, hp]))
  have hpi : q'.itemsBeingProcessed.lookup (q.keyAt qi) = none := by
    rw [(handleQueueItemObject_frame h).1]; exact AList.lookup_erase _ _
  rcases handleQueueItemObject_cases h with ⟨hf', -⟩ | ⟨-, -, hrq, q₁, a, hi, rfl⟩ |
    ⟨-, -, hz', -⟩ | ⟨-, hc, -, rfl⟩
  · simp [hf] at hf'
  · -- a call remains: the requeue pushes a fresh item with one more requeue
    obtain ⟨hl, hrq', -, hfr⟩ := handleQueueItemObject_reinsert hqi hq h ⟨hf, .inl ⟨rfl, hrq⟩⟩
    rw [if_pos ⟨rfl, hrq⟩] at hrq'
    refine ⟨?_, fun _ => AList.lookup_isSome.1 (by rw [hl]; rfl), fun hc => ?_⟩
    · rw [view_pending hl hpi (insert_frame hi).2.2.2.1]
      exact KeyView.retrying_pending ⟨by rw [hrq', hr]; rfl, hfr⟩
    · omega
  · exact absurd hz hz'
  · -- the last call: dropped
    have hc' : ((q.view (q.keyAt qi)).calls : ℤ) = MaxRetries := by
      have := hb qi
      simp only [true_and, not_lt] at hc
      omega
    have hview : ((q.deleteBeingProcessed ((q.heap qi).key)).view (q.keyAt qi)) =
        ⟨none, none, (q.view (q.keyAt qi)).calls, true⟩ := by
      simp only [view, decide_eq_true_eq, keyAt] at hins hq ⊢
      simp [hq, hins, deleteBeingProcessed]
    refine ⟨hview ▸ KeyView.retrying_dropped hc', fun hlt => absurd hc' hlt.ne, fun _ => ?_⟩
    exact ⟨AList.lookup_eq_none.1 hq, AList.lookup_eq_none.1 hpi⟩

end Queue

namespace RequeuesInRange

variable {q q' : Queue} {key : String} {ratelimit : Bool} {delay limit : Duration}
  {wall now : ℤ} {a qi : ℕ} {failed : Bool}

theorem insert (h : q.insert key ratelimit delay now limit = .ok (q', a)) (hb : RequeuesInRange q) :
    RequeuesInRange q' := fun b => by
  rcases Queue.insert_requeues h b with he | he <;> rw [he]
  · exact hb b
  · exact ⟨le_rfl, by decide⟩

theorem forget (hb : RequeuesInRange q) (key : String) : RequeuesInRange (q.forget key) :=
  fun b => by rw [Queue.forget_heap]; exact hb b

theorem modify (hb : RequeuesInRange q) {f : QueueItem → QueueItem}
    (hf : 0 ≤ (f (q.heap a)).requeues ∧ (f (q.heap a)).requeues ≤ MaxRetries - 1) :
    RequeuesInRange (q.modify a f) :=
  Queue.heap_modify_of (P := fun i => 0 ≤ i.requeues ∧ i.requeues ≤ MaxRetries - 1) hb hf

theorem handleQueueItemObject (h : q.handleQueueItemObject qi failed wall now limit = .ok q')
    (hb : RequeuesInRange q) : RequeuesInRange q' := by
  rcases Queue.handleQueueItemObject_cases h with ⟨-, rfl⟩ | ⟨-, -, hrq, q₁, a, hi, rfl⟩ |
    ⟨-, -, -, q₁, a, hi, rfl⟩ | ⟨-, -, -, rfl⟩
  · exact hb
  · refine (insert hi hb).modify ?_
    show 0 ≤ (q₁.heap qi).requeues + 1 ∧ (q₁.heap qi).requeues + 1 ≤ MaxRetries - 1
    have := hb qi
    rcases Queue.insert_requeues hi qi with he | he <;> rw [he]
    · show 0 ≤ (q.heap qi).requeues + 1 ∧ (q.heap qi).requeues + 1 ≤ MaxRetries - 1
      omega
    · unfold MaxRetries; omega
  · exact (insert hi hb).modify (insert hi hb a)
  · exact hb

end RequeuesInRange

variable {s s' : System} {a : Action} {r : Reading}

theorem requeuesInRange_transition (hb : RequeuesInRange s.queue) (h : s.transition r a = .ok s') :
    RequeuesInRange s'.queue := by
  rcases System.transition_cases h with rfl | ⟨_, _, _, q', b, -, hi, rfl⟩ | ⟨key, -, rfl⟩ |
    ⟨i, -, -, -, -, rfl⟩ | ⟨i, e, q', -, -, -, hg, rfl⟩ | ⟨i, head, -, -, -, -, rfl⟩ |
    ⟨i, head, -, -, -, -, rfl⟩ | ⟨i, t, -, -, -, -, rfl⟩ | ⟨i, qi, failed, q', -, -, -, hq, rfl⟩
  · exact hb
  · exact RequeuesInRange.insert hi hb
  · exact hb.forget key
  · exact hb
  · obtain ⟨-, -, -, rfl⟩ := Queue.getNextItem_dispatched hg; exact hb
  · exact hb
  · exact hb
  · exact hb
  · exact RequeuesInRange.handleQueueItemObject hq hb

theorem Reachable.requeuesInRange (h : Reachable s) : RequeuesInRange s.queue := by
  induction h with
  | run h => intro b; simp [(run_new h).1, Queue.new, MaxRetries]
  | step a r _ _ hs ih =>
    obtain ⟨s₁, h₁, rfl⟩ := System.step_eq_ok.1 hs
    exact (requeuesInRange_transition ih h₁ : RequeuesInRange s₁.queue)

/-- The steps of a run in which every handler call for `k` fails, `Forget(k)` is
never called, and callers enqueue `k` again only while it is pending. -/
def Failing (k : String) (s : System) (a : Action) (_ : Reading) : Prop :=
  (∀ i failed qi, a = .complete i failed → s.phase i = .handling qi → s.queue.keyAt qi = k →
    failed = true) ∧
  a ≠ .forget k ∧
  (∀ delay, a = .enqueue k ∨ a = .enqueueWithoutRateLimit k ∨
      a = .enqueueWithoutRateLimitWithDelay k delay →
    Span.insert k ∈ s.queue.spans → k ∈ s.queue.itemsInQueue)

theorem retrying_transition {k : String} (hw : Wf s.queue) (hp : Pool s)
    (hb : RequeuesInRange s.queue) (hv : (s.queue.view k).Retrying) (hf : Failing k s a r)
    (h : s.transition r a = .ok s') : (s'.queue.view k).Retrying := by
  rcases System.transition_cases h with rfl | ⟨key, rl, d, q', b, ha, hi, rfl⟩ | ⟨key, ha, rfl⟩ |
    ⟨i, -, -, -, -, rfl⟩ | ⟨i, e, q', -, -, -, hg, rfl⟩ | ⟨i, head, -, -, -, -, rfl⟩ |
    ⟨i, head, -, -, -, -, rfl⟩ | ⟨i, t, -, -, -, -, rfl⟩ | ⟨i, qi, failed, q', ha, -, hqi, hq, rfl⟩
  · exact hv
  · by_cases hk : k = key
    · subst hk
      refine Queue.retrying_insert hw hv (hf.2.2 d ?_) hi
      rcases ha with ⟨ha, -⟩ | ⟨ha, -⟩ | ⟨ha, -⟩
      exacts [.inl ha, .inr (.inl ha), .inr (.inr ha)]
    · show ((q').view k).Retrying
      rw [Queue.view_insert_ne hw hi hk]; exact hv
  · have hk : k ≠ key := fun h => hf.2.1 (by rw [ha, h])
    show ((s.queue.forget key).view k).Retrying
    rw [Queue.view_forget_ne hw hk]; exact hv
  · exact hv
  · by_cases hk : s.queue.keyAt e = k
    · exact Queue.retrying_dispatch hw hv hg hk
    · exact (Queue.view_dispatch_ne hg hk).symm ▸ hv
  · exact hv
  · exact hv
  · exact hv
  · have hpq := hp.handling i qi hqi
    by_cases hk : s.queue.keyAt qi = k
    · subst hk
      obtain rfl := hf.1 i failed qi ha hqi rfl
      exact (Queue.retrying_complete hw hb hv hpq hq).1
    · show (q'.view k).Retrying
      rw [Queue.view_handleQueueItemObject_ne hw hpq hq (Ne.symm hk)]; exact hv

theorem Reach.retrying {k : String} (h : Reach (Failing k) s) : (s.queue.view k).Retrying := by
  induction h with
  | run h =>
    rw [(run_new h).1]
    convert KeyView.retrying_unseen using 1
  | step a r hs hf hst ih =>
    obtain ⟨s₁, h₁, rfl⟩ := System.step_eq_ok.1 hst
    have hrs := hs.reachable
    exact (retrying_transition hrs.wf hrs.pool hrs.requeuesInRange ih hf h₁ :
      (s₁.queue.view k).Retrying)

/-- In every reachable state every item has used between none and `MaxRetries - 1`
requeues. In a run where every handler call for `k` fails, `k` is never forgotten,
and callers enqueue `k` again only while it is pending, the handler has been
called for `k` at most `MaxRetries` times, and a failing completion of `k` leaves
it pending while calls remain, and neither pending nor in flight after the last. -/
theorem failing_key_retries (h : Reachable s) :
    (∀ a, 0 ≤ (s.queue.heap a).requeues ∧ (s.queue.heap a).requeues ≤ MaxRetries - 1) ∧
    ∀ k, Reach (Failing k) s →
      (s.queue.spans.count (.handleQueueItem k) : ℤ) ≤ MaxRetries ∧
      ∀ i qi failed r, s.phase i = .handling qi → s.queue.keyAt qi = k →
        Failing k s (.complete i failed) r → ∃ s', s.step (.complete i failed) r = .ok s' ∧
          ((s.queue.spans.count (.handleQueueItem k) : ℤ) < MaxRetries →
            k ∈ s'.queue.itemsInQueue) ∧
          ((s.queue.spans.count (.handleQueueItem k) : ℤ) = MaxRetries →
            k ∉ s'.queue.itemsInQueue ∧ k ∉ s'.queue.itemsBeingProcessed) := by
  have hb := h.requeuesInRange
  refine ⟨hb, fun k hk => ⟨?_, fun i qi failed r hi hkq hf => ?_⟩⟩
  · refine hk.retrying.calls_le fun i hi => ?_
    simp only [Queue.view, Option.map_eq_some'] at hi
    rcases hi with ⟨b, -, rfl⟩ | ⟨b, -, rfl⟩
    exacts [(hb b).2, (hb b).2]
  · subst hkq
    obtain rfl := hf.1 i failed qi rfl hi rfl
    have hpq := h.pool.handling i qi hi
    have hv := hk.retrying
    obtain ⟨-, -, hfr, -⟩ := hv.inFlight (s.queue.heap qi) (by simp [Queue.view, hpq])
    obtain ⟨q', hq', hst, -, -⟩ := complete_step h hi (r := r) fun hrl => by simp [hfr] at hrl
    exact ⟨_, hst, (Queue.retrying_complete h.wf hb hv hpq hq').2⟩

theorem failing_key_retries_busy :
    ∃ s, Reachable s ∧ Busy 0 s ∧
    (∀ a, 0 ≤ (s.queue.heap a).requeues ∧ (s.queue.heap a).requeues ≤ MaxRetries - 1) ∧
    ∀ k, Reach (Failing k) s →
      (s.queue.spans.count (.handleQueueItem k) : ℤ) ≤ MaxRetries ∧
      ∀ i qi failed r, s.phase i = .handling qi → s.queue.keyAt qi = k →
        Failing k s (.complete i failed) r → ∃ s', s.step (.complete i failed) r = .ok s' ∧
          ((s.queue.spans.count (.handleQueueItem k) : ℤ) < MaxRetries →
            k ∈ s'.queue.itemsInQueue) ∧
          ((s.queue.spans.count (.handleQueueItem k) : ℤ) = MaxRetries →
            k ∉ s'.queue.itemsInQueue ∧ k ∉ s'.queue.itemsBeingProcessed) :=
  let ⟨s, hs, hb⟩ := reach_busy
  ⟨s, hs.reachable, hb, failing_key_retries hs.reachable⟩

end ClusterRouter
