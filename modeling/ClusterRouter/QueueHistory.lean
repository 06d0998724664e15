import ClusterRouter.QueueRedirty

/-!
# No lost enqueue

The spans that `insert`, `Forget` and each dispatch start record, latest first,
which of them last touched a key. A key inserted since its latest dispatch and its
latest `Forget` is pending, or in flight with a re-dirty mark, which its completion
turns into a pending item whatever the handler returned. This rests on the clock:
on the real clock `New` installs, read after the Unix epoch, no time `now + delay`
is Go's zero `Time`, which `IsZero` takes for "no mark".
-/

set_option autoImplicit false

namespace ClusterRouter

/-- Whether, reading the spans from the latest, an `insert` of `key` comes before
its latest dispatch and its latest `Forget`. -/
def insertedSince (key : String) : List Span → Bool
  | [] => false
  | .insert k :: rest => k == key || insertedSince key rest
  | .forget k :: rest => k != key && insertedSince key rest
  | .handleQueueItem k :: rest => k != key && insertedSince key rest

/-- The Unix epoch, in nanoseconds after Go's zero `Time`. -/
def unixEpoch : ℤ := 62135596800000000000

/-- A step on the real clock `New` installs: one non-decreasing clock, read after
the Unix epoch. -/
def RealClock (s : System) (a : Action) (r : Reading) : Prop := unixEpoch ≤ r.wall ∧ OnClock s a r

/-- Every key inserted since its latest dispatch and its latest `Forget` is pending,
or in flight, not to be forgotten, and marked to be re-inserted. -/
def NoLostInsert (q : Queue) : Prop :=
  ∀ k, insertedSince k q.spans = true → k ∈ q.itemsInQueue ∨
    ∃ a, q.itemsBeingProcessed.lookup k = some a ∧ (q.heap a).forget = false ∧
      (q.heap a).redirtiedAt ≠ 0

namespace NoLostInsert

variable {q q' : Queue} {key : String} {ratelimit : Bool} {delay limit : Duration} {now : ℤ} {a : ℕ}

theorem insert (hw : Wf q) (hn : NoLostInsert q) (hnow : unixEpoch ≤ now)
    (h : q.insert key ratelimit delay now limit = .ok (q', a)) : NoLostInsert q' := by
  obtain ⟨hpi, -, -, hsp, -, -⟩ := Queue.insert_frame h
  intro k hk
  rw [hsp] at hk
  by_cases hkk : k = key
  · subst hkk
    rcases Queue.insert_cases h with ⟨hb, rfl⟩ | ⟨-, he, rfl⟩ | ⟨-, -, -, -, rfl⟩
    · refine .inr ⟨a, hb, by simp, ?_⟩
      simp only [Queue.modify_heap, Queue.wakeup_heap, Queue.span_heap, if_true]
      rcases @redirty_marks (now + delay.ns) ratelimit (q.heap a) with ⟨ht, -⟩ | ⟨hz, -, ht, -⟩ <;>
        rw [ht]
      · have := delay.min_le; unfold unixEpoch at hnow; omega
      · exact hz
    · exact .inl (AList.lookup_isSome.1 (by simp [he]))
    · exact .inl (by simp [AList.mem_insert])
  · simp only [insertedSince, Bool.or_eq_true, beq_iff_eq] at hk
    rcases hn k (hk.resolve_left (Ne.symm hkk)) with hm | ⟨b, hb, hf, hz⟩
    · exact .inl (Queue.insert_mem h hm)
    · refine .inr ⟨b, by rw [hpi]; exact hb, ?_⟩
      rw [hw.insert_heap_eq h (fun h => hkk ((hw.processing k b hb).symm.trans h))
        (hw.fresh_processing k b hb)]
      exact ⟨hf, hz⟩

theorem forget (hw : Wf q) (hn : NoLostInsert q) (key : String) : NoLostInsert (q.forget key) := by
  intro k hk
  rw [Queue.forget_spans] at hk
  simp only [insertedSince, bne_iff_ne, ne_eq, Bool.and_eq_true] at hk
  rcases hn k hk.2 with hm | ⟨b, hb, hf, hz⟩
  · exact .inl (Queue.forget_mem hm (Ne.symm hk.1))
  · refine .inr ⟨b, by rw [Queue.forget_frame.1]; exact hb, ?_⟩
    rw [hw.forget_heap_eq fun h => hk.1 (h.symm.trans (hw.processing k b hb))]
    exact ⟨hf, hz⟩

theorem handleQueueItemObject (hw : Wf q) (hn : NoLostInsert q) {qi : ℕ} {failed : Bool} {wall : ℤ}
    (hp : q.itemsBeingProcessed.lookup (q.keyAt qi) = some qi)
    (h : q.handleQueueItemObject qi failed wall now limit = .ok q') : NoLostInsert q' := by
  have hq := hw.pending_none_of_processing hp
  have hqi : qi ≠ q.next := (hw.fresh_processing _ qi hp).ne
  have hs := Queue.handleQueueItemObject_spans hqi hq h
  intro k hk
  by_cases hkk : k = q.keyAt qi
  · rw [hkk] at hk ⊢
    rcases hs with ⟨hs, hfz⟩ | ⟨-, hl⟩
    · rw [hs] at hk
      rcases hn _ hk with hm | ⟨b, hb, hf, hz⟩
      · simp [AList.lookup_eq_none.1 hq] at hm
      · rw [hp, Option.some_inj] at hb
        subst hb
        rcases hfz with hf' | hz'
        · simp [hf] at hf'
        · exact absurd hz' hz
    · exact .inl (AList.lookup_isSome.1 (by simp [hl]))
  · have hk' : insertedSince k q.spans = true := by
      rcases hs with ⟨hs, -⟩ | ⟨hs, -⟩ <;> rw [hs] at hk
      · exact hk
      · simpa [insertedSince, Ne.symm hkk] using hk
    rcases hn k hk' with hm | ⟨b, hb, hf, hz⟩
    · exact .inl (Queue.handleQueueItemObject_mem h hm)
    · refine .inr ⟨b, ?_, ?_⟩
      · rw [(Queue.handleQueueItemObject_frame h).1, AList.lookup_erase_ne hkk]; exact hb
      · rw [Queue.handleQueueItemObject_heap_lt hq h (hw.fresh_processing k b hb)]
        exact ⟨hf, hz⟩

end NoLostInsert

variable {s s' : System} {a : Action} {r : Reading}

theorem noLostInsert_transition (hw : Wf s.queue) (hp : Pool s) (hn : NoLostInsert s.queue)
    (hr : unixEpoch ≤ r.now) (h : s.transition r a = .ok s') : NoLostInsert s'.queue := by
  rcases System.transition_cases h with rfl | ⟨key, rl, d, q', b, -, hi, rfl⟩ | ⟨key, -, rfl⟩ |
    ⟨i, -, -, -, -, rfl⟩ | ⟨i, e, q', -, -, -, hg, rfl⟩ | ⟨i, head, -, -, -, -, rfl⟩ |
    ⟨i, head, -, -, -, -, rfl⟩ | ⟨i, t, -, -, -, -, rfl⟩ | ⟨i, qi, failed, q', -, -, hqi, hq, rfl⟩
  · exact hn
  · exact hn.insert hw hr hi
  · exact hn.forget hw key
  · exact hn
  · -- the dispatch of `e` ends the insertions of its key
    obtain ⟨rest, -, -, rfl⟩ := Queue.getNextItem_dispatched hg
    intro k hk
    simp only [Queue.span_spans, insertedSince, bne_iff_ne, ne_eq, Bool.and_eq_true] at hk
    rcases hn k hk.2 with hm | ⟨b, hb, hf, hz⟩
    · exact .inl (AList.mem_erase.2 ⟨Ne.symm hk.1, hm⟩)
    · refine .inr ⟨b, ?_, hf, hz⟩
      exact (AList.lookup_insert_ne (Ne.symm hk.1 : k ≠ s.queue.keyAt e)).trans hb
  · exact hn
  · exact hn
  · exact hn
  · exact hn.handleQueueItemObject hw (hp.handling i qi hqi) hq

theorem Reach.noLostInsert (h : Reach RealClock s) : NoLostInsert s.queue := by
  induction h with
  | run h => intro k hk; simp [(run_new h).1, Queue.new, insertedSince] at hk
  | step a r hs hr hst ih =>
    obtain ⟨s₁, h₁, rfl⟩ := System.step_eq_ok.1 hst
    have hrs := hs.reachable
    exact (noLostInsert_transition hrs.wf hrs.pool ih (hr.1.trans hr.2.2) h₁ : NoLostInsert s₁.queue)

/-- On the real clock, for every key `k`: if an insert of `k` happened after its
latest dispatch and its latest `Forget`, then `k` is pending, or in flight with
`forget = false` and a re-dirty mark; and the completion of such an in-flight item
succeeds and leaves `k` pending, whatever the handler returned. -/
theorem realClock_no_lost_enqueue (h : Reach RealClock s) :
    (∀ k, insertedSince k s.queue.spans = true → k ∈ s.queue.itemsInQueue ∨
      ∃ a, s.queue.itemsBeingProcessed.lookup k = some a ∧ (s.queue.heap a).forget = false ∧
        (s.queue.heap a).redirtiedAt ≠ 0) ∧
    ∀ i qi failed r, s.phase i = .handling qi → (s.queue.heap qi).forget = false →
      (s.queue.heap qi).redirtiedAt ≠ 0 → RealClock s (.complete i failed) r →
      ∃ s', s.step (.complete i failed) r = .ok s' ∧ s.queue.keyAt qi ∈ s'.queue.itemsInQueue := by
  refine ⟨h.noLostInsert, fun i qi failed r hi hf ht hr => ?_⟩
  have hc : Reach OnClock s := h.mono fun _ _ _ h => h.2
  obtain ⟨q', hq', hst, hqi, hq⟩ :=
    complete_step hc.reachable hi fun hrl => ((hc.marked qi).1 hrl).trans hr.2.1
  have hl := (Queue.handleQueueItemObject_reinsert hqi.ne hq hq' ⟨hf, .inr ht⟩).1
  exact ⟨_, hst, AList.lookup_isSome.1 (by simp [hl])⟩

theorem realClock_no_lost_enqueue_busy :
    ∃ s, Reach RealClock s ∧ Busy unixEpoch s ∧ insertedSince "a" s.queue.spans = true ∧
    (∀ k, insertedSince k s.queue.spans = true → k ∈ s.queue.itemsInQueue ∨
      ∃ a, s.queue.itemsBeingProcessed.lookup k = some a ∧ (s.queue.heap a).forget = false ∧
        (s.queue.heap a).redirtiedAt ≠ 0) ∧
    ∀ i qi failed r, s.phase i = .handling qi → (s.queue.heap qi).forget = false →
      (s.queue.heap qi).redirtiedAt ≠ 0 → RealClock s (.complete i failed) r →
      ∃ s', s.step (.complete i failed) r = .ok s' ∧ s.queue.keyAt qi ∈ s'.queue.itemsInQueue := by
  obtain ⟨s, he, hb, hi⟩ := exists_of_execute
    (P := fun s => Busy unixEpoch s ∧ insertedSince "a" s.queue.spans = true)
    ((Queue.new "q").start 2 unixEpoch) (busyRun unixEpoch) (by decide)
  have h : Reach RealClock s := (Reach.start (by decide)).execute_of
    (fun c r => decide (unixEpoch ≤ r.wall ∧ c ≤ r.wall ∧ r.wall ≤ r.now))
    (fun _ _ _ h => of_decide_eq_true h) (by decide) he
  exact ⟨s, h, hb, hi, realClock_no_lost_enqueue h⟩

end ClusterRouter
