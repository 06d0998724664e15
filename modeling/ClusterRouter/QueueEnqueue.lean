import ClusterRouter.QueueIndex

/-!
# What one `insert` promises

The contract of `insert` on a queue whose indexes agree with its list (`Wf`): for an
in-flight key only the in-flight item changes, by the re-dirty; otherwise the key ends
with exactly one entry, at the address `insert` returns, planned at the earlier of its
old time and `now + delay` if it was pending and at `now` plus the rate limiter's delay
or `delay` if it was new, and the part of the list holding the other keys is left as
it was, address for address, field for field and in order. The order of the list is
not needed for any of this.
-/

set_option autoImplicit false

namespace ClusterRouter

/-- What `insert k ratelimit delay` at `now`, with `limit` from the rate limiter, does
to the queue `q`, giving `q'` and the address `a`. -/
structure InsertContract (q : Queue) (k : String) (ratelimit : Bool) (delay : Duration)
    (now : ℤ) (limit : Duration) (q' : Queue) (a : ℕ) : Prop where
  processing : q'.itemsBeingProcessed = q.itemsBeingProcessed
  inFlight : ∀ b, q.itemsBeingProcessed.lookup k = some b →
    q'.items = q.items ∧ q'.itemsInQueue = q.itemsInQueue ∧ (∀ x ≠ b, q'.heap x = q.heap x) ∧
    q'.heap b = { q.heap b with
      redirtiedAt := if (q.heap b).redirtiedAt = 0 then now + delay.ns
        else min (q.heap b).redirtiedAt (now + delay.ns)
      redirtiedWithRatelimit :=
        if (q.heap b).redirtiedAt = 0 ∨ now + delay.ns < (q.heap b).redirtiedAt then ratelimit
        else (q.heap b).redirtiedWithRatelimit
      forget := false }
  others : q.itemsBeingProcessed.lookup k = none →
    q'.items.filter (fun x => q'.keyAt x ≠ k) = q.items.filter (fun x => q.keyAt x ≠ k) ∧
    ∀ x ∈ q.items, q.keyAt x ≠ k → q'.heap x = q.heap x
  entry : q.itemsBeingProcessed.lookup k = none →
    q'.itemsInQueue.lookup k = some a ∧ q'.items.filter (fun x => q'.keyAt x = k) = [a]
  pending : ∀ e, q.itemsInQueue.lookup k = some e →
    q'.plannedAt a = min (q.plannedAt e) (now + delay.ns)
  new : q.itemsBeingProcessed.lookup k = none → q.itemsInQueue.lookup k = none →
    q'.plannedAt a = now + if ratelimit then limit.ns else delay.ns

namespace Queue

variable {q q' : Queue} {k : String} {ratelimit : Bool} {delay limit : Duration} {now : ℤ}
  {a b e : ℕ}

theorem insert_inFlight (h : q.insert k ratelimit delay now limit = .ok (q', a))
    (hb : q.itemsBeingProcessed.lookup k = some b) :
    q'.items = q.items ∧ q'.itemsInQueue = q.itemsInQueue ∧ (∀ x ≠ b, q'.heap x = q.heap x) ∧
      q'.heap b = (q.heap b).redirty (now + delay.ns) ratelimit := by
  rcases insert_cases h with ⟨ha, rfl⟩ | ⟨hn, -⟩ | ⟨hn, -⟩
  · obtain rfl : a = b := Option.some_inj.1 (ha.symm.trans hb)
    exact ⟨rfl, rfl, fun x hx => by simp [hx], by simp⟩
  all_goals simp [hb] at hn

theorem insert_pending (hw : Wf q) (h : q.insert k ratelimit delay now limit = .ok (q', a))
    (he : q.itemsInQueue.lookup k = some e) :
    q'.items.filter (fun x => q'.keyAt x ≠ k) = q.items.filter (fun x => q.keyAt x ≠ k) ∧
      q'.itemsInQueue.lookup k = some a ∧ q'.plannedAt a = min (q.plannedAt e) (now + delay.ns) := by
  rcases insert_cases h with ⟨hb, -⟩ | ⟨-, ha, rfl⟩ | ⟨-, hn, -⟩
  · simp [hw.pending_none_of_processing hb] at he
  · obtain rfl : a = e := Option.some_inj.1 (ha.symm.trans he)
    obtain ⟨hmem, hk⟩ := (hw.pending k a).1 he
    have hkey : ((q.span (.insert k)).wakeup.adjustPosition a (now + delay.ns)).keyAt = q.keyAt :=
      funext fun x => adjustPosition_keyAt x
    rw [hkey]
    exact ⟨adjustPosition_items_filter hmem (by simp [hk]), by simpa using he,
      adjustPosition_plannedAt_self⟩
  · simp [hn] at he

theorem insert_absent (hw : Wf q) (h : q.insert k ratelimit delay now limit = .ok (q', a))
    (hp : q.itemsBeingProcessed.lookup k = none) (hn : q.itemsInQueue.lookup k = none) :
    q'.items.filter (fun x => q'.keyAt x ≠ k) = q.items.filter (fun x => q.keyAt x ≠ k) ∧
      q'.itemsInQueue.lookup k = some a ∧
      q'.plannedAt a = now + if ratelimit then limit.ns else delay.ns := by
  obtain ⟨rfl, rfl⟩ := insert_new hp hn h
  refine ⟨?_, by simp, by simp [plannedAt, newItem_plannedToStartWorkAt]⟩
  rw [push_items_filter (by simp [keyAt])]
  exact List.filter_congr fun x hx => by simp [keyAt, (hw.fresh_items x hx).ne]

end Queue

open Queue in
/-- On a queue whose indexes agree with its list, every `insert` that is not asked
for both a rate limit and a positive delay succeeds and keeps its contract. -/
theorem insert_contract {q : Queue} {k : String} {ratelimit : Bool} {delay limit : Duration}
    {now : ℤ} (hw : Wf q) (hd : ¬(ratelimit = true ∧ 0 < delay.ns)) :
    ∃ q' a, q.insert k ratelimit delay now limit = .ok (q', a) ∧
      InsertContract q k ratelimit delay now limit q' a := by
  obtain ⟨⟨q', a⟩, h⟩ : ∃ p, q.insert k ratelimit delay now limit = .ok p := insert_ok hd
  have hrest : q.itemsBeingProcessed.lookup k = none →
      q'.items.filter (fun x => q'.keyAt x ≠ k) = q.items.filter (fun x => q.keyAt x ≠ k) ∧
        q'.itemsInQueue.lookup k = some a := fun hp => by
    cases he : q.itemsInQueue.lookup k
    · exact (insert_absent hw h hp he).imp_right And.left
    · exact (insert_pending hw h he).imp_right And.left
  refine ⟨q', a, h, ⟨(insert_frame h).1, fun b hb => ?_,
    fun hp => ⟨(hrest hp).1, fun x hx hk => hw.insert_heap_eq h hk (hw.fresh_items x hx)⟩,
    fun hp => ⟨(hrest hp).2, (hw.insert h).filter_key (hrest hp).2⟩,
    fun e he => (insert_pending hw h he).2.2, fun hp hn => (insert_absent hw h hp hn).2.2⟩⟩
  obtain ⟨hi, hq, hx, hb'⟩ := insert_inFlight h hb
  exact ⟨hi, hq, hx, hb'.trans redirty_eq⟩

theorem insert_contract_busy :
    ∃ s, Reachable s ∧ Busy 0 s ∧ Wf s.queue ∧ ¬(true = true ∧ 0 < (0 : Duration).ns) ∧
      (∃ q' a, s.queue.insert "a" true 0 7 0 = .ok (q', a) ∧
        InsertContract s.queue "a" true 0 7 0 q' a) ∧
      ∃ q' a, s.queue.insert "b" true 0 7 0 = .ok (q', a) ∧
        InsertContract s.queue "b" true 0 7 0 q' a :=
  let ⟨s, hs, hb⟩ := reach_busy
  have hw : Wf s.queue := hs.reachable.wf
  ⟨s, hs.reachable, hb, hw, by decide, insert_contract hw (by decide), insert_contract hw (by decide)⟩

end ClusterRouter
