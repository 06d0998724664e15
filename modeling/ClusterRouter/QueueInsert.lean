import ClusterRouter.QueueState

/-!
# Inserting and forgetting keys

`insert` merges a key into its in-flight item as a re-dirty, brings a pending item
forward with `adjustPosition`, or creates an item and places it by a backward scan.
`Forget` removes a pending key or marks an in-flight one. Each operation has one
inversion lemma saying everything it can do; later modules use only those.
-/

set_option autoImplicit false

namespace ClusterRouter

/-- `MaxRetries`. -/
def MaxRetries : ℤ := 20

/-- The in-flight branch of `insert`: keep the earliest re-dirty time, with the
`ratelimit` of the call that set it, and clear `forget`. -/
def QueueItem.redirty (when : ℤ) (ratelimit : Bool) (item : QueueItem) : QueueItem :=
  let item :=
    if item.redirtiedAt = 0 then { item with redirtiedAt := when, redirtiedWithRatelimit := ratelimit }
    else if when < item.redirtiedAt then
      { item with redirtiedAt := when, redirtiedWithRatelimit := ratelimit }
    else item
  { item with forget := false }

/-- The item the new-item branch of `insert` creates. -/
def newItem (key : String) (ratelimit : Bool) (delay : Duration) (now : ℤ) (limit : Duration) :
    QueueItem :=
  let val : QueueItem := { key := key, plannedToStartWorkAt := now, originallyAdded := now }
  if ratelimit then
    { val with plannedToStartWorkAt := val.plannedToStartWorkAt + limit.ns,
               delayedViaRateLimit := some limit }
  else { val with plannedToStartWorkAt := val.plannedToStartWorkAt + delay.ns }

section Item

variable {when : ℤ} {ratelimit : Bool} {item : QueueItem}

@[simp] theorem redirty_key : (item.redirty when ratelimit).key = item.key := by
  unfold QueueItem.redirty; split_ifs <;> rfl

@[simp] theorem redirty_plannedToStartWorkAt :
    (item.redirty when ratelimit).plannedToStartWorkAt = item.plannedToStartWorkAt := by
  unfold QueueItem.redirty; split_ifs <;> rfl

@[simp] theorem redirty_requeues : (item.redirty when ratelimit).requeues = item.requeues := by
  unfold QueueItem.redirty; split_ifs <;> rfl

@[simp] theorem redirty_forget : (item.redirty when ratelimit).forget = false := by
  unfold QueueItem.redirty; split_ifs <;> rfl

theorem redirty_marks :
    (item.redirty when ratelimit).redirtiedAt = when ∧
      (item.redirty when ratelimit).redirtiedWithRatelimit = ratelimit ∨
    item.redirtiedAt ≠ 0 ∧ item.redirtiedAt ≤ when ∧
      (item.redirty when ratelimit).redirtiedAt = item.redirtiedAt ∧
      (item.redirty when ratelimit).redirtiedWithRatelimit = item.redirtiedWithRatelimit := by
  unfold QueueItem.redirty
  split_ifs with h₀ h₁
  · exact .inl ⟨rfl, rfl⟩
  · exact .inl ⟨rfl, rfl⟩
  · exact .inr ⟨h₀, not_lt.1 h₁, rfl, rfl⟩

@[simp] theorem newItem_key (key : String) (delay : Duration) (now : ℤ) (limit : Duration) :
    (newItem key ratelimit delay now limit).key = key := by
  unfold newItem; split_ifs <;> rfl

@[simp] theorem newItem_requeues (key : String) (delay : Duration) (now : ℤ) (limit : Duration) :
    (newItem key ratelimit delay now limit).requeues = 0 := by
  unfold newItem; split_ifs <;> rfl

@[simp] theorem newItem_redirtiedAt (key : String) (delay : Duration) (now : ℤ) (limit : Duration) :
    (newItem key ratelimit delay now limit).redirtiedAt = 0 := by
  unfold newItem; split_ifs <;> rfl

@[simp] theorem newItem_redirtiedWithRatelimit (key : String) (delay : Duration) (now : ℤ)
    (limit : Duration) : (newItem key ratelimit delay now limit).redirtiedWithRatelimit = false := by
  unfold newItem; split_ifs <;> rfl

@[simp] theorem newItem_forget (key : String) (delay : Duration) (now : ℤ) (limit : Duration) :
    (newItem key ratelimit delay now limit).forget = false := by
  unfold newItem; split_ifs <;> rfl

theorem redirty_eq : item.redirty when ratelimit =
    { item with
      redirtiedAt := if item.redirtiedAt = 0 then when else min item.redirtiedAt when
      redirtiedWithRatelimit :=
        if item.redirtiedAt = 0 ∨ when < item.redirtiedAt then ratelimit
        else item.redirtiedWithRatelimit
      forget := false } := by
  by_cases h₀ : item.redirtiedAt = 0
  · simp [QueueItem.redirty, h₀]
  by_cases h₁ : when < item.redirtiedAt
  · simp [QueueItem.redirty, h₀, h₁, min_eq_right h₁.le]
  · simp [QueueItem.redirty, h₀, h₁, min_eq_left (not_lt.1 h₁)]

theorem newItem_plannedToStartWorkAt (key : String) (delay : Duration) (now : ℤ)
    (limit : Duration) : (newItem key ratelimit delay now limit).plannedToStartWorkAt =
      now + if ratelimit then limit.ns else delay.ns := by
  unfold newItem; split_ifs <;> rfl

/-- The marks of an item as `insert` creates it: no re-dirty, nothing to forget. -/
def QueueItem.Fresh (item : QueueItem) : Prop :=
  item.redirtiedAt = 0 ∧ item.redirtiedWithRatelimit = false ∧ item.forget = false

theorem newItem_fresh (key : String) (delay : Duration) (now : ℤ) (limit : Duration) :
    (newItem key ratelimit delay now limit).Fresh := by
  simp [QueueItem.Fresh]

end Item

namespace Queue

variable (q : Queue)

/-- The new-item branch of `insert` after the item is built: allocate `val` at
`q.next` and put it right behind the last item planned strictly before it. -/
def push (val : QueueItem) : Queue :=
  { q with
    heap := Function.update q.heap q.next val
    next := q.next + 1
    items := (scanBack (fun y => decide (q.plannedAt y < val.plannedToStartWorkAt)) q.next
      q.items.reverse).reverse
    itemsInQueue := q.itemsInQueue.insert val.key q.next }

/-- `adjustPosition`: unless `when` is after the item's planned time, plan it at
`when` and move it right behind the last earlier item strictly before `when`. -/
def adjustPosition (e : ℕ) (when : ℤ) : Queue :=
  if q.plannedAt e < when then q
  else
    { q.modify e (fun i => { i with plannedToStartWorkAt := when }) with
      items := (scanBack (fun y => decide (q.plannedAt y < when)) e
        (q.items.takeWhile (· != e)).reverse).reverse ++ (q.items.dropWhile (· != e)).tail }

/-- `insert`: `now` is what `q.clock.Now()` reads and `limit` what
`q.ratelimiter.When(key)` returns. It returns the address of the key's item. -/
def insert (key : String) (ratelimit : Bool) (delay : Duration) (now : ℤ) (limit : Duration) :
    Except String (Queue × ℕ) :=
  let q := (q.span (.insert key)).wakeup
  match q.itemsBeingProcessed.lookup key with
  | some a => .ok (q.modify a (QueueItem.redirty (now + delay.ns) ratelimit), a)
  | none =>
    match q.itemsInQueue.lookup key with
    | some e => .ok (q.adjustPosition e (now + delay.ns), e)
    | none =>
      if ratelimit ∧ 0 < delay.ns then .error "Non-zero delay with rate limiting not supported"
      else .ok (q.push (newItem key ratelimit delay now limit), q.next)

/-- `Enqueue`. -/
def enqueue (key : String) (now : ℤ) (limit : Duration) : Except String Queue :=
  (q.insert key true 0 now limit).map Prod.fst

/-- `EnqueueWithoutRateLimit`. -/
def enqueueWithoutRateLimit (key : String) (now : ℤ) (limit : Duration) : Except String Queue :=
  (q.insert key false 0 now limit).map Prod.fst

/-- `EnqueueWithoutRateLimitWithDelay`. -/
def enqueueWithoutRateLimitWithDelay (key : String) (after : Duration) (now : ℤ)
    (limit : Duration) : Except String Queue :=
  (q.insert key false after now limit).map Prod.fst

/-- `Forget`. -/
def forget (key : String) : Queue :=
  let q := q.span (.forget key)
  match q.itemsInQueue.lookup key with
  | some e => { q with itemsInQueue := q.itemsInQueue.erase key, items := q.items.erase e }
  | none =>
    match q.itemsBeingProcessed.lookup key with
    | some a => q.modify a fun i => { i with forget := true }
    | none => q

/-- `Len`. -/
def len : Except String ℕ :=
  if q.items.length ≠ q.itemsInQueue.keys.length then .error "Internally inconsistent state"
  else .ok (q.items.length + q.itemsBeingProcessed.keys.length)

/-- `Empty`. -/
def empty : Except String Bool := q.len.map (· == 0)

variable {q} {key : String} {ratelimit : Bool} {delay limit : Duration} {now : ℤ}
  {q' : Queue} {a b e : ℕ} {val : QueueItem} {when : ℤ}

@[simp] theorem push_items_eq : (q.push val).items =
    (scanBack (fun y => decide (q.plannedAt y < val.plannedToStartWorkAt)) q.next
      q.items.reverse).reverse := rfl
@[simp] theorem push_itemsInQueue :
    (q.push val).itemsInQueue = q.itemsInQueue.insert val.key q.next := rfl
@[simp] theorem push_itemsBeingProcessed :
    (q.push val).itemsBeingProcessed = q.itemsBeingProcessed := rfl
@[simp] theorem push_next : (q.push val).next = q.next + 1 := rfl
@[simp] theorem push_spans : (q.push val).spans = q.spans := rfl
@[simp] theorem push_wakeupCh : (q.push val).wakeupCh = q.wakeupCh := rfl
@[simp] theorem push_waitForNextItemSemaphore :
    (q.push val).waitForNextItemSemaphore = q.waitForNextItemSemaphore := rfl
@[simp] theorem push_heap : (q.push val).heap b = if b = q.next then val else q.heap b := by
  by_cases h : b = q.next <;> simp [push, h]

theorem push_items_perm : (q.push val).items.Perm (q.next :: q.items) :=
  (List.reverse_perm _).trans ((scanBack_perm _ _ _).trans ((List.reverse_perm _).cons _))

@[simp] theorem adjustPosition_itemsInQueue :
    (q.adjustPosition e when).itemsInQueue = q.itemsInQueue := by
  unfold adjustPosition; split_ifs <;> rfl
@[simp] theorem adjustPosition_itemsBeingProcessed :
    (q.adjustPosition e when).itemsBeingProcessed = q.itemsBeingProcessed := by
  unfold adjustPosition; split_ifs <;> rfl
@[simp] theorem adjustPosition_next : (q.adjustPosition e when).next = q.next := by
  unfold adjustPosition; split_ifs <;> rfl
@[simp] theorem adjustPosition_spans : (q.adjustPosition e when).spans = q.spans := by
  unfold adjustPosition; split_ifs <;> rfl
@[simp] theorem adjustPosition_wakeupCh : (q.adjustPosition e when).wakeupCh = q.wakeupCh := by
  unfold adjustPosition; split_ifs <;> rfl
@[simp] theorem adjustPosition_waitForNextItemSemaphore :
    (q.adjustPosition e when).waitForNextItemSemaphore = q.waitForNextItemSemaphore := by
  unfold adjustPosition; split_ifs <;> rfl

theorem adjustPosition_keyAt (b : ℕ) : (q.adjustPosition e when).keyAt b = q.keyAt b := by
  unfold adjustPosition; split_ifs
  · rfl
  · exact keyAt_modify (q := q) (a := e) (f := fun i => { i with plannedToStartWorkAt := when })
      (fun _ => rfl) b

theorem adjustPosition_heap (b : ℕ) :
    (q.adjustPosition e when).heap b =
      { q.heap b with plannedToStartWorkAt := (q.adjustPosition e when).plannedAt b } := by
  unfold adjustPosition; split_ifs
  · rfl
  · by_cases hb : b = e <;> simp [hb, plannedAt]

theorem adjustPosition_plannedAt_self :
    (q.adjustPosition e when).plannedAt e = min (q.plannedAt e) when := by
  unfold adjustPosition; split_ifs with h
  · exact (min_eq_left h.le).symm
  · simpa [plannedAt] using not_lt.1 h

theorem adjustPosition_heap_ne (hb : b ≠ e) : (q.adjustPosition e when).heap b = q.heap b := by
  unfold adjustPosition; split_ifs
  · rfl
  · simp [hb]

theorem dropWhile_ne_eq_cons {l : List ℕ} (he : e ∈ l) :
    l.dropWhile (· != e) = e :: (l.dropWhile (· != e)).tail := by
  induction l with
  | nil => simp at he
  | cons y ys ih =>
    by_cases hy : y = e
    · simp [hy]
    · have hys : e ∈ ys := (List.mem_cons.1 he).resolve_left (Ne.symm hy)
      simpa [List.dropWhile_cons, hy] using ih hys

theorem adjustPosition_items_perm (he : e ∈ q.items) :
    (q.adjustPosition e when).items.Perm q.items := by
  unfold adjustPosition; split_ifs
  · exact List.Perm.refl _
  · set pre := q.items.takeWhile (· != e)
    set post := (q.items.dropWhile (· != e)).tail
    have hsplit : q.items = pre ++ e :: post := by
      rw [← dropWhile_ne_eq_cons he, List.takeWhile_append_dropWhile]
    rw [hsplit]
    have hx := (List.reverse_perm _).trans ((scanBack_perm (fun y => decide (q.plannedAt y < when))
      e pre.reverse).trans ((List.reverse_perm pre).cons e))
    exact (hx.append_right post).trans List.perm_middle.symm

theorem push_items_filter {f : ℕ → Bool} (hf : f q.next = false) :
    (q.push val).items.filter f = q.items.filter f := by
  simp [scanBack_filter hf]

theorem adjustPosition_items_filter {f : ℕ → Bool} (he : e ∈ q.items) (hf : f e = false) :
    (q.adjustPosition e when).items.filter f = q.items.filter f := by
  unfold adjustPosition; split_ifs
  · rfl
  · conv_rhs => rw [← List.takeWhile_append_dropWhile (· != e) q.items, dropWhile_ne_eq_cons he]
    simp [scanBack_filter hf, hf]

/-- Everything `insert` can do: the three branches of the source with their guards. -/
theorem insert_cases (h : q.insert key ratelimit delay now limit = .ok (q', a)) :
    (q.itemsBeingProcessed.lookup key = some a ∧
      q' = ((q.span (.insert key)).wakeup).modify a (QueueItem.redirty (now + delay.ns) ratelimit)) ∨
    (q.itemsBeingProcessed.lookup key = none ∧ q.itemsInQueue.lookup key = some a ∧
      q' = ((q.span (.insert key)).wakeup).adjustPosition a (now + delay.ns)) ∨
    (q.itemsBeingProcessed.lookup key = none ∧ q.itemsInQueue.lookup key = none ∧
      ¬(ratelimit = true ∧ 0 < delay.ns) ∧ a = q.next ∧
      q' = ((q.span (.insert key)).wakeup).push (newItem key ratelimit delay now limit)) := by
  unfold insert at h
  rcases hp : q.itemsBeingProcessed.lookup key with _ | b
  · rcases hq : q.itemsInQueue.lookup key with _ | e
    · simp only [span_itemsBeingProcessed, wakeup_itemsBeingProcessed, hp, span_itemsInQueue,
        wakeup_itemsInQueue, hq] at h
      split_ifs at h with hd
      cases h
      exact .inr (.inr ⟨rfl, rfl, hd, rfl, rfl⟩)
    · simp only [span_itemsBeingProcessed, wakeup_itemsBeingProcessed, hp, span_itemsInQueue,
        wakeup_itemsInQueue, hq, Except.ok.injEq, Prod.mk.injEq] at h
      obtain ⟨rfl, rfl⟩ := h
      exact .inr (.inl ⟨rfl, rfl, rfl⟩)
  · simp only [span_itemsBeingProcessed, wakeup_itemsBeingProcessed, hp, Except.ok.injEq,
      Prod.mk.injEq] at h
    obtain ⟨rfl, rfl⟩ := h
    exact .inl ⟨rfl, rfl⟩

theorem insert_frame (h : q.insert key ratelimit delay now limit = .ok (q', a)) :
    q'.itemsBeingProcessed = q.itemsBeingProcessed ∧
    q'.waitForNextItemSemaphore = q.waitForNextItemSemaphore ∧ q'.wakeupCh = true ∧
    q'.spans = .insert key :: q.spans ∧ q.next ≤ q'.next ∧
    (∀ b < q.next, q'.keyAt b = q.keyAt b) := by
  rcases insert_cases h with ⟨-, rfl⟩ | ⟨-, -, rfl⟩ | ⟨-, -, -, -, rfl⟩
  · exact ⟨rfl, rfl, rfl, rfl, le_rfl, fun b _ => keyAt_modify (fun _ => redirty_key) b⟩
  · exact ⟨by simp, by simp, by simp, by simp, by simp, fun b _ => adjustPosition_keyAt b⟩
  · exact ⟨by simp, by simp, by simp, by simp, by simp, fun b hb => by simp [keyAt, hb.ne]⟩

theorem insert_error {e : String} (h : q.insert key ratelimit delay now limit = .error e) :
    q.itemsBeingProcessed.lookup key = none ∧ q.itemsInQueue.lookup key = none ∧
      ratelimit = true ∧ 0 < delay.ns := by
  unfold insert at h
  rcases hp : q.itemsBeingProcessed.lookup key with _ | b
  · rcases hq : q.itemsInQueue.lookup key with _ | c
    · simp only [span_itemsBeingProcessed, wakeup_itemsBeingProcessed, hp, span_itemsInQueue,
        wakeup_itemsInQueue, hq] at h
      split_ifs at h with hd
      exact ⟨rfl, rfl, hd⟩
    · simp [hp, hq] at h
  · simp [hp] at h

theorem insert_ok (h : ¬(ratelimit = true ∧ 0 < delay.ns)) :
    ∃ p, q.insert key ratelimit delay now limit = .ok p := by
  rcases hi : q.insert key ratelimit delay now limit with e | p
  · exact absurd (insert_error hi).2.2 h
  · exact ⟨p, rfl⟩

theorem insert_new (hp : q.itemsBeingProcessed.lookup key = none)
    (hq : q.itemsInQueue.lookup key = none) (h : q.insert key ratelimit delay now limit = .ok (q', a)) :
    a = q.next ∧ q' = ((q.span (.insert key)).wakeup).push (newItem key ratelimit delay now limit) := by
  rcases insert_cases h with ⟨hb, -⟩ | ⟨-, he, -⟩ | ⟨-, -, -, ha, rfl⟩
  · simp [hp] at hb
  · simp [hq] at he
  · exact ⟨ha, rfl⟩

theorem insert_heap {P : QueueItem → Prop} (h : q.insert key ratelimit delay now limit = .ok (q', a))
    (hP : ∀ b, P (q.heap b)) (hplan : ∀ i t, P i → P { i with plannedToStartWorkAt := t })
    (hre : P ((q.heap a).redirty (now + delay.ns) ratelimit))
    (hnew : P (newItem key ratelimit delay now limit)) (b : ℕ) : P (q'.heap b) := by
  rcases insert_cases h with ⟨-, rfl⟩ | ⟨-, -, rfl⟩ | ⟨-, -, -, rfl, rfl⟩
  · exact heap_modify_of (q := (q.span _).wakeup) hP hre b
  · rw [adjustPosition_heap]; exact hplan _ _ (hP b)
  · simp only [push_heap, wakeup_heap, span_heap, wakeup_next, span_next]
    split_ifs with hb
    exacts [hnew, hP b]

theorem insert_mem {k : String} (h : q.insert key ratelimit delay now limit = .ok (q', a))
    (hk : k ∈ q.itemsInQueue) : k ∈ q'.itemsInQueue := by
  rcases insert_cases h with ⟨-, rfl⟩ | ⟨-, -, rfl⟩ | ⟨-, -, -, -, rfl⟩
  · exact hk
  · simpa using hk
  · simp [AList.mem_insert, hk]

/-- Everything `Forget` can do. -/
theorem forget_cases :
    (∃ e, q.itemsInQueue.lookup key = some e ∧
      q.forget key = { q.span (.forget key) with
        itemsInQueue := q.itemsInQueue.erase key, items := q.items.erase e }) ∨
    (q.itemsInQueue.lookup key = none ∧ ∃ b, q.itemsBeingProcessed.lookup key = some b ∧
      q.forget key = (q.span (.forget key)).modify b fun i => { i with forget := true }) ∨
    (q.itemsInQueue.lookup key = none ∧ q.itemsBeingProcessed.lookup key = none ∧
      q.forget key = q.span (.forget key)) := by
  unfold forget
  rcases hq : q.itemsInQueue.lookup key with _ | e
  · rcases hp : q.itemsBeingProcessed.lookup key with _ | b
    · simp [hq, hp]
    · simp [hq, hp]
  · simp [hq]

theorem forget_frame :
    (q.forget key).itemsBeingProcessed = q.itemsBeingProcessed ∧
    (q.forget key).waitForNextItemSemaphore = q.waitForNextItemSemaphore ∧
    (q.forget key).wakeupCh = q.wakeupCh ∧ (q.forget key).next = q.next ∧
    ∀ b, (q.forget key).keyAt b = q.keyAt b := by
  rcases @forget_cases q key with ⟨e, -, h⟩ | ⟨-, b, -, h⟩ | ⟨-, -, h⟩ <;> rw [h]
  · exact ⟨rfl, rfl, rfl, rfl, fun _ => rfl⟩
  · exact ⟨rfl, rfl, rfl, rfl, keyAt_modify fun _ => rfl⟩
  · exact ⟨rfl, rfl, rfl, rfl, fun _ => rfl⟩

theorem forget_heap (b : ℕ) :
    (q.forget key).heap b = { q.heap b with forget := ((q.forget key).heap b).forget } := by
  rcases @forget_cases q key with ⟨e, -, h⟩ | ⟨-, c, -, h⟩ | ⟨-, -, h⟩ <;> rw [h]
  · rfl
  · by_cases hb : b = c <;> simp [hb]
  · rfl

theorem forget_spans : (q.forget key).spans = .forget key :: q.spans := by
  rcases @forget_cases q key with ⟨e, -, h⟩ | ⟨-, c, -, h⟩ | ⟨-, -, h⟩ <;> rw [h] <;> rfl

theorem forget_mem {k : String} (hk : k ∈ q.itemsInQueue) (hne : k ≠ key) :
    k ∈ (q.forget key).itemsInQueue := by
  rcases @forget_cases q key with ⟨e, -, h⟩ | ⟨-, c, -, h⟩ | ⟨-, -, h⟩ <;> rw [h]
  · exact AList.mem_erase.2 ⟨hne, hk⟩
  · exact hk
  · exact hk

theorem forget_items :
    (q.forget key).items.Sublist q.items ∧ ∀ b, (q.forget key).plannedAt b = q.plannedAt b := by
  rcases @forget_cases q key with ⟨e, -, h⟩ | ⟨-, b, -, h⟩ | ⟨-, -, h⟩ <;> rw [h]
  · exact ⟨List.erase_sublist _ _, fun _ => rfl⟩
  · exact ⟨List.Sublist.refl _, plannedAt_modify fun _ => rfl⟩
  · exact ⟨List.Sublist.refl _, fun _ => rfl⟩

end Queue

end ClusterRouter
