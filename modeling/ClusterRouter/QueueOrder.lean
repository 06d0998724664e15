import ClusterRouter.QueueIndex

/-!
# The pending list stays in time order

`items` is sorted non-decreasingly by `plannedToStartWorkAt`. Two backward scans
keep it so: `insert` puts a new item right behind the last item planned strictly
earlier, and `adjustPosition` moves an item brought forward right behind the last
item strictly earlier than its new time. Removals keep any order. So the head,
which `getNextItem` hands out, is planned no later than any other pending item.
-/

set_option autoImplicit false

namespace ClusterRouter

/-- `items` is sorted non-decreasingly by `plannedToStartWorkAt`. -/
def Ordered (q : Queue) : Prop := (q.items.map q.plannedAt).Sorted (· ≤ ·)

variable {q q' : Queue}

theorem ordered_iff : Ordered q ↔ q.items.Pairwise (fun a c => q.plannedAt a ≤ q.plannedAt c) := by
  rw [Ordered, List.Sorted, List.pairwise_map]

theorem scanBack_split {f : ℕ → ℤ} {p : ℤ} {x : ℕ} {r : List ℕ}
    (hr : r.Pairwise (fun a c => f c ≤ f a)) :
    ∃ l₁ l₂, r = l₁ ++ l₂ ∧ scanBack (fun y => decide (f y < p)) x r = l₁ ++ x :: l₂ ∧
      (∀ y ∈ l₁, p ≤ f y) ∧ ∀ y ∈ l₂, f y < p := by
  induction r with
  | nil => exact ⟨[], [], rfl, rfl, by simp, by simp⟩
  | cons y ys ih =>
    obtain ⟨hy, hys⟩ := List.pairwise_cons.1 hr
    by_cases hb : f y < p
    · refine ⟨[], y :: ys, rfl, by simp [scanBack, hb], by simp, fun z hz => ?_⟩
      rcases List.mem_cons.1 hz with rfl | hz
      · exact hb
      · exact (hy z hz).trans_lt hb
    · obtain ⟨l₁, l₂, h₁, h₂, h₃, h₄⟩ := ih hys
      refine ⟨y :: l₁, l₂, by simp [h₁], by simp [scanBack, hb, h₂], fun z hz => ?_, h₄⟩
      rcases List.mem_cons.1 hz with rfl | hz
      · exact le_of_not_lt hb
      · exact h₃ z hz

theorem scanBack_pairwise {f g : ℕ → ℤ} {p : ℤ} {x : ℕ} {r : List ℕ}
    (hr : r.Pairwise (fun a c => f c ≤ f a)) (hg : ∀ y ∈ r, g y = f y) (hx : g x = p) :
    (scanBack (fun y => decide (f y < p)) x r).Pairwise (fun a c => g c ≤ g a) := by
  obtain ⟨l₁, l₂, rfl, hs, h₁, h₂⟩ := scanBack_split (p := p) (x := x) hr
  have hg₁ : ∀ y ∈ l₁, g y = f y := fun y hy => hg y (List.mem_append_left _ hy)
  have hg₂ : ∀ y ∈ l₂, g y = f y := fun y hy => hg y (List.mem_append_right _ hy)
  obtain ⟨hr₁, hr₂, hr₁₂⟩ := List.pairwise_append.1 hr
  rw [hs, List.pairwise_append, List.pairwise_cons]
  refine ⟨hr₁.imp_of_mem fun ha hc h => ?_, ⟨fun c hc => ?_, hr₂.imp_of_mem fun ha hc h => ?_⟩,
    fun a ha c hc => ?_⟩
  · rw [hg₁ _ ha, hg₁ _ hc]; exact h
  · rw [hx, hg₂ c hc]; exact (h₂ c hc).le
  · rw [hg₂ _ ha, hg₂ _ hc]; exact h
  · rw [hg₁ a ha]
    rcases List.mem_cons.1 hc with rfl | hc
    · rw [hx]; exact h₁ a ha
    · rw [hg₂ c hc]; exact hr₁₂ a ha c hc

theorem scanBack_sorted {f g : ℕ → ℤ} {p : ℤ} {x : ℕ} {l : List ℕ}
    (hl : l.Pairwise (fun a c => f a ≤ f c)) (hg : ∀ y ∈ l, g y = f y) (hx : g x = p) :
    (scanBack (fun y => decide (f y < p)) x l.reverse).reverse.Pairwise (fun a c => g a ≤ g c) :=
  List.pairwise_reverse.2 <| scanBack_pairwise (List.pairwise_reverse.2 hl)
    (fun y hy => hg y (List.mem_reverse.1 hy)) hx

namespace Ordered

theorem sublist (ho : Ordered q) (hi : q'.items.Sublist q.items)
    (hp : ∀ a ∈ q'.items, q'.plannedAt a = q.plannedAt a) : Ordered q' :=
  ordered_iff.2 <| ((ordered_iff.1 ho).sublist hi).imp_of_mem fun ha hc h => by
    rw [hp _ ha, hp _ hc]; exact h

theorem modify (ho : Ordered q) {a : ℕ} {f : QueueItem → QueueItem}
    (hf : ∀ i, (f i).plannedToStartWorkAt = i.plannedToStartWorkAt) : Ordered (q.modify a f) :=
  ho.sublist (List.Sublist.refl _) fun _ _ => Queue.plannedAt_modify hf _

theorem push_place (ho : Ordered q) (val : QueueItem) :
    ∃ pre post, q.items = pre ++ post ∧ (q.push val).items = pre ++ q.next :: post ∧
      (∀ y ∈ pre, q.plannedAt y < val.plannedToStartWorkAt) ∧
      ∀ y ∈ post, val.plannedToStartWorkAt ≤ q.plannedAt y := by
  obtain ⟨l₁, l₂, h₁, h₂, h₃, h₄⟩ := scanBack_split (p := val.plannedToStartWorkAt) (x := q.next)
    (List.pairwise_reverse.2 (ordered_iff.1 ho))
  refine ⟨l₂.reverse, l₁.reverse, ?_, ?_, fun y hy => h₄ y (List.mem_reverse.1 hy),
    fun y hy => h₃ y (List.mem_reverse.1 hy)⟩
  · rw [← List.reverse_reverse q.items, h₁, List.reverse_append]
  · rw [Queue.push_items_eq, h₂]; simp

theorem push (hw : Wf q) (ho : Ordered q) (val : QueueItem) : Ordered (q.push val) := by
  refine ordered_iff.2 (scanBack_sorted (ordered_iff.1 ho) (fun y hy => ?_) ?_)
  · simp [Queue.plannedAt, (hw.fresh_items y hy).ne]
  · simp [Queue.plannedAt]

theorem adjustPosition (hw : Wf q) (ho : Ordered q) {e : ℕ} (he : e ∈ q.items) (when : ℤ) :
    Ordered (q.adjustPosition e when) := by
  unfold Queue.adjustPosition
  split_ifs with hlt
  · exact ho
  · set pre := q.items.takeWhile (· != e)
    set post := (q.items.dropWhile (· != e)).tail
    have hsplit : q.items = pre ++ e :: post := by
      rw [← Queue.dropWhile_ne_eq_cons he, List.takeWhile_append_dropWhile]
    have hnd := hw.items_nodup
    rw [hsplit, List.nodup_append, List.nodup_cons] at hnd
    have hs := ordered_iff.1 ho
    rw [hsplit, List.pairwise_append, List.pairwise_cons] at hs
    set g := (q.modify e fun i => { i with plannedToStartWorkAt := when }).plannedAt
    have hge : g e = when := by simp [g, Queue.plannedAt]
    have hg : ∀ y, y ≠ e → g y = q.plannedAt y := fun y hy => by simp [g, Queue.plannedAt, hy]
    have hpre : ∀ y ∈ pre, y ≠ e := fun y hy h => hnd.2.2 hy (h ▸ List.mem_cons_self e post)
    have hpost : ∀ y ∈ post, y ≠ e := fun y hy h => hnd.2.1.1 (h ▸ hy)
    suffices hp : ((scanBack (fun y => decide (q.plannedAt y < when)) e pre.reverse).reverse ++
        post).Pairwise (fun a c => g a ≤ g c) from ordered_iff.2 hp
    refine List.pairwise_append.2 ⟨scanBack_sorted hs.1 (fun y hy => hg y (hpre y hy)) hge, ?_,
      fun a ha c hc => ?_⟩
    · exact hs.2.1.2.imp_of_mem fun ha hc h => by rw [hg _ (hpost _ ha), hg _ (hpost _ hc)]; exact h
    · rw [hg c (hpost c hc)]
      have hec := hs.2.1.1 c hc
      rcases List.mem_cons.1 ((List.reverse_perm _).trans (scanBack_perm _ _ _) |>.mem_iff.1 ha)
        with rfl | ha
      · rw [hge]; exact (le_of_not_lt hlt).trans hec
      · rw [hg a (hpre a (List.mem_reverse.1 ha))]
        exact (hs.2.2 a (List.mem_reverse.1 ha) e (List.mem_cons_self e post)).trans hec

theorem insert (hw : Wf q) (ho : Ordered q) {key : String} {ratelimit : Bool}
    {delay limit : Duration} {now : ℤ} {a : ℕ}
    (h : q.insert key ratelimit delay now limit = .ok (q', a)) : Ordered q' := by
  rcases Queue.insert_cases h with ⟨-, rfl⟩ | ⟨-, hq, rfl⟩ | ⟨-, -, -, -, rfl⟩
  · exact Ordered.modify (q := (q.span _).wakeup) ho fun _ => redirty_plannedToStartWorkAt
  · exact Ordered.adjustPosition (q := (q.span _).wakeup) (hw.span _).wakeup ho
      ((hw.pending key a).1 hq).1 _
  · exact Ordered.push (q := (q.span _).wakeup) (hw.span _).wakeup ho _

theorem forget (ho : Ordered q) (key : String) : Ordered (q.forget key) := by
  rcases @Queue.forget_cases q key with ⟨e, -, h⟩ | ⟨-, b, -, h⟩ | ⟨-, -, h⟩ <;> rw [h]
  · exact ho.sublist (List.erase_sublist _ _) fun _ _ => rfl
  · exact Ordered.modify (q := q.span _) ho fun _ => rfl
  · exact ho

theorem handleQueueItemObject (hw : Wf q) (ho : Ordered q) {qi : ℕ} {failed : Bool}
    {wall now : ℤ} {limit : Duration}
    (h : q.handleQueueItemObject qi failed wall now limit = .ok q') : Ordered q' := by
  have hw₀ := hw.erase_processing (q.heap qi).key
  rcases Queue.handleQueueItemObject_cases h with ⟨-, rfl⟩ | ⟨-, -, -, q₁, b, hi, rfl⟩ |
    ⟨-, -, -, q₁, b, hi, rfl⟩ | ⟨-, -, -, rfl⟩
  · exact ho
  · exact (Ordered.insert (q := q.deleteBeingProcessed _) hw₀ ho hi).modify fun _ => rfl
  · exact (Ordered.insert (q := q.deleteBeingProcessed _) hw₀ ho hi).modify fun _ => rfl
  · exact ho

end Ordered

variable {s s' : System}

theorem ordered_transition {r : Reading} {a : Action} (hw : Wf s.queue) (ho : Ordered s.queue)
    (h : s.transition r a = .ok s') : Ordered s'.queue := by
  rcases System.transition_cases h with rfl | ⟨_, _, _, _, _, -, hi, rfl⟩ | ⟨key, -, rfl⟩ |
    ⟨i, -, -, -, -, rfl⟩ | ⟨i, e, q', -, -, -, hg, rfl⟩ | ⟨i, head, -, -, -, -, rfl⟩ |
    ⟨i, head, -, -, -, -, rfl⟩ | ⟨i, t, -, -, -, -, rfl⟩ | ⟨i, e, failed, q', -, -, -, hq, rfl⟩
  · exact ho
  · exact ho.insert hw hi
  · exact ho.forget key
  · exact ho
  · obtain ⟨rest, hr, -, rfl⟩ := Queue.getNextItem_dispatched hg
    exact ho.sublist (hr ▸ List.sublist_cons_self e rest) fun _ _ => rfl
  · exact ho
  · exact ho
  · exact ho
  · exact ho.handleQueueItemObject hw hq

theorem Reachable.ordered (h : Reachable s) : Ordered s.queue := by
  induction h with
  | run h => rw [Ordered, (run_new h).1]; exact List.sorted_nil
  | step a r hs _ hst ih =>
    obtain ⟨s₁, h₁, rfl⟩ := System.step_eq_ok.1 hst
    exact @ordered_transition _ s₁ _ _ (Reach.reachable hs).wf ih h₁

theorem getNextItem_earliest (ho : Ordered q) {wall : ℤ} {e : ℕ}
    (h : q.getNextItem wall = (q', .dispatched e)) :
    (∀ e' ∈ q.items, q.plannedAt e ≤ q.plannedAt e') ∧ (timeUntil (q.plannedAt e) wall).ns ≤ 0 := by
  obtain ⟨rest, hr, hdue, -⟩ := Queue.getNextItem_dispatched h
  have hs := ordered_iff.1 ho
  rw [hr, List.pairwise_cons] at hs
  refine ⟨fun e' he' => ?_, timeUntil_nonpos.2 hdue⟩
  rcases List.mem_cons.1 (hr ▸ he') with rfl | he'
  · exact le_rfl
  · exact hs.1 e' he'

/-- In every reachable state, under any clock readings, `items` is sorted by
`plannedToStartWorkAt`; so each dispatch hands out an item planned no later than
every pending item and already due. -/
theorem reachable_items_sorted (h : Reachable s) :
    (s.queue.items.map s.queue.plannedAt).Sorted (· ≤ ·) ∧
    ∀ wall q' e, s.queue.getNextItem wall = (q', .dispatched e) →
      (∀ e' ∈ s.queue.items, s.queue.plannedAt e ≤ s.queue.plannedAt e') ∧
      (timeUntil (s.queue.plannedAt e) wall).ns ≤ 0 :=
  ⟨h.ordered, fun _ _ _ hg => getNextItem_earliest h.ordered hg⟩

theorem reachable_items_sorted_busy :
    ∃ s, Reachable s ∧ Busy 0 s ∧
    (s.queue.items.map s.queue.plannedAt).Sorted (· ≤ ·) ∧
    ∀ wall q' e, s.queue.getNextItem wall = (q', .dispatched e) →
      (∀ e' ∈ s.queue.items, s.queue.plannedAt e ≤ s.queue.plannedAt e') ∧
      (timeUntil (s.queue.plannedAt e) wall).ns ≤ 0 :=
  let ⟨s, hs, hb⟩ := reach_busy
  ⟨s, hs.reachable, hb, reachable_items_sorted hs.reachable⟩

/-- In every reachable state, `insert` of a key neither pending nor in flight puts
the new item behind exactly the pending items planned strictly before it and in
front of every item planned at or after its time: among equal times the newest
item comes first. -/
theorem reachable_insert_new_place (h : Reachable s) {key : String} {ratelimit : Bool}
    {delay limit : Duration} {now : ℤ} {a : ℕ}
    (hp : s.queue.itemsBeingProcessed.lookup key = none) (hq : s.queue.itemsInQueue.lookup key = none)
    (hi : s.queue.insert key ratelimit delay now limit = .ok (q', a)) :
    ∃ pre post, s.queue.items = pre ++ post ∧ q'.items = pre ++ a :: post ∧
      (∀ y ∈ pre, s.queue.plannedAt y < q'.plannedAt a) ∧
      ∀ y ∈ post, q'.plannedAt a ≤ s.queue.plannedAt y := by
  obtain ⟨rfl, rfl⟩ := Queue.insert_new hp hq hi
  have hpl : (((s.queue.span (.insert key)).wakeup).push
      (newItem key ratelimit delay now limit)).plannedAt s.queue.next =
      (newItem key ratelimit delay now limit).plannedToStartWorkAt := by
    simp [Queue.plannedAt]
  rw [hpl]
  exact Ordered.push_place (q := (s.queue.span _).wakeup) h.ordered _

theorem reachable_insert_new_place_busy :
    ∃ s, Reachable s ∧ Busy 0 s ∧ s.queue.itemsBeingProcessed.lookup "d" = none ∧
      s.queue.itemsInQueue.lookup "d" = none ∧
      ∃ q' a, s.queue.insert "d" false (Duration.ofInt 18) 7 0 = .ok (q', a) ∧
        ∃ pre post, s.queue.items = pre ++ post ∧ q'.items = pre ++ a :: post ∧
          (∀ y ∈ pre, s.queue.plannedAt y < q'.plannedAt a) ∧
          ∀ y ∈ post, q'.plannedAt a ≤ s.queue.plannedAt y := by
  obtain ⟨s, hs, hb⟩ := reach_busy
  have hw : Wf s.queue := hs.reachable.wf
  have hp : s.queue.itemsBeingProcessed.lookup "d" = none :=
    AList.lookup_eq_none.2 fun h => by rw [AList.mem_keys, hb.2.1] at h; simp at h
  have hq : s.queue.itemsInQueue.lookup "d" = none := Option.eq_none_iff_forall_not_mem.2
    fun x hx => by
      obtain ⟨hmem, hk⟩ := (hw.pending "d" x).1 hx
      have := List.mem_map_of_mem s.queue.keyAt hmem
      simp [hb.1, hk] at this
  obtain ⟨⟨q', a⟩, hi⟩ : ∃ p, s.queue.insert "d" false (Duration.ofInt 18) 7 0 = .ok p :=
    Queue.insert_ok (by decide)
  exact ⟨s, hs.reachable, hb, hp, hq, q', a, hi, reachable_insert_new_place hs.reachable hp hq hi⟩

/-- The keys handed to the handler, oldest first. -/
def handledKeys (spans : List Span) : List String :=
  spans.reverse.filterMap fun
    | .handleQueueItem k => some k
    | _ => none

/-- "a", "b" and "c" enqueued at one instant, then handled by one worker. -/
def sameInstantRun : List (Action × Reading) :=
  [(.enqueueWithoutRateLimit "a", ⟨0, 0, 0⟩), (.enqueueWithoutRateLimit "b", ⟨0, 0, 0⟩),
   (.enqueueWithoutRateLimit "c", ⟨0, 0, 0⟩)] ++
  (List.replicate 3 [(.acquire 0, ⟨0, 0, 0⟩), (.poll 0, ⟨0, 0, 0⟩), (.complete 0 false, ⟨0, 0, 0⟩)]).flatten

/-- Equal planned times are not served in enqueue order: "a", "b", "c" enqueued at
one instant are handled "c", "b", "a"; and with "b" pending in front of "a" at the
same time, enqueuing "a" again at that time moves it in front of "b". -/
theorem equal_times_not_fifo :
    (∃ s, Reach OnClock s ∧ handledKeys s.queue.spans = ["c", "b", "a"]) ∧
    ∃ s, Reach OnClock s ∧ s.queue.items.map s.queue.keyAt = ["b", "a"] ∧
      (∀ y ∈ s.queue.items, s.queue.plannedAt y = 0) ∧
      ∃ s' ∈ (s.step (.enqueueWithoutRateLimit "a") ⟨0, 0, 0⟩).toOption,
        s'.queue.items.map s'.queue.keyAt = ["a", "b"] :=
  ⟨reach_of_execute (Reach.start Nat.one_pos : Reach OnClock ((Queue.new "q").start 1 0))
      (by decide : onClockFrom 0 sameInstantRun = true) (by decide),
    reach_of_execute (Reach.start Nat.one_pos : Reach OnClock ((Queue.new "q").start 1 0))
      (by decide : onClockFrom 0 (sameInstantRun.take 2) = true) (by decide)⟩

end ClusterRouter
