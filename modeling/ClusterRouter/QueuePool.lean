import ClusterRouter.QueueOrder

/-!
# Workers hold distinct keys, and the dispatcher is never left asleep

A worker running a handler holds the item `getNextItem` moved into
`itemsBeingProcessed`, and that entry is the one its completion deletes; so two
handler calls for one key never overlap. At most one worker is inside
`getNextItem`, the one holding `waitForNextItemSemaphore`. While it sleeps, either
`wakeupCh` holds a token or the head of `items` is planned no earlier than the head
it saw: inserts always signal, and `Forget` only removes items from a sorted list.
-/

set_option autoImplicit false

namespace ClusterRouter

/-- How `Run`'s workers relate to the queue. -/
structure Pool (s : System) : Prop where
  handling : ∀ i a, s.phase i = .handling a →
    s.queue.itemsBeingProcessed.lookup (s.queue.keyAt a) = some a
  exclusive : ∀ i j a b, s.phase i = .handling a → s.phase j = .handling b →
    s.queue.keyAt a = s.queue.keyAt b → i = j
  held : ∀ k a, s.queue.itemsBeingProcessed.lookup k = some a →
    ∃ i < s.workers, s.phase i = .handling a
  semaphore : ∀ i, (s.phase i).dispatching →
    s.queue.waitForNextItemSemaphore = true ∧ ∀ j, (s.phase j).dispatching → j = i

namespace Pool

variable {s : System} {q : Queue}

theorem queue (hp : Pool s) (hw : Wf s.queue)
    (hi : q.itemsBeingProcessed = s.queue.itemsBeingProcessed)
    (hs : q.waitForNextItemSemaphore = s.queue.waitForNextItemSemaphore)
    (hk : ∀ b < s.queue.next, q.keyAt b = s.queue.keyAt b) : Pool { s with queue := q } where
  handling i a h := by
    have ha := hp.handling i a h
    rw [hi, hk a (hw.fresh_processing _ a ha)]; exact ha
  exclusive i j a b ha hb hab := by
    have hfa := hw.fresh_processing _ a (hp.handling i a ha)
    have hfb := hw.fresh_processing _ b (hp.handling j b hb)
    rw [hk a hfa, hk b hfb] at hab
    exact hp.exclusive i j a b ha hb hab
  held k a h := hp.held k a (hi ▸ h)
  semaphore i h := by rw [hs]; exact hp.semaphore i h

theorem lt_workers (hp : Pool s) {i a : ℕ} (hi : s.phase i = .handling a) : i < s.workers := by
  obtain ⟨j, hj, hja⟩ := hp.held _ a (hp.handling i a hi)
  exact (hp.exclusive i j a a hi hja rfl) ▸ hj

theorem not_dispatching_of_dispatching (hp : Pool s) {i j : ℕ} (hij : j ≠ i)
    (hi : (s.phase i).dispatching) : (s.phase j).dispatching = false := by
  by_contra h
  exact hij ((hp.semaphore i hi).2 j (by simpa using h))

theorem redispatch (hp : Pool s) {i : ℕ} {p : Phase} (hi : (s.phase i).dispatching)
    (hpd : p.dispatching) (hq : q.itemsBeingProcessed = s.queue.itemsBeingProcessed)
    (hs : q.waitForNextItemSemaphore = s.queue.waitForNextItemSemaphore) (hk : q.heap = s.queue.heap) :
    Pool { s.moveTo i p with queue := q } := by
  have hki : ∀ j a, (s.moveTo i p).phase j = .handling a → j ≠ i ∧ s.phase j = .handling a :=
    fun j a => System.moveTo_phase_of_ne (by rintro rfl; simp [Phase.dispatching] at hpd)
  have hkey : q.keyAt = s.queue.keyAt := funext fun b => by simp [Queue.keyAt, hk]
  refine ⟨fun j a ha => ?_, fun j j' a b ha hb hab => ?_, fun k a h => ?_, fun j hj => ?_⟩
  · rw [hq, hkey]; exact hp.handling j a (hki j a ha).2
  · rw [hkey] at hab; exact hp.exclusive j j' a b (hki j a ha).2 (hki j' b hb).2 hab
  · obtain ⟨j, hj, hja⟩ := hp.held k a (hq ▸ h)
    have hji : j ≠ i := fun h => by subst h; simp [hja, Phase.dispatching] at hi
    exact ⟨j, hj, by simp [hji, hja]⟩
  · have hsem := hp.semaphore i hi
    have hmem : ∀ j, ((s.moveTo i p).phase j).dispatching → j = i := fun j hj => by
      simp only [System.moveTo_phase] at hj
      split_ifs at hj with h
      · exact h
      · exact hsem.2 j hj
    exact ⟨hs ▸ hsem.1, fun j' hj' => (hmem j' hj').trans (hmem j hj).symm⟩

theorem acquire (hp : Pool s) {i : ℕ} (hidle : s.phase i = .idle)
    (hsem : s.queue.waitForNextItemSemaphore = false) :
    Pool { s.moveTo i .polling with queue := { s.queue with waitForNextItemSemaphore := true } } where
  handling j a ha := hp.handling j a (System.moveTo_phase_of_ne (by simp) ha).2
  exclusive j j' a b ha hb :=
    hp.exclusive j j' a b (System.moveTo_phase_of_ne (by simp) ha).2
      (System.moveTo_phase_of_ne (by simp) hb).2
  held k a hk := by
    obtain ⟨j, hj, hja⟩ := hp.held k a hk
    have hji : j ≠ i := fun h => by simp [h, hidle] at hja
    exact ⟨j, hj, by simp [hji, hja]⟩
  semaphore j hj := by
    -- a worker already inside `getNextItem` would hold the semaphore
    have hnone : ∀ j', (s.phase j').dispatching = false := fun j' => by
      by_contra h
      simpa [hsem] using (hp.semaphore j' (by simpa using h)).1
    have hi : ∀ j', ((s.moveTo i .polling).phase j').dispatching → j' = i := fun j' h => by
      by_contra hj'
      simp [hj', hnone] at h
    exact ⟨rfl, fun j' hj' => (hi j' hj').trans (hi j hj).symm⟩

theorem dispatch (hw : Wf s.queue) (hp : Pool s) {i e : ℕ} {wall : ℤ} {q : Queue}
    (hlt : i < s.workers) (hpoll : s.phase i = .polling)
    (hg : s.queue.getNextItem wall = (q, .dispatched e)) :
    Pool { s.moveTo i (.handling e) with
      queue := { q with waitForNextItemSemaphore := false }.span
        (.handleQueueItem (q.heap e).key) } := by
  obtain ⟨rest, hr, -, rfl⟩ := Queue.getNextItem_dispatched hg
  have hfree := hw.not_mem_processing_of_pending ((hw.pending _ e).2
    ⟨hr ▸ List.mem_cons_self e rest, rfl⟩)
  have hne : ∀ j b, s.phase j = .handling b → s.queue.keyAt b ≠ s.queue.keyAt e :=
    fun j b hb h => by have := hp.handling j b hb; rw [h, hfree] at this; simp at this
  have hji : ∀ j b, s.phase j = .handling b → j ≠ i := fun j b hb h => by simp [h, hpoll] at hb
  refine ⟨fun j a ha => ?_, fun j j' a b ha hb hab => ?_, fun k a hk => ?_, fun j hj => ?_⟩
  · simp only [System.moveTo_phase] at ha
    split_ifs at ha with hj
    · cases ha; exact AList.lookup_insert _
    · exact (AList.lookup_insert_ne (hne j a ha)).trans (hp.handling j a ha)
  · simp only [System.moveTo_phase] at ha hb
    split_ifs at ha hb with h₁ h₂ h₂
    · exact h₁.trans h₂.symm
    · cases ha; exact absurd hab.symm (hne j' b hb)
    · cases hb; exact absurd hab (hne j a ha)
    · exact hp.exclusive j j' a b ha hb hab
  · rcases AList.lookup_insert_eq_some.1 hk with ⟨-, rfl⟩ | ⟨-, hk⟩
    · exact ⟨i, hlt, by simp⟩
    · obtain ⟨j, hj, hja⟩ := hp.held k a hk
      exact ⟨j, hj, by simp [hji j a hja, hja]⟩
  · -- the worker leaves `getNextItem`, and no other was inside it
    simp only [System.moveTo_phase] at hj
    split_ifs at hj with h₁
    · simp [Phase.dispatching] at hj
    · simp [hp.not_dispatching_of_dispatching h₁ (by simp [hpoll, Phase.dispatching])] at hj

theorem complete (hw : Wf s.queue) (hp : Pool s) {i e : ℕ} {failed : Bool} {wall now : ℤ}
    {limit : Duration} {q : Queue} (hhd : s.phase i = .handling e)
    (hq : s.queue.handleQueueItemObject e failed wall now limit = .ok q) :
    Pool { s.moveTo i .idle with queue := q } := by
  obtain ⟨hi, hs, -, hk, -⟩ := Queue.handleQueueItemObject_frame hq
  have hfresh : ∀ j b, s.phase j = .handling b → b < s.queue.next :=
    fun j b hb => hw.fresh_processing _ b (hp.handling j b hb)
  refine ⟨fun j b hb => ?_, fun j j' a b ha hb hab => ?_, fun k a hk' => ?_, fun j hj => ?_⟩
  · obtain ⟨hji, hb⟩ := System.moveTo_phase_of_ne (by simp) hb
    have hne : s.queue.keyAt b ≠ s.queue.keyAt e := fun h => hji (hp.exclusive j i b e hb hhd h)
    show q.itemsBeingProcessed.lookup (q.keyAt b) = some b
    rw [hk b (hfresh j b hb), hi, AList.lookup_erase_ne hne]; exact hp.handling j b hb
  · obtain ⟨-, ha⟩ := System.moveTo_phase_of_ne (by simp) ha
    obtain ⟨-, hb⟩ := System.moveTo_phase_of_ne (by simp) hb
    rw [hk a (hfresh j a ha), hk b (hfresh j' b hb)] at hab
    exact hp.exclusive j j' a b ha hb hab
  · simp only [hi] at hk'
    have hke : k ≠ s.queue.keyAt e := fun h => by subst h; simp at hk'
    rw [AList.lookup_erase_ne hke] at hk'
    obtain ⟨j, hj, hja⟩ := hp.held k a hk'
    have hji : j ≠ i := fun h => by
      subst h; rw [hhd] at hja; cases hja; exact hke (hw.processing k _ hk').symm
    exact ⟨j, hj, by simp [hji, hja]⟩
  · have hold : ∀ j, ((s.moveTo i .idle).phase j).dispatching → (s.phase j).dispatching :=
      fun j hj => by
        simp only [System.moveTo_phase] at hj
        split_ifs at hj
        · simp [Phase.dispatching] at hj
        · exact hj
    have hsem := hp.semaphore j (hold j hj)
    exact ⟨hs ▸ hsem.1, fun j' hj' => hsem.2 j' (hold j' hj')⟩

end Pool

variable {s s' : System}

theorem pool_transition {r : Reading} {a : Action} (hw : Wf s.queue) (hp : Pool s)
    (h : s.transition r a = .ok s') : Pool s' := by
  rcases System.transition_cases h with rfl | ⟨_, _, _, q', b, -, hi, rfl⟩ | ⟨key, -, rfl⟩ |
    ⟨i, -, -, hidle, hsem, rfl⟩ | ⟨i, e, q', -, hlt, hpoll, hg, rfl⟩ |
    ⟨i, head, -, -, hpoll, -, rfl⟩ | ⟨i, head, -, -, hsl, -, rfl⟩ | ⟨i, t, -, -, hsl, -, rfl⟩ |
    ⟨i, e, failed, q', -, -, hhd, hq, rfl⟩
  · exact hp
  · obtain ⟨hi, hs, -, -, -, hk⟩ := Queue.insert_frame hi
    exact hp.queue hw hi hs hk
  · obtain ⟨hi, hs, -, -, hk⟩ := @Queue.forget_frame s.queue key
    exact hp.queue hw hi hs fun b _ => hk b
  · exact hp.acquire hidle hsem
  · exact hp.dispatch hw hlt hpoll hg
  · -- the polling worker goes to sleep on what it saw, or wakes up to poll again
    have hs := hp.redispatch (i := i) (p := .sleeping head) (q := s.queue)
      (by simp [hpoll, Phase.dispatching]) rfl rfl rfl rfl
    exact ⟨hs.1, hs.2, hs.3, hs.4⟩
  · exact hp.redispatch (by simp [hsl, Phase.dispatching]) rfl rfl rfl rfl
  · exact hp.redispatch (q := s.queue) (by simp [hsl, Phase.dispatching]) rfl rfl rfl rfl
  · exact hp.complete hw hhd hq

theorem pool_step {r : Reading} {a : Action} (hw : Wf s.queue) (hp : Pool s)
    (h : s.step a r = .ok s') : Pool s' := by
  obtain ⟨s₁, h₁, rfl⟩ := System.step_eq_ok.1 h
  have hp₁ := @pool_transition s s₁ r a hw hp h₁
  exact ⟨hp₁.1, hp₁.2, hp₁.3, hp₁.4⟩

theorem Reachable.pool (h : Reachable s) : Pool s := by
  induction h with
  | run h =>
    obtain ⟨hq, hph, -⟩ := run_new h
    refine ⟨fun i a ha => ?_, fun i j a b ha => ?_, fun k a hk => ?_, fun i hi => ?_⟩ <;>
      simp [hq, hph, Queue.new, Phase.dispatching] at *
  | step a r hs _ hst ih => exact pool_step (Reach.reachable hs).wf ih hst

/-- While the worker inside `getNextItem` sleeps on the head it saw, `wakeupCh`
holds a token or the head of `items` is planned no earlier than that head. -/
def Awake (s : System) : Prop :=
  ∀ i head, s.phase i = .sleeping head → s.queue.wakeupCh = true ∨
    ∀ e ∈ s.queue.items.head?, ∃ t, head = some t ∧ t ≤ s.queue.plannedAt e

theorem head_le_of_sublist {q : Queue} (ho : Ordered q) {l : List ℕ} (hl : l.Sublist q.items)
    {e' : ℕ} (he' : e' ∈ l) : ∃ e ∈ q.items.head?, q.plannedAt e ≤ q.plannedAt e' := by
  have hs := ordered_iff.1 ho
  rcases hi : q.items with _ | ⟨e, rest⟩
  · rw [hi] at hl; simp [List.sublist_nil.1 hl] at he'
  · rw [hi, List.pairwise_cons] at hs
    refine ⟨e, rfl, ?_⟩
    rcases List.mem_cons.1 (hi ▸ hl.subset he') with rfl | h
    · exact le_rfl
    · exact hs.1 e' h

theorem Pool.awake_moveTo (hp : Pool s) {i : ℕ} {p : Phase} {q : Queue}
    (hi : (s.phase i).dispatching) (hs : ∀ head, p ≠ .sleeping head) :
    Awake { s.moveTo i p with queue := q } := fun j head hj => by
  obtain ⟨hji, hj⟩ := System.moveTo_phase_of_ne (hs head) hj
  exact absurd ((hp.semaphore i hi).2 j (by simp [hj, Phase.dispatching])) hji

theorem awake_transition {r : Reading} {a : Action} (ho : Ordered s.queue) (hp : Pool s)
    (hk : Awake s) (h : s.transition r a = .ok s') : Awake s' := by
  rcases System.transition_cases h with rfl | ⟨_, _, _, q', b, -, hi, rfl⟩ | ⟨key, -, rfl⟩ |
    ⟨i, -, -, -, -, rfl⟩ | ⟨i, e, q', -, -, hpoll, -, rfl⟩ |
    ⟨i, head, -, -, hpoll, hg, rfl⟩ | ⟨i, head, -, -, hsl, -, rfl⟩ | ⟨i, t, -, -, hsl, -, rfl⟩ |
    ⟨i, e, failed, q', -, -, -, hq, rfl⟩
  · exact hk
  · -- every insert signals
    exact fun _ _ _ => .inl (Queue.insert_frame hi).2.2.1
  · -- `Forget` sends nothing, but only removes items
    intro j head hj
    obtain ⟨-, -, hwk, -, -⟩ := @Queue.forget_frame s.queue key
    obtain ⟨hl, hpl⟩ := @Queue.forget_items s.queue key
    rcases hk j head hj with hw | hh
    · exact .inl (hwk.trans hw)
    · refine .inr fun e' he' => ?_
      obtain ⟨e, he, hle⟩ := head_le_of_sublist ho hl (List.mem_of_mem_head? he')
      obtain ⟨t, rfl, ht⟩ := hh e he
      exact ⟨t, rfl, (ht.trans hle).trans (hpl e').ge⟩
  · exact fun j head hj => hk j head (System.moveTo_phase_of_ne (by simp) hj).2
  · -- no worker sleeps while another dispatches
    exact hp.awake_moveTo (by simp [hpoll, Phase.dispatching]) (by simp)
  · -- the worker sleeps on the head it just saw
    intro j head' hj
    simp only [System.sleep_phase, System.moveTo_phase] at hj
    split_ifs at hj with hji
    · cases hj
      rcases (Queue.getNextItem_wait hg).2 with ⟨hn, rfl⟩ | ⟨e, rest, he, -, rfl⟩
      · exact .inr fun e' he' => by simp [hn] at he'
      · exact .inr fun e' he' => ⟨_, rfl, by simp [he] at he'; subst he'; exact le_rfl⟩
    · have := hp.not_dispatching_of_dispatching hji (by simp [hpoll, Phase.dispatching])
      simp [hj, Phase.dispatching] at this
  · exact hp.awake_moveTo (by simp [hsl, Phase.dispatching]) (by simp)
  · exact hp.awake_moveTo (q := s.queue) (by simp [hsl, Phase.dispatching]) (by simp)
  · -- a completion either inserts, and signals, or leaves the list alone
    intro j head hj
    replace hj := (System.moveTo_phase_of_ne (by simp) hj).2
    rcases (Queue.handleQueueItemObject_frame hq).2.2.2.2 with hw | ⟨hit, hhp, hwk⟩
    · exact .inl hw
    · show q'.wakeupCh = true ∨ ∀ e ∈ q'.items.head?, ∃ t, head = some t ∧ t ≤ q'.plannedAt e
      rw [hwk, hit, show q'.plannedAt = s.queue.plannedAt from funext fun b => by
        simp [Queue.plannedAt, hhp]]
      exact hk j head hj

theorem awake_step {r : Reading} {a : Action} (ho : Ordered s.queue) (hp : Pool s) (hk : Awake s)
    (h : s.step a r = .ok s') : Awake s' := by
  obtain ⟨s₁, h₁, rfl⟩ := System.step_eq_ok.1 h
  exact @awake_transition s s₁ r a ho hp hk h₁

theorem Reachable.awake (h : Reachable s) : Awake s := by
  induction h with
  | run h => intro i head hi; simp [(run_new h).2.1] at hi
  | step a r hs _ hst ih =>
    exact awake_step (Reach.reachable hs).ordered (Reach.reachable hs).pool ih hst

/-- For any number of workers and any interleaving: the workers running a handler
hold pairwise distinct keys, and these are exactly the keys of
`itemsBeingProcessed`, each mapped to the item that worker holds. So no two
handler calls for one key overlap, and each completion deletes the entry its own
dispatch created. -/
theorem reachable_handlers_exclusive (h : Reachable s) :
    (∀ i a, s.phase i = .handling a →
      s.queue.itemsBeingProcessed.lookup (s.queue.keyAt a) = some a) ∧
    (∀ i j a b, s.phase i = .handling a → s.phase j = .handling b →
      s.queue.keyAt a = s.queue.keyAt b → i = j) ∧
    (∀ k a, s.queue.itemsBeingProcessed.lookup k = some a →
      ∃ i < s.workers, s.phase i = .handling a) :=
  have hp := h.pool
  ⟨hp.handling, hp.exclusive, hp.held⟩

theorem reachable_handlers_exclusive_busy :
    ∃ s, Reachable s ∧ Busy 0 s ∧
    (∀ i a, s.phase i = .handling a →
      s.queue.itemsBeingProcessed.lookup (s.queue.keyAt a) = some a) ∧
    (∀ i j a b, s.phase i = .handling a → s.phase j = .handling b →
      s.queue.keyAt a = s.queue.keyAt b → i = j) ∧
    (∀ k a, s.queue.itemsBeingProcessed.lookup k = some a →
      ∃ i < s.workers, s.phase i = .handling a) :=
  let ⟨s, hs, hb⟩ := reach_busy
  ⟨s, hs.reachable, hb, reachable_handlers_exclusive hs.reachable⟩

/-- At most one worker is inside `getNextItem`; while it sleeps, either
`wakeupCh` holds a token, or `items` is non-empty only if it was when the worker
looked, with its head due no earlier than the head it saw. So the dispatcher never
sleeps past the planned time of the earliest pending item. -/
theorem reachable_no_lost_wakeup (h : Reachable s) :
    (∀ i j, (s.phase i).dispatching → (s.phase j).dispatching → i = j) ∧
    ∀ i head, s.phase i = .sleeping head → s.queue.wakeupCh = true ∨
      ∀ e ∈ s.queue.items.head?, ∃ t, head = some t ∧ t ≤ s.queue.plannedAt e :=
  ⟨fun i j hi hj => ((h.pool.semaphore i hi).2 j hj).symm, h.awake⟩

theorem reachable_no_lost_wakeup_busy :
    ∃ s, Reachable s ∧ Busy 0 s ∧
    (∀ i j, (s.phase i).dispatching → (s.phase j).dispatching → i = j) ∧
    ∀ i head, s.phase i = .sleeping head → s.queue.wakeupCh = true ∨
      ∀ e ∈ s.queue.items.head?, ∃ t, head = some t ∧ t ≤ s.queue.plannedAt e :=
  let ⟨s, hs, hb⟩ := reach_busy
  ⟨s, hs.reachable, hb, reachable_no_lost_wakeup hs.reachable⟩

end ClusterRouter
