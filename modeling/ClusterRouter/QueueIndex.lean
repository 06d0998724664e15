import ClusterRouter.QueueWorker
import Mathlib.Data.Finset.Card

/-!
# The two indexes agree with the list

`itemsInQueue` indexes exactly the items of `items`, each key once;
`itemsBeingProcessed` maps each key to an item carrying it; no key is in both;
and every address in use is below `next`, so a new item never aliases a live one.
Every operation keeps this, so `Len`'s consistency check never fails.
-/

set_option autoImplicit false

namespace ClusterRouter

/-- The representation invariant of `Queue`. -/
structure Wf (q : Queue) : Prop where
  nodup : (q.items.map q.keyAt).Nodup
  pending : ∀ k a, q.itemsInQueue.lookup k = some a ↔ a ∈ q.items ∧ q.keyAt a = k
  processing : ∀ k a, q.itemsBeingProcessed.lookup k = some a → q.keyAt a = k
  disjoint : ∀ k, k ∈ q.itemsInQueue → k ∉ q.itemsBeingProcessed
  fresh_items : ∀ a ∈ q.items, a < q.next
  fresh_processing : ∀ k a, q.itemsBeingProcessed.lookup k = some a → a < q.next

namespace Wf

variable {q q' : Queue} {k key : String} {a e : ℕ}

theorem items_nodup (hw : Wf q) : q.items.Nodup := List.Nodup.of_map _ hw.nodup

theorem lookup_pending_none (hw : Wf q) (h : q.itemsInQueue.lookup k = none) :
    ∀ a ∈ q.items, q.keyAt a ≠ k := fun a ha hk => by
  simp [(hw.pending k a).2 ⟨ha, hk⟩] at h

theorem not_mem_processing_of_pending (hw : Wf q) (h : q.itemsInQueue.lookup k = some a) :
    q.itemsBeingProcessed.lookup k = none :=
  AList.lookup_eq_none.2 (hw.disjoint k (AList.lookup_isSome.1 (by simp [h])))

theorem pending_none_of_processing (hw : Wf q) (h : q.itemsBeingProcessed.lookup k = some a) :
    q.itemsInQueue.lookup k = none :=
  AList.lookup_eq_none.2 fun hk => hw.disjoint k hk (AList.lookup_isSome.1 (by simp [h]))

theorem processing_not_mem_items (hw : Wf q) (h : q.itemsBeingProcessed.lookup k = some a) :
    a ∉ q.items := fun ha => by
  have hp := (hw.pending (q.keyAt a) a).2 ⟨ha, rfl⟩
  rw [hw.processing k a h] at hp
  simp [hw.not_mem_processing_of_pending hp] at h

theorem filter_key (hw : Wf q) (he : q.itemsInQueue.lookup k = some e) :
    q.items.filter (fun x => q.keyAt x = k) = [e] :=
  List.Perm.eq_singleton <| (List.perm_ext_iff_of_nodup (hw.items_nodup.filter _)
    (List.nodup_singleton e)).2 fun x => by
      rw [List.mem_filter, decide_eq_true_eq, ← hw.pending, he, List.mem_singleton,
        Option.some_inj, eq_comm]

theorem congr (hw : Wf q) (hi : q'.items.Perm q.items) (hq : q'.itemsInQueue = q.itemsInQueue)
    (hp : q'.itemsBeingProcessed = q.itemsBeingProcessed) (hn : q'.next = q.next)
    (hk : ∀ b, q'.keyAt b = q.keyAt b) : Wf q' where
  nodup := by rw [show q'.keyAt = q.keyAt from funext hk]; exact (hi.map _).nodup_iff.2 hw.nodup
  pending k a := by rw [hq, hw.pending, hi.mem_iff, hk]
  processing k a h := by rw [hk]; exact hw.processing k a (hp ▸ h)
  disjoint k := by rw [hq, hp]; exact hw.disjoint k
  fresh_items a ha := hn ▸ hw.fresh_items a (hi.mem_iff.1 ha)
  fresh_processing k a h := hn ▸ hw.fresh_processing k a (hp ▸ h)

theorem modify (hw : Wf q) {f : QueueItem → QueueItem} (hf : ∀ i, (f i).key = i.key) :
    Wf (q.modify a f) :=
  hw.congr (List.Perm.refl _) rfl rfl rfl (Queue.keyAt_modify hf)

theorem span (hw : Wf q) (s : Span) : Wf (q.span s) :=
  hw.congr (List.Perm.refl _) rfl rfl rfl fun _ => rfl

theorem wakeup (hw : Wf q) : Wf q.wakeup :=
  hw.congr (List.Perm.refl _) rfl rfl rfl fun _ => rfl

theorem adjustPosition (hw : Wf q) (he : e ∈ q.items) (when : ℤ) : Wf (q.adjustPosition e when) :=
  hw.congr (Queue.adjustPosition_items_perm he) (by simp) (by simp) (by simp)
    Queue.adjustPosition_keyAt

theorem push (hw : Wf q) {val : QueueItem} (hq : q.itemsInQueue.lookup val.key = none)
    (hp : q.itemsBeingProcessed.lookup val.key = none) : Wf (q.push val) := by
  have hk : ∀ b, (q.push val).keyAt b = if b = q.next then val.key else q.keyAt b := fun b => by
    by_cases h : b = q.next <;> simp [Queue.keyAt, h]
  have hne : ∀ a ∈ q.items, a ≠ q.next := fun a ha h => (h ▸ hw.fresh_items a ha).false
  have hold : ∀ a ∈ q.items, (q.push val).keyAt a = q.keyAt a := fun a ha => by
    rw [hk, if_neg (hne a ha)]
  have hmem : ∀ a, a ∈ (q.push val).items ↔ a = q.next ∨ a ∈ q.items := fun a => by
    rw [Queue.push_items_perm.mem_iff, List.mem_cons]
  refine ⟨?_, fun k a => ?_, fun k a h => ?_, fun k => ?_, fun a ha => ?_, fun k a h => ?_⟩
  · rw [(Queue.push_items_perm.map _).nodup_iff, List.map_cons, List.nodup_cons, hk, if_pos rfl,
      List.map_congr_left hold]
    exact ⟨fun h => by
      obtain ⟨a, ha, hka⟩ := List.mem_map.1 h
      exact hw.lookup_pending_none hq a ha hka, hw.nodup⟩
  · rw [Queue.push_itemsInQueue, hmem]
    by_cases hkv : k = val.key
    · subst hkv
      rw [AList.lookup_insert, Option.some_inj]
      constructor
      · rintro rfl; simp [hk]
      · rintro ⟨rfl | ha, hka⟩
        · rfl
        · exact absurd (hold a ha ▸ hka) (hw.lookup_pending_none hq a ha)
    · rw [AList.lookup_insert_ne hkv, hw.pending]
      constructor
      · rintro ⟨ha, rfl⟩; exact ⟨.inr ha, hold a ha⟩
      · rintro ⟨rfl | ha, hka⟩
        · simp [hk] at hka; exact absurd hka.symm hkv
        · exact ⟨ha, hold a ha ▸ hka⟩
  · rw [hk, if_neg (hw.fresh_processing k a h).ne]
    exact hw.processing k a h
  · rw [Queue.push_itemsInQueue, AList.mem_insert]
    rintro (rfl | h)
    · exact AList.lookup_eq_none.1 hp
    · exact hw.disjoint k h
  · rcases (hmem a).1 ha with rfl | ha
    · simp
    · exact (hw.fresh_items a ha).trans (Nat.lt_succ_self _)
  · exact (hw.fresh_processing k a h).trans (Nat.lt_succ_self _)

theorem forget_pending (hw : Wf q) (he : q.itemsInQueue.lookup key = some e) :
    Wf { q with itemsInQueue := q.itemsInQueue.erase key, items := q.items.erase e } := by
  have hke : q.keyAt e = key := ((hw.pending key e).1 he).2
  have hmem : ∀ a, a ∈ q.items.erase e ↔ a ≠ e ∧ a ∈ q.items := fun a =>
    hw.items_nodup.mem_erase_iff
  refine ⟨(List.erase_sublist _ _).map _ |>.nodup hw.nodup, fun k a => ?_, hw.processing,
    fun k h => hw.disjoint k (AList.mem_erase.1 h).2,
    fun a ha => hw.fresh_items a ((hmem a).1 ha).2, hw.fresh_processing⟩
  show (q.itemsInQueue.erase key).lookup k = some a ↔ a ∈ q.items.erase e ∧ q.keyAt a = k
  rw [hmem]
  by_cases hk : k = key
  · subst hk
    refine ⟨fun h => by simp at h, fun ⟨⟨hae, ha⟩, hka⟩ => (hae ?_).elim⟩
    have := (hw.pending _ a).2 ⟨ha, hka⟩
    rw [he] at this
    exact (Option.some_inj.1 this).symm
  · rw [AList.lookup_erase_ne hk, hw.pending]
    exact ⟨fun ⟨ha, hka⟩ => ⟨⟨fun h => hk (by rw [← hka, h, hke]), ha⟩, hka⟩,
      fun ⟨⟨_, ha⟩, hka⟩ => ⟨ha, hka⟩⟩

theorem dispatch (hw : Wf q) {rest : List ℕ} (hi : q.items = e :: rest) :
    Wf { q with itemsBeingProcessed := q.itemsBeingProcessed.insert (q.keyAt e) e, items := rest,
                itemsInQueue := q.itemsInQueue.erase (q.keyAt e) } := by
  have hn := hw.nodup
  rw [hi, List.map_cons, List.nodup_cons] at hn
  have hrest : ∀ a ∈ rest, a ∈ q.items := fun a ha => hi ▸ List.mem_cons_of_mem e ha
  refine ⟨hn.2, fun k a => ?_, fun k a h => ?_, fun k h => ?_, fun a ha => hw.fresh_items a (hrest a ha),
    fun k a h => ?_⟩
  · by_cases hk : k = q.keyAt e
    · subst hk
      simp only [AList.lookup_erase, reduceCtorEq, false_iff, not_and]
      exact fun ha hka => hn.1 (hka ▸ List.mem_map_of_mem _ ha)
    · rw [AList.lookup_erase_ne hk, hw.pending, hi, List.mem_cons]
      constructor
      · rintro ⟨rfl | ha, hka⟩
        · exact absurd hka.symm hk
        · exact ⟨ha, hka⟩
      · rintro ⟨ha, hka⟩; exact ⟨.inr ha, hka⟩
  · rcases AList.lookup_insert_eq_some.1 h with ⟨rfl, rfl⟩ | ⟨-, h⟩
    exacts [rfl, hw.processing k a h]
  · obtain ⟨hk, hq⟩ := AList.mem_erase.1 h
    rw [AList.mem_insert, not_or]
    exact ⟨hk, hw.disjoint k hq⟩
  · rcases AList.lookup_insert_eq_some.1 h with ⟨rfl, rfl⟩ | ⟨-, h⟩
    exacts [hw.fresh_items _ (hi ▸ List.mem_cons_self _ rest), hw.fresh_processing k a h]

theorem erase_processing (hw : Wf q) (key : String) :
    Wf { q with itemsBeingProcessed := q.itemsBeingProcessed.erase key } where
  nodup := hw.nodup
  pending := hw.pending
  processing k a h := by
    by_cases hk : k = key
    · subst hk; simp at h
    · exact hw.processing k a (by rwa [AList.lookup_erase_ne hk] at h)
  disjoint k h hp := hw.disjoint k h (AList.mem_erase.1 hp).2
  fresh_items := hw.fresh_items
  fresh_processing k a h := by
    by_cases hk : k = key
    · subst hk; simp at h
    · exact hw.fresh_processing k a (by rwa [AList.lookup_erase_ne hk] at h)

theorem insert (hw : Wf q) {ratelimit : Bool} {delay limit : Duration} {now : ℤ}
    (h : q.insert key ratelimit delay now limit = .ok (q', a)) : Wf q' := by
  rcases Queue.insert_cases h with ⟨-, rfl⟩ | ⟨-, hq, rfl⟩ | ⟨hp, hq, -, -, rfl⟩
  · exact (hw.span _).wakeup.modify fun _ => redirty_key
  · exact (hw.span _).wakeup.adjustPosition ((hw.pending key a).1 hq).1 _
  · exact (hw.span _).wakeup.push (by rw [newItem_key]; exact hq) (by rw [newItem_key]; exact hp)

theorem forget (hw : Wf q) (key : String) : Wf (q.forget key) := by
  rcases @Queue.forget_cases q key with ⟨e, he, h⟩ | ⟨-, b, -, h⟩ | ⟨-, -, h⟩ <;>
    rw [h]
  · exact (hw.span _).forget_pending he
  · exact (hw.span _).modify fun _ => rfl
  · exact hw.span _

theorem insert_heap_eq (hw : Wf q) {ratelimit : Bool} {delay limit : Duration} {now : ℤ} {b : ℕ}
    (h : q.insert key ratelimit delay now limit = .ok (q', a)) (hk : q.keyAt b ≠ key)
    (hb : b < q.next) : q'.heap b = q.heap b := by
  rcases Queue.insert_cases h with ⟨hp, rfl⟩ | ⟨-, hq, rfl⟩ | ⟨-, -, -, -, rfl⟩
  · have : b ≠ a := fun hba => hk (hba ▸ hw.processing key a hp)
    simp [this]
  · exact Queue.adjustPosition_heap_ne fun hba => hk (hba ▸ ((hw.pending key a).1 hq).2)
  · simp [hb.ne]

theorem forget_heap_eq (hw : Wf q) {b : ℕ} (hk : q.keyAt b ≠ key) :
    (q.forget key).heap b = q.heap b := by
  rcases @Queue.forget_cases q key with ⟨e, -, h⟩ | ⟨-, c, hc, h⟩ | ⟨-, -, h⟩ <;> rw [h]
  · rfl
  · have : b ≠ c := fun hbc => hk (hbc ▸ hw.processing key c hc)
    simp [this]
  · rfl

theorem handleQueueItemObject (hw : Wf q) {qi : ℕ} {failed : Bool} {wall now : ℤ}
    {limit : Duration} (h : q.handleQueueItemObject qi failed wall now limit = .ok q') : Wf q' := by
  have h₀ := hw.erase_processing (q.heap qi).key
  rcases Queue.handleQueueItemObject_cases h with ⟨-, rfl⟩ | ⟨-, -, -, q₁, b, hi, rfl⟩ |
    ⟨-, -, -, q₁, b, hi, rfl⟩ | ⟨-, -, -, rfl⟩
  · exact h₀
  · exact (h₀.insert hi).modify fun _ => rfl
  · exact (h₀.insert hi).modify fun _ => rfl
  · exact h₀

theorem items_length (hw : Wf q) : q.items.length = q.itemsInQueue.keys.length := by
  have hp : (q.items.map q.keyAt).Perm q.itemsInQueue.keys := by
    refine (List.perm_ext_iff_of_nodup hw.nodup q.itemsInQueue.keys_nodup).2 fun k => ?_
    rw [List.mem_map, ← AList.mem_keys, ← AList.lookup_isSome, Option.isSome_iff_exists]
    exact exists_congr fun a => ((hw.pending k a).symm)
  rw [← hp.length_eq, List.length_map]

theorem len (hw : Wf q) :
    q.len = .ok (q.itemsInQueue.keys ++ q.itemsBeingProcessed.keys).toFinset.card := by
  have hd : (q.itemsInQueue.keys ++ q.itemsBeingProcessed.keys).Nodup :=
    List.nodup_append.2 ⟨AList.keys_nodup _, AList.keys_nodup _, fun k hq hp =>
      hw.disjoint k (AList.mem_keys.2 hq) (AList.mem_keys.2 hp)⟩
  rw [List.toFinset_card_of_nodup hd, List.length_append, Queue.len, if_neg (by simp [hw.items_length]),
    hw.items_length]

end Wf

variable {s s' : System}

theorem wf_transition {r : Reading} {a : Action} (hw : Wf s.queue) (h : s.transition r a = .ok s') :
    Wf s'.queue := by
  rcases System.transition_cases h with rfl | ⟨_, _, _, _, _, -, hi, rfl⟩ | ⟨key, -, rfl⟩ |
    ⟨i, -, -, -, -, rfl⟩ | ⟨i, e, q', -, -, -, hg, rfl⟩ | ⟨i, head, -, -, -, -, rfl⟩ |
    ⟨i, head, -, -, -, -, rfl⟩ | ⟨i, t, -, -, -, -, rfl⟩ | ⟨i, e, failed, q', -, -, -, hq, rfl⟩
  · exact hw
  · exact hw.insert hi
  · exact hw.forget key
  · exact hw.congr (List.Perm.refl _) rfl rfl rfl fun _ => rfl
  · obtain ⟨rest, hr, -, rfl⟩ := Queue.getNextItem_dispatched hg
    exact (hw.dispatch hr).congr (List.Perm.refl _) rfl rfl rfl fun _ => rfl
  · exact hw
  · exact hw.congr (List.Perm.refl _) rfl rfl rfl fun _ => rfl
  · exact hw
  · exact hw.handleQueueItemObject hq

theorem wf_step {r : Reading} {a : Action} (hw : Wf s.queue) (h : s.step a r = .ok s') :
    Wf s'.queue := by
  obtain ⟨s₁, h₁, rfl⟩ := System.step_eq_ok.1 h
  exact @wf_transition s s₁ _ _ hw h₁

theorem Reachable.wf (h : Reachable s) : Wf s.queue := by
  induction h with
  | run h =>
    rw [(run_new h).1]
    exact ⟨List.nodup_nil, fun k a => by simp [Queue.new], fun k a h => by simp [Queue.new] at h,
      fun k h => by simp [Queue.new] at h, fun a h => by simp [Queue.new] at h,
      fun k a h => by simp [Queue.new] at h⟩
  | step a r _ _ hs ih => exact wf_step ih hs

/-- For every reachable state: each key occurs at most once in `items`;
`itemsInQueue` maps exactly the keys of `items`, each to the element holding it;
`itemsBeingProcessed` maps each key to an item with that key; no key is in both.
So `items.Len() = len(itemsInQueue)`, `Len` never panics, and it counts the
distinct keys pending or in flight. -/
theorem reachable_len_consistent (h : Reachable s) :
    (s.queue.items.map s.queue.keyAt).Nodup ∧
    (∀ k a, s.queue.itemsInQueue.lookup k = some a ↔ a ∈ s.queue.items ∧ s.queue.keyAt a = k) ∧
    (∀ k a, s.queue.itemsBeingProcessed.lookup k = some a → s.queue.keyAt a = k) ∧
    (∀ k, k ∈ s.queue.itemsInQueue → k ∉ s.queue.itemsBeingProcessed) ∧
    s.queue.items.length = s.queue.itemsInQueue.keys.length ∧
    s.queue.len = .ok (s.queue.itemsInQueue.keys ++ s.queue.itemsBeingProcessed.keys).toFinset.card :=
  have hw := h.wf
  ⟨hw.nodup, hw.pending, hw.processing, hw.disjoint, hw.items_length, hw.len⟩

theorem reachable_len_consistent_busy :
    ∃ s, Reachable s ∧ Busy 0 s ∧
    (s.queue.items.map s.queue.keyAt).Nodup ∧
    (∀ k a, s.queue.itemsInQueue.lookup k = some a ↔ a ∈ s.queue.items ∧ s.queue.keyAt a = k) ∧
    (∀ k a, s.queue.itemsBeingProcessed.lookup k = some a → s.queue.keyAt a = k) ∧
    (∀ k, k ∈ s.queue.itemsInQueue → k ∉ s.queue.itemsBeingProcessed) ∧
    s.queue.items.length = s.queue.itemsInQueue.keys.length ∧
    s.queue.len = .ok (s.queue.itemsInQueue.keys ++ s.queue.itemsBeingProcessed.keys).toFinset.card :=
  let ⟨s, hs, hb⟩ := reach_busy
  ⟨s, hs.reachable, hb, reachable_len_consistent hs.reachable⟩

end ClusterRouter
