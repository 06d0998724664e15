import ClusterRouter.QueueRetry
import ClusterRouter.QueueProgress

/-!
# The pool as one state machine per key and per worker

Behind the list, the heap and the two maps, the queue keeps one of three states for
each key: absent, pending at a planned time, or in flight with its re-dirty mark and
its `forget` flag; a pending or in-flight key also carries its requeue count. A worker
is idle, polling, sleeping, or handling a key. `KeyState.insert`, `KeyState.forget`
and `KeyState.complete` say what `insert`, `Forget` and the completion do to one key,
and `PoolStep` what one step of the pool does: an enqueue or a `Forget` moves its own
key; a polling worker's poll either hands out a due key of the earliest planned time,
which goes in flight with no mark while the worker handles it, or finds no key due and
sleeps; a handling worker's completion moves its key as `KeyState.complete` says and
leaves the worker idle; the semaphore, wakeup and timer steps move no key.

`System.poolState` reads these states off the pool, and `run_refines` shows that every
run of the pool from `Run` on a `New` queue is a run of `PoolStep` from all keys
absent and all workers idle. It rests on the invariants of the earlier modules and on
`PendingFresh`: an item waits in the list with no re-dirty mark and nothing to forget.
-/

set_option autoImplicit false

namespace ClusterRouter

/-- The state of one key. -/
inductive KeyState
  | absent
  | pending (plannedToStartWorkAt requeues : ℤ)
  | inFlight (redirtiedAt : ℤ) (redirtiedWithRatelimit forget : Bool) (requeues : ℤ)
  deriving DecidableEq

namespace KeyState

/-- What `insert` does to the key; `none` is its panic. -/
def insert (ratelimit : Bool) (delay : Duration) (now : ℤ) (limit : Duration) :
    KeyState → Option KeyState
  | absent =>
    if ratelimit ∧ 0 < delay.ns then none
    else some (pending (now + if ratelimit then limit.ns else delay.ns) 0)
  | pending t n => some (pending (min t (now + delay.ns)) n)
  | inFlight m rl _ n =>
    some (inFlight (if m = 0 then now + delay.ns else min m (now + delay.ns))
      (if m = 0 ∨ now + delay.ns < m then ratelimit else rl) false n)

/-- What `Forget` does to the key. -/
def forget : KeyState → KeyState
  | absent => absent
  | pending _ _ => absent
  | inFlight m rl _ n => inFlight m rl true n

/-- What the completion of the key's handler does; `none` is the panic of its
re-dirty insert, or a key that is not in flight. -/
def complete (failed : Bool) (wall now : ℤ) (limit : Duration) : KeyState → Option KeyState
  | inFlight m rl f n =>
    if f then some absent
    else if failed ∧ n + 1 < MaxRetries then some (pending (now + limit.ns) (n + 1))
    else if m ≠ 0 then absent.insert rl (timeUntil m wall) now limit
    else some absent
  | _ => none

end KeyState

/-- The state a key's view shows: its in-flight item if it has one, else its
pending one. -/
def KeyView.state (v : KeyView) : KeyState :=
  match v.inFlight, v.pending with
  | some i, _ => .inFlight i.redirtiedAt i.redirtiedWithRatelimit i.forget i.requeues
  | none, some i => .pending i.plannedToStartWorkAt i.requeues
  | none, none => .absent

/-- The state of key `k` in `q`. -/
def Queue.keyState (q : Queue) (k : String) : KeyState := (q.view k).state

/-- What a worker of the pool is doing, with the key it handles. -/
inductive WorkerState
  | idle
  | polling
  | sleeping
  | handling (key : String)
  deriving DecidableEq

/-- The state of every key and of every worker. -/
structure PoolState where
  keys : String → KeyState
  workers : ℕ → WorkerState

/-- All keys absent, all workers idle. -/
def PoolState.init : PoolState := ⟨fun _ => .absent, fun _ => .idle⟩

/-- A worker's phase, with the item it handles read as its key in `q`. -/
def Phase.worker (q : Queue) : Phase → WorkerState
  | .idle => .idle
  | .polling => .polling
  | .sleeping _ => .sleeping
  | .handling e => .handling (q.keyAt e)

/-- The state of every key and worker of the pool `s`. -/
def System.poolState (s : System) : PoolState :=
  ⟨s.queue.keyState, fun i => (s.phase i).worker s.queue⟩

/-- Every key but `k` keeps its state. -/
def Only (k : String) (σ σ' : String → KeyState) : Prop := ∀ j, j ≠ k → σ' j = σ j

/-- Worker `i` is handed a key that is pending, due on the wall clock and planned no
later than any pending key; the key goes in flight with no mark. -/
def Dispatch (wall : ℤ) (i : ℕ) (σ σ' : PoolState) : Prop :=
  ∃ k t n, σ.keys k = .pending t n ∧ t ≤ wall ∧
    (∀ j t' n', σ.keys j = .pending t' n' → t ≤ t') ∧ Only k σ.keys σ'.keys ∧
    σ'.keys k = .inFlight 0 false false n ∧ σ'.workers = Function.update σ.workers i (.handling k)

/-- Worker `i` goes to sleep, no key being due on the wall clock. -/
def Sleep (wall : ℤ) (i : ℕ) (σ σ' : PoolState) : Prop :=
  σ'.keys = σ.keys ∧ (∀ k t n, σ.keys k = .pending t n → wall < t) ∧
    σ'.workers = Function.update σ.workers i .sleeping

/-- Worker `i` moves from `w` to `w'`, and no key moves. -/
def Moves (i : ℕ) (w w' : WorkerState) (σ σ' : PoolState) : Prop :=
  σ.workers i = w ∧ σ'.keys = σ.keys ∧ σ'.workers = Function.update σ.workers i w'

/-- One step of the pool's states, from `σ` to `σ'`, for an action taken at reading `r`. -/
def PoolStep (r : Reading) (σ σ' : PoolState) : Action → Prop
  | .enqueue k => σ'.workers = σ.workers ∧ Only k σ.keys σ'.keys ∧
      (σ.keys k).insert true 0 r.now r.limit = some (σ'.keys k)
  | .enqueueWithoutRateLimit k => σ'.workers = σ.workers ∧ Only k σ.keys σ'.keys ∧
      (σ.keys k).insert false 0 r.now r.limit = some (σ'.keys k)
  | .enqueueWithoutRateLimitWithDelay k after => σ'.workers = σ.workers ∧
      Only k σ.keys σ'.keys ∧ (σ.keys k).insert false after r.now r.limit = some (σ'.keys k)
  | .forget k => σ'.workers = σ.workers ∧ Only k σ.keys σ'.keys ∧ σ'.keys k = (σ.keys k).forget
  | .acquire i => σ' = σ ∨
      (∀ j, σ.workers j ≠ .polling ∧ σ.workers j ≠ .sleeping) ∧ Moves i .idle .polling σ σ'
  | .poll i =>
    match σ.workers i with
    | .polling => Dispatch r.wall i σ σ' ∨ Sleep r.wall i σ σ'
    | _ => σ' = σ
  | .wakeup i | .timer i => σ' = σ ∨ Moves i .sleeping .polling σ σ'
  | .complete i failed =>
    match σ.workers i with
    | .handling k => Only k σ.keys σ'.keys ∧
        (σ.keys k).complete failed r.wall r.now r.limit = some (σ'.keys k) ∧
        σ'.workers = Function.update σ.workers i .idle
    | _ => σ' = σ

/-- A run of the pool's states: one step for each action of a trace, taken at its
reading. -/
def PoolRun : PoolState → List (Action × Reading) → PoolState → Prop
  | σ, [], σ' => σ' = σ
  | σ, (a, r) :: rest, σ' => ∃ σ₁, PoolStep r σ σ₁ a ∧ PoolRun σ₁ rest σ'

section PoolStep

variable {r : Reading} {σ σ' : PoolState} {i : ℕ} {k : String} {failed : Bool}

theorem poolStep_poll (h : σ.workers i = .polling) :
    PoolStep r σ σ' (.poll i) ↔ Dispatch r.wall i σ σ' ∨ Sleep r.wall i σ σ' := by
  simp only [PoolStep, h]

theorem poolStep_poll_of_ne (h : σ.workers i ≠ .polling) : PoolStep r σ σ' (.poll i) ↔ σ' = σ := by
  simp only [PoolStep]

theorem poolStep_complete (h : σ.workers i = .handling k) :
    PoolStep r σ σ' (.complete i failed) ↔ Only k σ.keys σ'.keys ∧
      (σ.keys k).complete failed r.wall r.now r.limit = some (σ'.keys k) ∧
      σ'.workers = Function.update σ.workers i .idle := by
  simp only [PoolStep, h]

theorem poolStep_complete_of_ne (h : ∀ k, σ.workers i ≠ .handling k) :
    PoolStep r σ σ' (.complete i failed) ↔ σ' = σ := by
  simp only [PoolStep]

end PoolStep

theorem Phase.worker_eq_polling {q : Queue} {p : Phase} : p.worker q = .polling ↔ p = .polling := by
  cases p <;> simp [Phase.worker]

theorem Phase.worker_eq_handling {q : Queue} {p : Phase} {k : String} :
    p.worker q = .handling k ↔ ∃ e, p = .handling e ∧ q.keyAt e = k := by
  cases p <;> simp [Phase.worker]

/-- Items wait in the list with no re-dirty mark and nothing to forget. -/
def PendingFresh (q : Queue) : Prop := ∀ a ∈ q.items, (q.heap a).Fresh

namespace Queue

variable {q q' : Queue} {k key : String} {ratelimit failed : Bool} {delay limit : Duration}
  {wall now : ℤ} {a b e qi : ℕ}

/-! ## Reading a key's state -/

theorem keyState_of_processing (hb : q.itemsBeingProcessed.lookup k = some b) :
    q.keyState k = .inFlight (q.heap b).redirtiedAt (q.heap b).redirtiedWithRatelimit
      (q.heap b).forget (q.heap b).requeues := by
  simp [keyState, view, KeyView.state, hb]

theorem keyState_of_pending (hb : q.itemsBeingProcessed.lookup k = none)
    (he : q.itemsInQueue.lookup k = some e) :
    q.keyState k = .pending (q.plannedAt e) (q.heap e).requeues := by
  simp [keyState, view, KeyView.state, hb, he, plannedAt]

theorem keyState_of_absent (hb : q.itemsBeingProcessed.lookup k = none)
    (he : q.itemsInQueue.lookup k = none) : q.keyState k = .absent := by
  simp [keyState, view, KeyView.state, hb, he]

theorem keyState_eq_pending {t n : ℤ} (h : q.keyState k = .pending t n) :
    ∃ e, q.itemsInQueue.lookup k = some e ∧ q.plannedAt e = t := by
  rcases hb : q.itemsBeingProcessed.lookup k with _ | b
  · rcases he : q.itemsInQueue.lookup k with _ | e
    · simp [keyState_of_absent hb he] at h
    · rw [keyState_of_pending hb he] at h
      cases h
      exact ⟨e, rfl, rfl⟩
  · simp [keyState_of_processing hb] at h

theorem insert_guard (hp : q.itemsBeingProcessed.lookup k = none)
    (hn : q.itemsInQueue.lookup k = none) (h : q.insert k ratelimit delay now limit = .ok (q', a)) :
    ¬(ratelimit = true ∧ 0 < delay.ns) := by
  rcases insert_cases h with ⟨hb, -⟩ | ⟨-, he, -⟩ | ⟨-, -, hd, -⟩
  · simp [hp] at hb
  · simp [hn] at he
  · exact hd

/-! ## What each operation does to its own key -/

theorem insert_keyState (h : q.insert k ratelimit delay now limit = .ok (q', a)) :
    (q.keyState k).insert ratelimit delay now limit = some (q'.keyState k) := by
  rcases insert_cases h with ⟨hb, rfl⟩ | ⟨hb, he, rfl⟩ | ⟨hb, hn, hd, -, rfl⟩
  · rw [keyState_of_processing hb, keyState_of_processing (by simpa using hb)]
    simp [KeyState.insert, redirty_eq]
  · rw [keyState_of_pending hb he, keyState_of_pending (by simpa using hb) (by simpa using he),
      adjustPosition_plannedAt_self, adjustPosition_heap]
    rfl
  · rw [keyState_of_absent hb hn, keyState_of_pending (e := q.next) (by simpa using hb) (by simp)]
    simp [KeyState.insert, hd, plannedAt, newItem_plannedToStartWorkAt]

theorem forget_keyState (hw : Wf q) : (q.forget k).keyState k = (q.keyState k).forget := by
  rcases @forget_cases q k with ⟨e, he, h⟩ | ⟨hn, b, hb, h⟩ | ⟨hn, hb, h⟩ <;> rw [h]
  · have hb := hw.not_mem_processing_of_pending he
    rw [keyState_of_pending hb he, keyState_of_absent (by simpa using hb) (by simp)]
    rfl
  · rw [keyState_of_processing hb, keyState_of_processing (by simpa using hb)]
    simp [KeyState.forget]
  · rw [keyState_of_absent hb hn, keyState_of_absent (by simpa using hb) (by simpa using hn)]
    rfl

theorem dispatch_keyState (hw : Wf q) (ho : Ordered q) (hf : PendingFresh q)
    (hg : q.getNextItem wall = (q', .dispatched e)) :
    q.keyState (q.keyAt e) = .pending (q.plannedAt e) (q.heap e).requeues ∧
      q.plannedAt e ≤ wall ∧ (∀ j t n, q.keyState j = .pending t n → q.plannedAt e ≤ t) ∧
      ({ q' with waitForNextItemSemaphore := false }.span
        (.handleQueueItem (q'.heap e).key)).keyState (q.keyAt e) =
        .inFlight 0 false false (q.heap e).requeues := by
  obtain ⟨hmin, -⟩ := getNextItem_earliest ho hg
  obtain ⟨rest, hr, hdue, rfl⟩ := getNextItem_dispatched hg
  have hmem : e ∈ q.items := hr ▸ List.mem_cons_self e rest
  have he := (hw.pending (q.keyAt e) e).2 ⟨hmem, rfl⟩
  obtain ⟨h₀, h₁, h₂⟩ := hf e hmem
  refine ⟨keyState_of_pending (hw.not_mem_processing_of_pending he) he, hdue,
    fun j t n hj => ?_, ?_⟩
  · obtain ⟨e', he', rfl⟩ := keyState_eq_pending hj
    exact hmin e' ((hw.pending j e').1 he').1
  · rw [keyState_of_processing (b := e) (by simp)]
    simp [h₀, h₁, h₂]

theorem handleQueueItemObject_keyState (hw : Wf q)
    (hp : q.itemsBeingProcessed.lookup (q.keyAt qi) = some qi)
    (h : q.handleQueueItemObject qi failed wall now limit = .ok q') :
    (q.keyState (q.keyAt qi)).complete failed wall now limit = some (q'.keyState (q.keyAt qi)) := by
  have hq := hw.pending_none_of_processing hp
  have hqi := (hw.fresh_processing _ _ hp).ne
  have hp' : q'.itemsBeingProcessed.lookup (q.keyAt qi) = none := by
    rw [(handleQueueItemObject_frame h).1]; exact AList.lookup_erase _ _
  rw [keyState_of_processing hp]
  rcases handleQueueItemObject_cases h with ⟨hf, rfl⟩ | ⟨hf, hc, hrq, q₁, a, hi, rfl⟩ |
    ⟨hf, hc, hz, q₁, a, hi, rfl⟩ | ⟨hf, hc, hz, rfl⟩
  · rw [keyState_of_absent hp' hq]
    simp [KeyState.complete, hf]
  · obtain ⟨hl, hn, hpl, -⟩ := handleQueueItemObject_reinsert hqi hq h ⟨hf, .inl ⟨hc, hrq⟩⟩
    rw [keyState_of_pending hp' hl, hpl, hn]
    simp [KeyState.complete, hf, hc, hrq]
  · obtain ⟨hl, hn, hpl, -⟩ := handleQueueItemObject_reinsert hqi hq h ⟨hf, .inr hz⟩
    have hd := insert_guard (q := q.deleteBeingProcessed (q.keyAt qi)) (AList.lookup_erase _ _) hq hi
    rw [keyState_of_pending hp' hl, hpl, hn]
    simp [KeyState.complete, KeyState.insert, hf, hc, hz, hd]
  · rw [keyState_of_absent hp' hq]
    simp [KeyState.complete, hf, hc, hz]

end Queue

/-! ## Pending items carry no marks -/

namespace PendingFresh

variable {q q' : Queue} {key : String} {ratelimit failed : Bool} {delay limit : Duration}
  {wall now : ℤ} {a b e qi : ℕ}

theorem modify_of_not_mem (hf : PendingFresh q) {f : QueueItem → QueueItem} (hb : b ∉ q.items) :
    PendingFresh (q.modify b f) := fun x hx => by
  have : x ≠ b := fun hxb => hb (hxb ▸ hx)
  simpa [this] using hf x hx

theorem modify_of_fresh (hf : PendingFresh q) {f : QueueItem → QueueItem}
    (hfr : ∀ i, i.Fresh → (f i).Fresh) : PendingFresh (q.modify b f) := fun x hx => by
  by_cases hxb : x = b
  · subst hxb; simpa using hfr _ (hf x hx)
  · simpa [hxb] using hf x hx

theorem insert (hw : Wf q) (hf : PendingFresh q)
    (h : q.insert key ratelimit delay now limit = .ok (q', a)) : PendingFresh q' := by
  rcases Queue.insert_cases h with ⟨hb, rfl⟩ | ⟨-, he, rfl⟩ | ⟨-, -, -, -, rfl⟩
  · exact modify_of_not_mem hf (hw.processing_not_mem_items hb)
  · intro x hx
    rw [Queue.adjustPosition_heap]
    exact hf x ((Queue.adjustPosition_items_perm (q := (q.span (.insert key)).wakeup)
      ((hw.pending _ _).1 he).1).mem_iff.1 hx)
  · intro x hx
    rcases List.mem_cons.1 (Queue.push_items_perm.mem_iff.1 hx) with rfl | hx
    · simpa using newItem_fresh _ _ _ _
    · simpa [(hw.fresh_items x hx).ne] using hf x hx

theorem forget (hw : Wf q) (hf : PendingFresh q) (key : String) : PendingFresh (q.forget key) := by
  rcases @Queue.forget_cases q key with ⟨e, -, h⟩ | ⟨-, b, hb, h⟩ | ⟨-, -, h⟩ <;> rw [h]
  · exact fun x hx => hf x (List.mem_of_mem_erase hx)
  · exact modify_of_not_mem (q := q.span (.forget key)) hf (hw.processing_not_mem_items hb)
  · exact hf

theorem handleQueueItemObject (hw : Wf q) (hf : PendingFresh q)
    (h : q.handleQueueItemObject qi failed wall now limit = .ok q') : PendingFresh q' := by
  have hw₀ := hw.erase_processing (q.keyAt qi)
  rcases Queue.handleQueueItemObject_cases h with ⟨-, rfl⟩ | ⟨-, -, -, q₁, a, hi, rfl⟩ |
    ⟨-, -, -, q₁, a, hi, rfl⟩ | ⟨-, -, -, rfl⟩ <;>
  first
    | exact hf
    | exact (insert hw₀ hf hi).modify_of_fresh fun _ hi => hi

end PendingFresh

variable {s s' : System} {a : Action} {r : Reading}

theorem pendingFresh_transition (hw : Wf s.queue) (hf : PendingFresh s.queue)
    (h : s.transition r a = .ok s') : PendingFresh s'.queue := by
  rcases System.transition_cases h with rfl | ⟨_, _, _, q', b, -, hi, rfl⟩ | ⟨key, -, rfl⟩ |
    ⟨i, -, -, -, -, rfl⟩ | ⟨i, e, q', -, -, -, hg, rfl⟩ | ⟨i, head, -, -, -, -, rfl⟩ |
    ⟨i, head, -, -, -, -, rfl⟩ | ⟨i, t, -, -, -, -, rfl⟩ | ⟨i, qi, failed, q', -, -, -, hq, rfl⟩
  -- the steps that only move a worker keep the queue
  all_goals try exact hf
  · exact hf.insert hw hi
  · exact hf.forget hw key
  · obtain ⟨rest, hr, -, rfl⟩ := Queue.getNextItem_dispatched hg
    exact fun x hx => hf x (hr ▸ List.mem_cons_of_mem _ hx)
  · exact hf.handleQueueItemObject hw hq

theorem Reachable.pendingFresh (h : Reachable s) : PendingFresh s.queue := by
  induction h with
  | run h => intro x hx; simp [(run_new h).1, Queue.new] at hx
  | step a r hs _ hst ih =>
    obtain ⟨s₁, h₁, rfl⟩ := System.step_eq_ok.1 hst
    exact (pendingFresh_transition (Reach.reachable hs).wf ih h₁ : PendingFresh s₁.queue)

/-! ## Workers -/

section Workers

variable {s : System} {i : ℕ} {p : Phase}

theorem worker_congr (hw : Wf s.queue) (hp : Pool s) {q : Queue}
    (hk : ∀ b < s.queue.next, q.keyAt b = s.queue.keyAt b) (j : ℕ) :
    (s.phase j).worker q = (s.phase j).worker s.queue := by
  rcases hj : s.phase j with _ | _ | _ | e
  iterate 3 rfl
  exact congrArg WorkerState.handling (hk e (hw.fresh_processing _ e (hp.handling j e hj)))

theorem workers_of_moveTo (hw : Wf s.queue) (hp : Pool s) {u : System}
    (hph : u.phase = (s.moveTo i p).phase)
    (hk : ∀ b < s.queue.next, u.queue.keyAt b = s.queue.keyAt b) :
    u.poolState.workers = Function.update s.poolState.workers i (p.worker u.queue) := by
  funext j
  simp only [System.poolState, hph, System.moveTo_phase]
  by_cases hj : j = i
  · subst hj; simp
  · rw [if_neg hj, Function.update_noteq hj]; exact worker_congr hw hp hk j

theorem moves (hw : Wf s.queue) (hp : Pool s) {w w' : WorkerState}
    (hi : (s.phase i).worker s.queue = w) {q : Queue} (hq : q.keyState = s.queue.keyState)
    (hk : ∀ b < s.queue.next, q.keyAt b = s.queue.keyAt b) (hw' : p.worker q = w') :
    Moves i w w' s.poolState ({ s.moveTo i p with queue := q } : System).poolState :=
  ⟨hi, hq, hw' ▸ workers_of_moveTo hw hp rfl hk⟩

theorem workers_not_dispatching (hp : Pool s) (hsem : s.queue.waitForNextItemSemaphore = false)
    (j : ℕ) : s.poolState.workers j ≠ .polling ∧ s.poolState.workers j ≠ .sleeping := by
  have hj : ¬(s.phase j).dispatching := fun h => by simpa [hsem] using (hp.semaphore j h).1
  simp only [System.poolState]
  cases hph : s.phase j <;> simp_all [Phase.worker, Phase.dispatching]

end Workers

theorem Queue.wait_not_due {q q' : Queue} {wall : ℤ} {head : Option ℤ} (hw : Wf q)
    (ho : Ordered q) (hg : q.getNextItem wall = (q', .wait head)) :
    ∀ k t n, q.keyState k = .pending t n → wall < t := by
  intro k t n hk
  obtain ⟨e', he', rfl⟩ := Queue.keyState_eq_pending hk
  have hmem := ((hw.pending k e').1 he').1
  rcases (Queue.getNextItem_wait hg).2 with ⟨hn, -⟩ | ⟨e, rest, he, hlt, -⟩
  · simp [hn] at hmem
  · obtain ⟨e₀, he₀, hle⟩ := head_le_of_sublist ho (List.Sublist.refl _) hmem
    simp only [he, List.head?_cons, Option.mem_def, Option.some.injEq] at he₀
    exact hlt.trans_le (he₀ ▸ hle)

/-! ## The refinement -/

/-- Every step of every reachable state of the pool is a step of `PoolStep`. -/
theorem step_refines (h : Reachable s) (hs : s.step a r = .ok s') :
    PoolStep r s.poolState s'.poolState a := by
  obtain ⟨s₁, h₁, rfl⟩ := System.step_eq_ok.1 hs
  have hw := h.wf
  have hp := h.pool
  show PoolStep r s.poolState s₁.poolState a
  cases a with
  | enqueue k | enqueueWithoutRateLimit k | enqueueWithoutRateLimitWithDelay k _ =>
    obtain ⟨q', hq, rfl⟩ := Except.map_eq_ok.1 h₁
    obtain ⟨⟨q', b⟩, hi, rfl⟩ := Except.map_eq_ok.1 hq
    exact ⟨funext (worker_congr hw hp (Queue.insert_frame hi).2.2.2.2.2),
      fun j hj => congrArg KeyView.state (Queue.view_insert_ne hw hi hj), Queue.insert_keyState hi⟩
  | forget k =>
    cases h₁
    exact ⟨funext (worker_congr hw hp fun b _ => Queue.forget_frame.2.2.2.2 b),
      fun j hj => congrArg KeyView.state (Queue.view_forget_ne hw hj), Queue.forget_keyState hw⟩
  | acquire i =>
    simp only [System.transition] at h₁
    split_ifs at h₁ with hc
    · cases h₁
      exact .inr ⟨workers_not_dispatching hp hc.2.2,
        moves hw hp (by rw [hc.2.1]; rfl) rfl (fun _ _ => rfl) rfl⟩
    · cases h₁; exact .inl rfl
  | poll i =>
    simp only [System.transition] at h₁
    split_ifs at h₁ with hc
    · rw [poolStep_poll (show (s.phase i).worker s.queue = .polling by rw [hc.2]; rfl)]
      split at h₁
      · -- the head is due: it is handed out
        rename_i q' e hg
        cases h₁
        obtain ⟨hpe, hdue, hmin, hin⟩ := Queue.dispatch_keyState hw h.ordered h.pendingFresh hg
        refine .inl ⟨_, _, _, hpe, hdue, hmin,
          fun j hj => congrArg KeyView.state (Queue.view_dispatch_ne hg (Ne.symm hj)), hin, ?_⟩
        obtain ⟨rest, -, -, rfl⟩ := Queue.getNextItem_dispatched hg
        exact workers_of_moveTo hw hp rfl fun _ _ => rfl
      · -- nothing is due: the worker sleeps
        rename_i q' head hg
        cases h₁
        exact .inr ⟨rfl, Queue.wait_not_due hw h.ordered hg,
          workers_of_moveTo (u := s.sleep i head r) hw hp rfl fun _ _ => rfl⟩
    · cases h₁
      refine (poolStep_poll_of_ne fun hpoll => hc ⟨?_, Phase.worker_eq_polling.1 hpoll⟩).2 rfl
      refine not_le.1 fun hle => ?_
      simp [System.poolState, h.dispatcher.idle_beyond i hle, Phase.worker] at hpoll
  | wakeup i | timer i =>
    simp only [System.transition] at h₁
    split at h₁
    · rename_i hsl
      split_ifs at h₁ <;> cases h₁
      · exact .inr (moves hw hp (by rw [hsl]; rfl) rfl (fun _ _ => rfl) rfl)
      · exact .inl rfl
    · cases h₁; exact .inl rfl
  | complete i failed =>
    simp only [System.transition] at h₁
    split at h₁
    · -- the handling worker completes its key
      rename_i e hph
      rw [poolStep_complete (show (s.phase i).worker s.queue = _ by rw [hph]; rfl),
        if_pos (hp.lt_workers hph)] at *
      obtain ⟨q', hq, rfl⟩ := Except.map_eq_ok.1 h₁
      have hpe := hp.handling i e hph
      exact ⟨fun j hj => congrArg KeyView.state (Queue.view_handleQueueItemObject_ne hw hpe hq hj),
        Queue.handleQueueItemObject_keyState hw hpe hq,
        workers_of_moveTo (u := { s.moveTo i .idle with queue := q' }) hw hp rfl
          (Queue.handleQueueItemObject_frame hq).2.2.2.1⟩
    · rename_i hne
      cases h₁
      refine (poolStep_complete_of_ne fun k hk => ?_).2 rfl
      obtain ⟨e, he, -⟩ := Phase.worker_eq_handling.1 hk
      exact hne e he

theorem poolState_of_run {name : String} {workers clock : ℤ}
    (hr : (Queue.new name).run workers clock = .ok s) : s.poolState = .init := by
  obtain ⟨hq, hph, -⟩ := run_new hr
  simp only [System.poolState, PoolState.init, hph, Phase.worker, PoolState.mk.injEq, and_true]
  funext k
  rw [hq]
  exact Queue.keyState_of_absent (AList.lookup_empty k) (AList.lookup_empty k)

theorem reachable_execute_refines {tr : List (Action × Reading)} (h : Reachable s)
    (he : s.execute tr = .ok s') : PoolRun s.poolState tr s'.poolState := by
  induction tr generalizing s with
  | nil => cases he; rfl
  | cons ar rest ih =>
    obtain ⟨a, r⟩ := ar
    simp only [System.execute] at he
    rcases hs : s.step a r with _ | s₁ <;> rw [hs] at he
    · cases he
    · exact ⟨_, step_refines h hs, ih (.step a r h trivial hs) he⟩

/-- Every run of `Run`'s pool on a `New` queue, under any readings and handler
results, is a run of the pool's states from all keys absent and all workers idle: an
enqueue or `Forget` moves only its own key, as `KeyState.insert` and `KeyState.forget`
say; a polling worker's poll hands out a key that is due by the wall clock and planned
no later than any pending key, putting it in flight with no mark, or sleeps when no key
is due; a handling worker's completion moves its key as `KeyState.complete` says and
leaves the worker idle; the semaphore, wakeup and timer steps move no key. -/
theorem run_refines {name : String} {workers clock : ℤ} {tr : List (Action × Reading)}
    (hr : (Queue.new name).run workers clock = .ok s) (he : s.execute tr = .ok s') :
    PoolRun .init tr s'.poolState :=
  poolState_of_run hr ▸ reachable_execute_refines (.run hr) he

/-- "a" and "b" are enqueued; "a" is handed out, enqueued again while in flight, fails,
and is handed out again ahead of "b". -/
def retryRun : List (Action × Reading) :=
  [(.enqueueWithoutRateLimit "a", ⟨0, 0, 0⟩),
    (.enqueueWithoutRateLimitWithDelay "b" (Duration.ofInt 5), ⟨0, 0, 0⟩),
    (.acquire 0, ⟨0, 0, 0⟩), (.poll 0, ⟨0, 0, 0⟩), (.enqueue "a", ⟨1, 1, 0⟩),
    (.complete 0 true, ⟨2, 2, 0⟩), (.acquire 0, ⟨2, 2, 0⟩), (.poll 0, ⟨2, 2, 0⟩)]

theorem run_refines_retry :
    ∃ s s', (Queue.new "q").run 1 0 = .ok s ∧ s.execute retryRun = .ok s' ∧
      PoolRun .init retryRun s'.poolState := by
  have hr : (Queue.new "q").run 1 0 = .ok ((Queue.new "q").start 1 0) := rfl
  obtain ⟨s', he⟩ : ∃ s', ((Queue.new "q").start 1 0).execute retryRun = .ok s' := ⟨_, rfl⟩
  exact ⟨_, s', hr, he, run_refines hr he⟩

end ClusterRouter
