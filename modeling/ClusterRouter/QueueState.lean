import Mathlib.Data.List.AList
import Mathlib.Data.List.Sort

/-!
# The state of the work queue

`pkg/utils/queue` keeps pending keys in a doubly linked list `items`, indexes them
by key in `itemsInQueue`, and moves a key to `itemsBeingProcessed` while a worker
runs its handler. All three point at `queueItem` records. Pointers are addresses
into `heap`; a `list.Element` is named by the address of the item it carries,
since the two are created together and never separated while in the list.
-/

set_option autoImplicit false

namespace ClusterRouter

/-! A `time.Time` is an integer count of nanoseconds after Go's zero `Time`, so
`IsZero` is `= 0`, `Before` is `<`, `After` is `>` and `Add` is `+`. -/

/-- `time.Duration`: nanoseconds held in an `int64`. -/
structure Duration where
  ns : ℤ
  min_le : -9223372036854775808 ≤ ns
  le_max : ns ≤ 9223372036854775807
  deriving DecidableEq

/-- A difference of times as a `Duration`, saturated at the bounds of `int64`
as `Time.Sub` does. -/
def Duration.ofInt (d : ℤ) : Duration :=
  ⟨max (-9223372036854775808) (min d 9223372036854775807), le_max_left _ _,
    max_le (by decide) (min_le_right _ _)⟩

instance : Zero Duration := ⟨⟨0, by decide, by decide⟩⟩

@[simp] theorem Duration.zero_ns : (0 : Duration).ns = 0 := rfl

/-- `time.Until(t)` when the wall clock reads `wall`. -/
def timeUntil (t wall : ℤ) : Duration := Duration.ofInt (t - wall)

theorem timeUntil_nonpos {t wall : ℤ} : (timeUntil t wall).ns ≤ 0 ↔ t ≤ wall := by
  simp only [timeUntil, Duration.ofInt]
  rw [Int.max_le, Int.min_def]
  split_ifs <;> omega

theorem le_timeUntil {t wall : ℤ} (h : t - wall ≤ 9223372036854775807) :
    t - wall ≤ (timeUntil t wall).ns := by
  simp only [timeUntil, Duration.ofInt]
  rw [min_eq_left h]
  exact le_max_right _ _

/-- `queueItem`, with Go's zero values as defaults. -/
structure QueueItem where
  key : String := ""
  plannedToStartWorkAt : ℤ := 0
  redirtiedAt : ℤ := 0
  redirtiedWithRatelimit : Bool := false
  forget : Bool := false
  requeues : ℤ := 0
  originallyAdded : ℤ := 0
  addedViaRedirty : Bool := false
  delayedViaRateLimit : Option Duration := none
  deriving DecidableEq

instance : Inhabited QueueItem := ⟨{}⟩

/-- The spans the queue starts, with the key each is tagged with. -/
inductive Span
  | insert (key : String)
  | forget (key : String)
  | handleQueueItem (key : String)
  deriving DecidableEq

/-- `Queue`. The clock, rate limiter and handler are the environment's: their
readings and results are inputs of each step. `spans` lists the spans started so
far, the latest first. -/
structure Queue where
  running : Bool
  name : String
  items : List ℕ
  itemsInQueue : AList (fun _ : String => ℕ)
  itemsBeingProcessed : AList (fun _ : String => ℕ)
  waitForNextItemSemaphore : Bool
  wakeupCh : Bool
  heap : ℕ → QueueItem
  next : ℕ
  spans : List Span

theorem AList.lookup_insert_eq_some {β : Type} {l : AList (fun _ : String => β)}
    {k k' : String} {v a : β} :
    (l.insert k' v).lookup k = some a ↔ k = k' ∧ v = a ∨ k ≠ k' ∧ l.lookup k = some a := by
  by_cases hk : k = k'
  · subst hk; simp [AList.lookup_insert]
  · simp [AList.lookup_insert_ne hk, hk]

/-- `New`. -/
def Queue.new (name : String) : Queue where
  running := false
  name := name
  items := []
  itemsInQueue := ∅
  itemsBeingProcessed := ∅
  waitForNextItemSemaphore := false
  wakeupCh := false
  heap := fun _ => {}
  next := 0
  spans := []

namespace Queue

variable (q : Queue)

def keyAt (a : ℕ) : String := (q.heap a).key

def plannedAt (a : ℕ) : ℤ := (q.heap a).plannedToStartWorkAt

/-- A write through the pointer `a`. -/
def modify (a : ℕ) (f : QueueItem → QueueItem) : Queue :=
  { q with heap := Function.update q.heap a (f (q.heap a)) }

/-- The deferred non-blocking send on the capacity-1 `wakeupCh`. -/
def wakeup : Queue := { q with wakeupCh := true }

/-- A span started with key tag `s`. -/
def span (s : Span) : Queue := { q with spans := s :: q.spans }

variable {q} {a b : ℕ} {f : QueueItem → QueueItem} {s : Span}

@[simp] theorem modify_heap : (q.modify a f).heap b = if b = a then f (q.heap a) else q.heap b := by
  by_cases h : b = a <;> simp [modify, h]

@[simp] theorem modify_items : (q.modify a f).items = q.items := rfl
@[simp] theorem modify_itemsInQueue : (q.modify a f).itemsInQueue = q.itemsInQueue := rfl
@[simp] theorem modify_itemsBeingProcessed :
    (q.modify a f).itemsBeingProcessed = q.itemsBeingProcessed := rfl
@[simp] theorem modify_next : (q.modify a f).next = q.next := rfl
@[simp] theorem modify_spans : (q.modify a f).spans = q.spans := rfl
@[simp] theorem modify_wakeupCh : (q.modify a f).wakeupCh = q.wakeupCh := rfl
@[simp] theorem modify_waitForNextItemSemaphore :
    (q.modify a f).waitForNextItemSemaphore = q.waitForNextItemSemaphore := rfl

@[simp] theorem wakeup_heap : q.wakeup.heap = q.heap := rfl
@[simp] theorem wakeup_items : q.wakeup.items = q.items := rfl
@[simp] theorem wakeup_itemsInQueue : q.wakeup.itemsInQueue = q.itemsInQueue := rfl
@[simp] theorem wakeup_itemsBeingProcessed :
    q.wakeup.itemsBeingProcessed = q.itemsBeingProcessed := rfl
@[simp] theorem wakeup_next : q.wakeup.next = q.next := rfl
@[simp] theorem wakeup_spans : q.wakeup.spans = q.spans := rfl
@[simp] theorem wakeup_wakeupCh : q.wakeup.wakeupCh = true := rfl
@[simp] theorem wakeup_waitForNextItemSemaphore :
    q.wakeup.waitForNextItemSemaphore = q.waitForNextItemSemaphore := rfl

@[simp] theorem span_heap : (q.span s).heap = q.heap := rfl
@[simp] theorem span_items : (q.span s).items = q.items := rfl
@[simp] theorem span_itemsInQueue : (q.span s).itemsInQueue = q.itemsInQueue := rfl
@[simp] theorem span_itemsBeingProcessed :
    (q.span s).itemsBeingProcessed = q.itemsBeingProcessed := rfl
@[simp] theorem span_next : (q.span s).next = q.next := rfl
@[simp] theorem span_spans : (q.span s).spans = s :: q.spans := rfl
@[simp] theorem span_wakeupCh : (q.span s).wakeupCh = q.wakeupCh := rfl
@[simp] theorem span_waitForNextItemSemaphore :
    (q.span s).waitForNextItemSemaphore = q.waitForNextItemSemaphore := rfl

theorem keyAt_modify (hf : ∀ i, (f i).key = i.key) (b : ℕ) : (q.modify a f).keyAt b = q.keyAt b := by
  by_cases h : b = a <;> simp [keyAt, h, hf]

theorem plannedAt_modify (hf : ∀ i, (f i).plannedToStartWorkAt = i.plannedToStartWorkAt) (b : ℕ) :
    (q.modify a f).plannedAt b = q.plannedAt b := by
  by_cases h : b = a <;> simp [plannedAt, h, hf]

theorem heap_modify_of {P : QueueItem → Prop} (hP : ∀ b, P (q.heap b)) (hf : P (f (q.heap a)))
    (b : ℕ) : P ((q.modify a f).heap b) := by
  rw [modify_heap]; split_ifs; exacts [hf, hP b]

end Queue

/-- The backward scans of `insert` and `adjustPosition`. `rev` is the list read
from its back (`Back`, then `Prev`); `x` goes right behind the first element that
`before` accepts, or to the front (`PushFront`, `MoveToFront`) when none does.
The result is read from the back as well. -/
def scanBack (before : ℕ → Bool) (x : ℕ) : List ℕ → List ℕ
  | [] => [x]
  | y :: ys => if before y then x :: y :: ys else y :: scanBack before x ys

theorem scanBack_eq (before : ℕ → Bool) (x : ℕ) (rev : List ℕ) :
    scanBack before x rev =
      rev.takeWhile (fun y => !before y) ++ x :: rev.dropWhile (fun y => !before y) := by
  induction rev with
  | nil => rfl
  | cons y ys ih => by_cases h : before y <;> simp [scanBack, h, ih]

theorem scanBack_perm (before : ℕ → Bool) (x : ℕ) (rev : List ℕ) :
    (scanBack before x rev).Perm (x :: rev) := by
  rw [scanBack_eq]
  conv_rhs => rw [← List.takeWhile_append_dropWhile (fun y => !before y) rev]
  exact List.perm_middle

theorem scanBack_filter {f : ℕ → Bool} {before : ℕ → Bool} {x : ℕ} (hx : f x = false)
    (rev : List ℕ) : (scanBack before x rev).filter f = rev.filter f := by
  induction rev with
  | nil => simp [scanBack, hx]
  | cons y ys ih => by_cases h : before y <;> simp [scanBack, h, hx, ih, List.filter_cons]

end ClusterRouter
