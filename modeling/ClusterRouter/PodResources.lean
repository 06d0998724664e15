import Mathlib.Data.List.AList
import Mathlib.Algebra.Order.Ring.Rat
import Mathlib.Algebra.BigOperators.Group.List

/-!
# Summing a pod's resources

`PodRequestsAndLimits` folds the request and limit maps of a pod's containers into two
maps: app containers add up, init containers raise each resource to their own value,
and the pod overhead, when the `PodOverhead` feature is enabled, is added to every
request and to every non-zero limit. A `corev1.ResourceList` is an association list
whose order is the order a `range` visits it, and quantities are exact rationals.

Each pass of each loop touches one resource name, so at every name the result is a
fold of `Option.merge` over the containers' quantities for that name. From this come
the closed form (a sum, a maximum and the overhead) and its independence from the
order of the containers and of every map.
-/

set_option autoImplicit false

namespace ClusterRouter

/-- `corev1.ResourceList`: resource names to quantities; `entries` is the order in
which a `range` over the map visits the names. -/
abbrev ResourceList := AList (fun _ : String => ℚ)

/-- `corev1.ResourceRequirements`, with the two maps read here. -/
structure ResourceRequirements where
  requests : ResourceList
  limits : ResourceList

/-- `corev1.Container`, with the field read here. -/
structure Container where
  resources : ResourceRequirements

/-- `corev1.PodSpec`, with the fields read here; a nil `Overhead` map is `none`. -/
structure PodSpec where
  containers : List Container
  initContainers : List Container
  overhead : Option ResourceList

/-- `corev1.Pod`, with the field read here. -/
structure Pod where
  spec : PodSpec

/-- One pass of `addResourceList`'s loop. -/
def addResource (list : ResourceList) (name : String) (quantity : ℚ) : ResourceList :=
  match list.lookup name with
  | none => list.insert name quantity
  | some value => list.insert name (value + quantity)

/-- `addResourceList`: adds the resources in `newList` to `list`. -/
def addResourceList (list newList : ResourceList) : ResourceList :=
  newList.entries.foldl (fun list e => addResource list e.1 e.2) list

/-- One pass of `maxResourceList`'s loop. -/
def maxResource (list : ResourceList) (name : String) (quantity : ℚ) : ResourceList :=
  match list.lookup name with
  | none => list.insert name quantity
  | some value => if value < quantity then list.insert name quantity else list

/-- `maxResourceList`: sets `list` to the greater of `list` and `new` for every
resource either lists. -/
def maxResourceList (list new : ResourceList) : ResourceList :=
  new.entries.foldl (fun list e => maxResource list e.1 e.2) list

/-- One pass of `PodRequestsAndLimits`' loop over the overhead: a present, non-zero
limit grows by the overhead's quantity. -/
def addOverheadLimit (limits : ResourceList) (name : String) (quantity : ℚ) : ResourceList :=
  match limits.lookup name with
  | some value => if value ≠ 0 then limits.insert name (value + quantity) else limits
  | none => limits

/-- `PodRequestsAndLimits`; `podOverhead` is whether the `PodOverhead` feature gate
is enabled. -/
def podRequestsAndLimits (podOverhead : Bool) (pod : Pod) : ResourceList × ResourceList :=
  let rl := pod.spec.containers.foldl (fun (rl : ResourceList × ResourceList) container =>
    (addResourceList rl.1 container.resources.requests,
      addResourceList rl.2 container.resources.limits)) (∅, ∅)
  -- init containers define the minimum of any resource
  let rl := pod.spec.initContainers.foldl (fun (rl : ResourceList × ResourceList) container =>
    (maxResourceList rl.1 container.resources.requests,
      maxResourceList rl.2 container.resources.limits)) rl
  match pod.spec.overhead with
  | some overhead =>
    if podOverhead then
      (addResourceList rl.1 overhead,
        overhead.entries.foldl (fun limits e => addOverheadLimit limits e.1 e.2) rl.2)
    else rl
  | none => rl

/-! ## One resource name at a time -/

section Lookup

variable {list newList : ResourceList} {name r : String} {quantity : ℚ}

theorem addResource_lookup : (addResource list name quantity).lookup r =
    if r = name then Option.merge (· + ·) (list.lookup r) (some quantity) else list.lookup r := by
  unfold addResource
  by_cases hr : r = name
  · subst hr
    split <;> simp_all [Option.merge]
  · split <;> simp [hr, AList.lookup_insert_ne hr]

theorem maxResource_lookup : (maxResource list name quantity).lookup r =
    if r = name then Option.merge max (list.lookup r) (some quantity) else list.lookup r := by
  unfold maxResource
  by_cases hr : r = name
  · subst hr
    rw [if_pos rfl]
    split
    · simp_all [Option.merge]
    · rename_i value hv
      split_ifs with hq
      · simp [hv, Option.merge, max_eq_right hq.le]
      · simp [hv, Option.merge, max_eq_left (not_lt.1 hq)]
  · split <;> (try split_ifs) <;> simp [hr, AList.lookup_insert_ne hr]

theorem addOverheadLimit_lookup : (addOverheadLimit list name quantity).lookup r =
    if r = name then (list.lookup r).map (fun v => if v ≠ 0 then v + quantity else v)
    else list.lookup r := by
  unfold addOverheadLimit
  by_cases hr : r = name
  · subst hr
    split
    · split_ifs <;> simp_all
    · simp_all
  · split <;> (try split_ifs) <;> simp [hr, AList.lookup_insert_ne hr]

theorem lookup_foldl {f : ResourceList → String → ℚ → ResourceList}
    {u : Option ℚ → ℚ → Option ℚ}
    (hf : ∀ list name quantity r, (f list name quantity).lookup r =
      if r = name then u (list.lookup r) quantity else list.lookup r)
    (newList list : ResourceList) (r : String) :
    (newList.entries.foldl (fun list e => f list e.1 e.2) list).lookup r =
      (newList.lookup r).elim (list.lookup r) (u (list.lookup r)) := by
  obtain ⟨es, hes⟩ := newList
  show (es.foldl _ list).lookup r = (es.dlookup r).elim _ _
  induction es generalizing list with
  | nil => rfl
  | cons e es ih =>
    obtain ⟨k, v⟩ := e
    obtain ⟨hk, hes⟩ := List.nodupKeys_cons.1 hes
    rw [List.foldl_cons, ih _ hes, hf]
    by_cases hr : r = k
    · subst hr; simp [List.dlookup_eq_none.2 hk]
    · simp [hr, List.dlookup_cons_ne es (⟨k, v⟩ : Σ _ : String, ℚ) hr]

@[simp] theorem addResourceList_lookup :
    (addResourceList list newList).lookup r =
      Option.merge (· + ·) (list.lookup r) (newList.lookup r) := by
  rw [addResourceList, lookup_foldl (u := fun o q => Option.merge (· + ·) o (some q))
    (fun _ _ _ _ => addResource_lookup)]
  cases newList.lookup r <;> cases list.lookup r <;> rfl

@[simp] theorem maxResourceList_lookup :
    (maxResourceList list newList).lookup r =
      Option.merge max (list.lookup r) (newList.lookup r) := by
  rw [maxResourceList, lookup_foldl (u := fun o q => Option.merge max o (some q))
    (fun _ _ _ _ => maxResource_lookup)]
  cases newList.lookup r <;> cases list.lookup r <;> rfl

theorem overheadLimits_lookup :
    (newList.entries.foldl (fun limits e => addOverheadLimit limits e.1 e.2) list).lookup r =
      (list.lookup r).map (fun v => if v ≠ 0 then v + (newList.lookup r).getD 0 else v) := by
  rw [lookup_foldl (u := fun o q => o.map (fun v => if v ≠ 0 then v + q else v))
    (fun _ _ _ _ => addOverheadLimit_lookup)]
  cases newList.lookup r <;> simp

theorem lookup_foldl_merge {g : ResourceList → ResourceList → ResourceList}
    {op : ℚ → ℚ → ℚ}
    (hg : ∀ list newList r, (g list newList).lookup r =
      Option.merge op (list.lookup r) (newList.lookup r))
    (ls : List ResourceList) (list : ResourceList) (r : String) :
    (ls.foldl g list).lookup r = (ls.map (·.lookup r)).foldl (Option.merge op) (list.lookup r) := by
  induction ls generalizing list with
  | nil => rfl
  | cons l ls ih => simp [ih, hg]

end Lookup

/-! ## Folds of `Option.merge` -/

section Merge

variable {op : ℚ → ℚ → ℚ}

@[simp] theorem merge_none_left (x : Option ℚ) : Option.merge op none x = x := by
  cases x <;> rfl

@[simp] theorem merge_none_right (x : Option ℚ) : Option.merge op x none = x := by
  cases x <;> rfl

@[simp] theorem isSome_merge (x y : Option ℚ) :
    (Option.merge op x y).isSome ↔ x.isSome ∨ y.isSome := by
  cases x <;> cases y <;> simp [Option.merge]

theorem isSome_foldl_merge (os : List (Option ℚ)) (init : Option ℚ) :
    (os.foldl (Option.merge op) init).isSome ↔ init.isSome ∨ ∃ o ∈ os, o.isSome := by
  induction os generalizing init with
  | nil => simp
  | cons o os ih =>
    rw [List.foldl_cons, ih]
    cases init <;> cases o <;> simp [Option.merge]

variable [Std.Associative op]

theorem foldl_merge {R : List ℚ → Option ℚ} (hnil : R [] = none)
    (hcons : ∀ x xs, R (x :: xs) = some ((R xs).elim x (op x)))
    (os : List (Option ℚ)) (init : Option ℚ) :
    os.foldl (Option.merge op) init = Option.merge op init (R (os.filterMap id)) := by
  induction os generalizing init with
  | nil => cases init <;> simp [hnil, Option.merge]
  | cons o os ih =>
    rw [List.foldl_cons, ih]
    cases o with
    | none => cases init <;> rfl
    | some x =>
      rw [show (some x :: os).filterMap id = x :: os.filterMap id from rfl, hcons]
      cases init <;> cases R (os.filterMap id) <;>
        simp only [Option.merge, Option.elim, Std.Associative.assoc]

variable [Std.Commutative op]

theorem merge_right_comm (z x y : Option ℚ) :
    Option.merge op (Option.merge op z x) y = Option.merge op (Option.merge op z y) x := by
  cases z <;> cases x <;> cases y <;> simp only [Option.merge] <;> ac_rfl

theorem foldl_merge_perm {l₁ l₂ : List (Option ℚ)} (hp : l₁.Perm l₂) (init : Option ℚ) :
    l₁.foldl (Option.merge op) init = l₂.foldl (Option.merge op) init :=
  hp.foldl_eq' (fun x _ y _ z => merge_right_comm z x y) init

end Merge

def sum? : List ℚ → Option ℚ
  | [] => none
  | q :: qs => some (q :: qs).sum

theorem sum?_cons (x : ℚ) (xs : List ℚ) : sum? (x :: xs) = some ((sum? xs).elim x (x + ·)) := by
  cases xs <;> simp [sum?]

/-! ## The closed form -/

/-- `reqs[r]` as the containers determine it: the larger of the app containers' sum
and the init containers' maximum, each left out when no container lists `r`, plus
the overhead's quantity when there is one. -/
def expectedRequest (r : String) (apps inits : List ResourceList)
    (overhead : Option ResourceList) : Option ℚ :=
  Option.merge (· + ·)
    (Option.merge max (sum? (apps.filterMap (·.lookup r))) (inits.filterMap (·.lookup r)).max?)
    (overhead.bind (·.lookup r))

/-- `limits[r]` likewise, except that the overhead's quantity is only added to a
non-zero limit and never creates one. -/
def expectedLimit (r : String) (apps inits : List ResourceList)
    (overhead : Option ResourceList) : Option ℚ :=
  (Option.merge max (sum? (apps.filterMap (·.lookup r))) (inits.filterMap (·.lookup r)).max?).map
    fun v => if v ≠ 0 then v + ((overhead.bind (·.lookup r)).getD 0) else v

/-- A container's request and limit for one resource name. -/
def Container.quantities (r : String) (c : Container) : Option ℚ × Option ℚ :=
  (c.resources.requests.lookup r, c.resources.limits.lookup r)

/-- The overhead `PodRequestsAndLimits` applies: the pod's, when the feature is enabled. -/
def Pod.appliedOverhead (podOverhead : Bool) (pod : Pod) : Option ResourceList :=
  if podOverhead then pod.spec.overhead else none

theorem foldl_pair {γ : Type} (f g : ResourceList → ResourceList → ResourceList)
    (sf sg : γ → ResourceList) (l : List γ) (p : ResourceList × ResourceList) :
    l.foldl (fun (p : ResourceList × ResourceList) c => (f p.1 (sf c), g p.2 (sg c))) p =
      ((l.map sf).foldl f p.1, (l.map sg).foldl g p.2) := by
  induction l generalizing p with
  | nil => rfl
  | cons c l ih => exact ih _

theorem podRequestsAndLimits_lookup (podOverhead : Bool) (pod : Pod) (r : String) :
    let apps := pod.spec.containers.map (Container.quantities r)
    let inits := pod.spec.initContainers.map (Container.quantities r)
    let overhead := (pod.appliedOverhead podOverhead).bind (·.lookup r)
    (podRequestsAndLimits podOverhead pod).1.lookup r =
      Option.merge (· + ·) ((inits.map Prod.fst).foldl (Option.merge max)
        ((apps.map Prod.fst).foldl (Option.merge (· + ·)) none)) overhead ∧
    (podRequestsAndLimits podOverhead pod).2.lookup r =
      ((inits.map Prod.snd).foldl (Option.merge max)
        ((apps.map Prod.snd).foldl (Option.merge (· + ·)) none)).map
          (fun v => if v ≠ 0 then v + overhead.getD 0 else v) := by
  have hadd := lookup_foldl_merge (fun _ _ _ => addResourceList_lookup)
  have hmax := lookup_foldl_merge (fun _ _ _ => maxResourceList_lookup)
  simp only [podRequestsAndLimits, foldl_pair, Pod.appliedOverhead]
  cases pod.spec.overhead <;> cases podOverhead <;>
    simp only [hmax, hadd, addResourceList_lookup, overheadLimits_lookup, AList.lookup_empty,
      List.map_map, Function.comp_def, Container.quantities, Bool.false_eq_true, ↓reduceIte,
      Option.none_bind, Option.some_bind, merge_none_right, ne_eq, Option.getD_none, add_zero,
      ite_self, Option.map_id_fun', id_eq, ite_not, and_self]

theorem foldl_sum_max (apps inits : List (Option ℚ)) :
    inits.foldl (Option.merge max) (apps.foldl (Option.merge (· + ·)) none) =
      Option.merge max (sum? (apps.filterMap id)) (inits.filterMap id).max? := by
  rw [foldl_merge (R := List.max?) rfl fun _ _ => List.max?_cons,
    foldl_merge (R := sum?) rfl sum?_cons, merge_none_left]

/-- For every pod and every resource name `r`: `reqs` lists `r` exactly when an app
container, an init container or the applied overhead does, and then holds the larger
of the app containers' sum and the init containers' maximum, plus the overhead;
`limits` lists `r` exactly when a container does, with the overhead added to a
non-zero limit only. Both depend on the containers only through their quantities
for `r` taken in any order, and on no map's iteration order. -/
theorem podRequestsAndLimits_spec (podOverhead : Bool) (pod : Pod) (r : String) :
    let reqs := (podRequestsAndLimits podOverhead pod).1
    let limits := (podRequestsAndLimits podOverhead pod).2
    let apps := pod.spec.containers.map (·.resources)
    let inits := pod.spec.initContainers.map (·.resources)
    (r ∈ reqs ↔ (∃ c ∈ apps, r ∈ c.requests) ∨ (∃ c ∈ inits, r ∈ c.requests) ∨
      podOverhead = true ∧ ∃ o, pod.spec.overhead = some o ∧ r ∈ o) ∧
    reqs.lookup r = expectedRequest r (apps.map (·.requests)) (inits.map (·.requests))
      (pod.appliedOverhead podOverhead) ∧
    (r ∈ limits ↔ (∃ c ∈ apps, r ∈ c.limits) ∨ (∃ c ∈ inits, r ∈ c.limits)) ∧
    limits.lookup r = expectedLimit r (apps.map (·.limits)) (inits.map (·.limits))
      (pod.appliedOverhead podOverhead) ∧
    ∀ pod' : Pod, (pod'.spec.containers.map (Container.quantities r)).Perm
        (pod.spec.containers.map (Container.quantities r)) →
      (pod'.spec.initContainers.map (Container.quantities r)).Perm
        (pod.spec.initContainers.map (Container.quantities r)) →
      (pod'.appliedOverhead podOverhead).bind (·.lookup r) =
        (pod.appliedOverhead podOverhead).bind (·.lookup r) →
      (podRequestsAndLimits podOverhead pod').1.lookup r = reqs.lookup r ∧
        (podRequestsAndLimits podOverhead pod').2.lookup r = limits.lookup r := by
  intro reqs limits apps inits
  obtain ⟨hreqs, hlimits⟩ := podRequestsAndLimits_lookup podOverhead pod r
  refine ⟨?_, ?_, ?_, ?_, fun pod' hc hi ho => ?_⟩
  · rw [← AList.lookup_isSome, hreqs, Pod.appliedOverhead]
    cases podOverhead <;> cases pod.spec.overhead <;>
      simp only [List.map_map, Bool.false_eq_true, ↓reduceIte, Option.none_bind, Option.some_bind,
        merge_none_right, isSome_merge, isSome_foldl_merge, Option.isSome_none, List.mem_map,
        Function.comp_apply, Container.quantities, exists_exists_and_eq_and, AList.lookup_isSome,
        false_or, reduceCtorEq, false_and, exists_const, and_self, or_false, Option.some.injEq,
        exists_eq_left', true_and, or_assoc, apps, inits]
  · rw [hreqs, foldl_sum_max]
    simp only [List.map_map, Function.comp_def, Container.quantities, List.filterMap_map, id_eq,
      expectedRequest, apps, inits]
  · rw [← AList.lookup_isSome, hlimits]
    simp only [ne_eq, ite_not, List.map_map, Option.isSome_map', isSome_foldl_merge,
      Option.isSome_none, Bool.false_eq_true, List.mem_map, Function.comp_apply, Container.quantities,
      exists_exists_and_eq_and, AList.lookup_isSome, false_or, apps, inits]
  · rw [hlimits, foldl_sum_max]
    simp only [ne_eq, ite_not, List.map_map, Function.comp_def, Container.quantities,
      List.filterMap_map, id_eq, expectedLimit, apps, inits]
  · obtain ⟨hreqs', hlimits'⟩ := podRequestsAndLimits_lookup podOverhead pod' r
    rw [hreqs', hlimits', hreqs, hlimits, ho, foldl_merge_perm (hc.map Prod.fst),
      foldl_merge_perm (hi.map Prod.fst), foldl_merge_perm (hc.map Prod.snd),
      foldl_merge_perm (hi.map Prod.snd)]
    exact ⟨rfl, rfl⟩

/-! ## The pod covers its parts -/

/-- A quantity, when present, is not negative. -/
def NonNeg (x : Option ℚ) : Prop := ∀ q ∈ x, 0 ≤ q

/-- `y` holds at least what `x` holds: present wherever `x` is, and no smaller. -/
def AtMost (x y : Option ℚ) : Prop := ∀ q ∈ x, ∃ p ∈ y, q ≤ p

theorem AtMost.refl (x : Option ℚ) : AtMost x x := fun q h => ⟨q, h, le_rfl⟩

theorem AtMost.trans {x y z : Option ℚ} (hxy : AtMost x y) (hyz : AtMost y z) : AtMost x z :=
  fun q hq =>
    let ⟨p, hp, hqp⟩ := hxy q hq
    let ⟨o, ho, hpo⟩ := hyz p hp
    ⟨o, ho, hqp.trans hpo⟩

theorem NonNeg.getD_nonneg {x : Option ℚ} (hx : NonNeg x) : 0 ≤ x.getD 0 := by
  cases x with
  | none => exact le_rfl
  | some q => exact hx q rfl

theorem AtMost.map {x : Option ℚ} {f : ℚ → ℚ} (hf : ∀ q ∈ x, q ≤ f q) : AtMost x (x.map f) :=
  fun q hq => ⟨f q, Option.mem_map_of_mem f hq, hf q hq⟩

section Grow

-- An operation that keeps quantities non-negative and is at least each of its
-- non-negative arguments: `+` and `max`.
variable {op : ℚ → ℚ → ℚ} (hnn : ∀ a b, 0 ≤ a → 0 ≤ b → 0 ≤ op a b)
  (hle : ∀ a b, 0 ≤ a → 0 ≤ b → a ≤ op a b ∧ b ≤ op a b)

include hnn hle

theorem merge_grows {x y : Option ℚ} (hx : NonNeg x) (hy : NonNeg y) :
    NonNeg (Option.merge op x y) ∧ AtMost x (Option.merge op x y) ∧
      AtMost y (Option.merge op x y) := by
  cases x <;> cases y <;> simp_all [NonNeg, AtMost, Option.merge]

theorem foldl_merge_grows {os : List (Option ℚ)} {init : Option ℚ}
    (hos : ∀ o ∈ os, NonNeg o) (hi : NonNeg init) :
    NonNeg (os.foldl (Option.merge op) init) ∧ AtMost init (os.foldl (Option.merge op) init) ∧
      ∀ o ∈ os, AtMost o (os.foldl (Option.merge op) init) := by
  induction os generalizing init with
  | nil => exact ⟨hi, .refl _, by simp⟩
  | cons o os ih =>
    obtain ⟨hm, hinit, ho⟩ := merge_grows hnn hle hi (hos o (.head _))
    obtain ⟨hf, hmf, hrest⟩ := ih (fun o' h => hos o' (.tail _ h)) hm
    exact ⟨hf, hinit.trans hmf, List.forall_mem_cons.2 ⟨ho.trans hmf, hrest⟩⟩

end Grow

theorem foldl_sum_max_grows (f : Container → Option ℚ) {apps inits : List Container}
    (h : ∀ c ∈ apps ++ inits, NonNeg (f c)) :
    let m := (inits.map f).foldl (Option.merge max) ((apps.map f).foldl (Option.merge (· + ·)) none)
    NonNeg m ∧ ∀ c ∈ apps ++ inits, AtMost (f c) m := by
  have hadd := @foldl_merge_grows (· + ·) (fun _ _ => add_nonneg)
    (fun _ _ ha hb => ⟨le_add_of_nonneg_right hb, le_add_of_nonneg_left ha⟩) _ _
    (List.forall_mem_map.2 fun c hc => h c (List.mem_append_left _ hc))
    (fun _ h => absurd h (Option.not_mem_none _))
  have hmax := @foldl_merge_grows max (fun _ _ ha _ => le_max_of_le_left ha)
    (fun _ _ _ _ => ⟨le_max_left _ _, le_max_right _ _⟩) _ _
    (List.forall_mem_map.2 fun c hc => h c (List.mem_append_right _ hc)) hadd.1
  refine ⟨hmax.1, fun c hc => ?_⟩
  rcases List.mem_append.1 hc with hc | hc
  · exact (hadd.2.2 _ (List.mem_map_of_mem f hc)).trans hmax.2.1
  · exact hmax.2.2 _ (List.mem_map_of_mem f hc)

/-- When no container and not the applied overhead lists a negative quantity for `r`,
the pod's request for `r` is at least every container's request and the overhead's
quantity, and its limit for `r` at least every container's limit: the sums, maxima
and overhead never leave a part of the pod uncovered. -/
theorem podRequestsAndLimits_covers (podOverhead : Bool) (pod : Pod) (r : String)
    (hc : ∀ c ∈ pod.spec.containers ++ pod.spec.initContainers,
      NonNeg (c.quantities r).1 ∧ NonNeg (c.quantities r).2)
    (ho : NonNeg ((pod.appliedOverhead podOverhead).bind (·.lookup r))) :
    let reqs := (podRequestsAndLimits podOverhead pod).1.lookup r
    let limits := (podRequestsAndLimits podOverhead pod).2.lookup r
    (∀ c ∈ pod.spec.containers ++ pod.spec.initContainers,
      AtMost (c.quantities r).1 reqs ∧ AtMost (c.quantities r).2 limits) ∧
    AtMost ((pod.appliedOverhead podOverhead).bind (·.lookup r)) reqs := by
  obtain ⟨hreqs, hlimits⟩ := podRequestsAndLimits_lookup podOverhead pod r
  simp only [List.map_map] at hreqs hlimits
  dsimp only
  rw [hreqs, hlimits]
  obtain ⟨hreq, hreqc⟩ := foldl_sum_max_grows (Prod.fst ∘ Container.quantities r) fun c h =>
    (hc c h).1
  obtain ⟨-, hlimc⟩ := foldl_sum_max_grows (Prod.snd ∘ Container.quantities r) fun c h =>
    (hc c h).2
  have hover := merge_grows (fun _ _ => add_nonneg)
    (fun _ _ ha hb => ⟨le_add_of_nonneg_right hb, le_add_of_nonneg_left ha⟩) hreq ho
  refine ⟨fun c h => ⟨(hreqc c h).trans hover.2.1,
    (hlimc c h).trans (AtMost.map fun v _ => ?_)⟩, hover.2.2⟩
  split_ifs
  exacts [le_add_of_nonneg_right ho.getD_nonneg, le_rfl]

theorem podRequestsAndLimits_covers_overhead :
    let pod : Pod := ⟨⟨[⟨⟨AList.singleton "cpu" 1, AList.singleton "cpu" 2⟩⟩],
      [⟨⟨AList.singleton "cpu" 3, AList.singleton "cpu" 4⟩⟩], some (AList.singleton "cpu" 1)⟩⟩
    (∀ c ∈ pod.spec.containers ++ pod.spec.initContainers,
      NonNeg (c.quantities "cpu").1 ∧ NonNeg (c.quantities "cpu").2) ∧
    NonNeg ((pod.appliedOverhead true).bind (·.lookup "cpu")) ∧
    (∀ c ∈ pod.spec.containers ++ pod.spec.initContainers,
      AtMost (c.quantities "cpu").1 ((podRequestsAndLimits true pod).1.lookup "cpu") ∧
      AtMost (c.quantities "cpu").2 ((podRequestsAndLimits true pod).2.lookup "cpu")) ∧
    AtMost ((pod.appliedOverhead true).bind (·.lookup "cpu"))
      ((podRequestsAndLimits true pod).1.lookup "cpu") := by
  intro pod
  have hc : ∀ c ∈ pod.spec.containers ++ pod.spec.initContainers,
      NonNeg (c.quantities "cpu").1 ∧ NonNeg (c.quantities "cpu").2 := by
    simp only [pod, NonNeg, Container.quantities, AList.lookup, AList.singleton_entries]
    decide
  have ho : NonNeg ((pod.appliedOverhead true).bind (·.lookup "cpu")) := by
    simp [pod, NonNeg, Pod.appliedOverhead, AList.lookup, AList.singleton_entries]
  exact ⟨hc, ho, podRequestsAndLimits_covers true pod "cpu" hc ho⟩

end ClusterRouter
