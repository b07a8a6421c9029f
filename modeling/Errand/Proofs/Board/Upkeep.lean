import Errand.Proofs.Board.Links

namespace Errand.Board

variable {b b' : Board} {s : PoolId} {t : TaskId} {x : Task} {p : Pool}

theorem scheduled_touches (b : Board) (s : PoolId) (t : TaskId) (priority : Int32) :
    Touches t b (b.scheduled s t priority) :=
  (touches_mapPool b s _ (fun p ↦ p.others_insertAt _ t) fun _ ↦ rfl).trans (touches_mapTask _ t _)

theorem Linked.schedule (h : b.Linked) (hx : b.tasks[t]? = some x) (hend : x.terminated = false)
    (hp : b.pool? s = some p) (hs : x.pools.contains s = false) :
    (b.scheduled s t x.priority).Linked := by
  have hprio : ∀ y ∈ b.tasks[t]?, y.priority = x.priority := by
    intro y hy
    cases hx.symm.trans hy
    rfl
  have ht := scheduled_touches b s t x.priority
  refine h.of_change ht hx (getElem?_scheduled hx s _) ?_ (fun s' _ ↦ ?_) (.inl rfl)
  · have hcount : (p.enqueue (b.staysAhead x.priority) t).waiting.count t = b.waits t s + 1 := by
      rw [Pool.enqueue, Pool.count_insertAt, waits_of_pool? hp]
    exact (h.fits_some hx).schedule hend hs (waits_mapPool hp hcount)
      fun s' ↦ holds_mapPool_same s' fun _ ↦ rfl
  · have hon : ∀ a ∈ p.waiting, ∃ y, b.tasks[a]? = some y := by
      intro a ha
      exact h.exists_of_waiting (s := s) (by rwa [waitingIn_of_pool? hp])
    exact sorted_mapTask (fun _ ↦ rfl)
      (sorted_mapPool hp (pairwise_enqueue (h.pairwise hp) hon hprio) h.sorted s')

theorem unscheduled_touches (b : Board) (s : PoolId) (t : TaskId) :
    Touches t b (b.unscheduled s t) :=
  (touches_mapPool b s (·.dequeue t) (fun p ↦ Pool.others_erase t p.waiting) fun _ ↦ rfl).trans
    (touches_mapTask _ t _)

theorem Linked.unschedule (h : b.Linked) (hp : b.pool? s = some p) (ht : t ∈ p.waiting) :
    (b.unscheduled s t).Linked := by
  have hpos := waits_pos hp ht
  obtain ⟨x, hx, -⟩ := h.exists_task (s := s) (t := t) (by omega)
  refine h.of_change (unscheduled_touches b s t) hx (getElem?_unscheduled hx s) ?_ (fun s' _ ↦ ?_)
    (.inl rfl)
  · have hcount : (p.dequeue t).waiting.count t = b.waits t s - 1 := by
      rw [waits_of_pool? hp]
      exact List.count_erase_self
    exact (h.fits_some hx).unschedule hpos (waits_mapPool hp hcount)
      fun s' ↦ holds_mapPool_same s' fun _ ↦ rfl
  · exact sorted_mapTask (fun _ ↦ rfl)
      (sorted_mapPool hp ((h.pairwise hp).sublist List.erase_sublist) h.sorted s')

theorem started_touches (b : Board) (s : PoolId) (t : TaskId) (u : UnitId) :
    Touches t b (b.started s t u) :=
  (touches_mapPool b s (·.take t) (fun p ↦ Pool.others_erase t p.waiting)
    fun p ↦ Pool.others_append_self t p.assigned).trans (touches_mapTask _ t _)

theorem Linked.assign (h : b.Linked) (hx : b.tasks[t]? = some x) (hp : b.pool? s = some p)
    (ht : t ∈ p.waiting) {u : UnitId} (hu : b.taskOf? u = none) (hexec : x.executor = none) :
    (b.started s t u).Linked := by
  have hx' := getElem?_started hx s u
  refine h.of_touches (started_touches b s t u) ?_ (fun s' _ ↦ ?_) ?_
  · have hw : (p.take t).waiting.count t = b.waits t s - 1 := by
      rw [waits_of_pool? hp]
      exact List.count_erase_self
    have ha : (p.take t).assigned.count t = b.holds t s + 1 := by
      rw [holds_of_pool? hp, Pool.take, List.count_append, List.count_singleton_self]
    rw [hx']
    exact (h.fits_some hx).assign (waits_pos hp ht) hexec u _ (waits_mapPool hp hw)
      (holds_mapPool hp ha)
  · exact sorted_mapTask (fun _ ↦ rfl)
      (sorted_mapPool hp ((h.pairwise hp).sublist List.erase_sublist) h.sorted s')
  · intro y v hy hv t' z _ hz
    cases hx'.symm.trans hy
    cases hv
    exact taskOf?_eq_none hu hz

theorem withTask_touches (b : Board) (t : TaskId) (x : Task) : Touches t b (b.withTask t x) where
  tasks t' ht' := by
    have hne : ¬ t = t' := fun e ↦ ht' e.symm
    simp [withTask, Std.TreeMap.getElem?_insert, hne]
  waiting _ := rfl
  assigned _ := rfl

theorem getElem?_withTask (b : Board) (t : TaskId) (x : Task) :
    (b.withTask t x).tasks[t]? = some x.unlinked := by simp [withTask]

theorem Linked.withTask (h : b.Linked) (hx : b.tasks[t]? = none) (x : Task) :
    (b.withTask t x).Linked := by
  have hx' := getElem?_withTask b t x
  have hfit := h.fits t
  rw [hx] at hfit
  refine h.of_touches (withTask_touches b t x) ?_ (fun s' hs' ↦ ?_) ?_
  · rw [hx']
    exact hfit.put x
  · exact absurd hs' (List.count_eq_zero.mp (hfit.absent s').1)
  · intro y u hy hu
    cases hx'.symm.trans hy
    cases hu

theorem Linked.run (h : b.Linked) (hx : b.tasks[t]? = some x) (hexec : x.executor.isSome = true)
    (q : Program) : (b.mapTask t ({ · with program := some q })).Linked := by
  refine h.of_change (touches_mapTask b t _) hx (getElem?_mapTask_self hx _) ?_
    (fun s _ ↦ ?_) (.inl rfl)
  · exact (h.fits_some hx).run hexec q
  · exact sorted_mapTask (fun _ ↦ rfl) (h.sorted s)

theorem endedTask_touches (b : Board) (t : TaskId) (x : Task) : Touches t b (b.endedTask t x) := by
  refine .trans (touches_mapTask b t _) (touches_mapPools _ _ _ ?_ ?_)
  · intro p
    exact Pool.others_erase t p.waiting
  · intro p
    exact Pool.others_erase t p.assigned

theorem getElem?_endedTask (hx : b.tasks[t]? = some x) :
    (b.endedTask t x).tasks[t]? = some { x.unlinked with terminated := true } := by
  rw [endedTask, tasks_mapPools]
  exact getElem?_mapTask_self hx _

theorem Linked.endedTask_absent (h : b.Linked) (hx : b.tasks[t]? = some x) (s : PoolId) :
    (b.endedTask t x).waits t s = 0 ∧ (b.endedTask t x).holds t s = 0 := by
  have hle := (h.fits t).le_one s
  have hlisted := (h.fits_some hx).listed s
  have hw : ∀ p : Pool, (p.drop t).waiting.count t = p.waiting.count t - 1 :=
    fun p ↦ List.count_erase_self
  have ha : ∀ p : Pool, (p.drop t).assigned.count t = p.assigned.count t - 1 :=
    fun p ↦ List.count_erase_self
  rw [endedTask, waits_mapPools _ x.nodup_pools hw, holds_mapPools _ x.nodup_pools ha]
  change (if _ then b.waits t s - 1 else b.waits t s) = 0 ∧
    (if _ then b.holds t s - 1 else b.holds t s) = 0
  -- It was once in each of its pools, and in no other.
  by_cases hs : s ∈ x.pools.toList
  · rw [if_pos hs, if_pos hs]
    omega
  · rw [if_neg hs, if_neg hs]
    have hnot : x.pools.contains s = false := Bool.eq_false_iff.mpr (mt Task.mem_pools.mpr hs)
    simp only [Option.any_some, hnot, Bool.false_eq_true, if_false] at hlisted
    omega

theorem Linked.terminate (h : b.Linked) (hx : b.tasks[t]? = some x) : (b.endedTask t x).Linked := by
  have habsent := h.endedTask_absent hx
  refine h.of_change (endedTask_touches b t x) hx (getElem?_endedTask hx) ?_ (fun s hs ↦ ?_)
    (.inr rfl)
  · exact .terminate (fun s ↦ (habsent s).1) (fun s ↦ (habsent s).2) x
  · exact absurd hs (List.count_eq_zero.mp (habsent s).1)

theorem others_moved (ahead : TaskId → Bool) (t : TaskId) (p : Pool) :
    Pool.others t (moved ahead t p).waiting = Pool.others t p.waiting := by
  rw [moved]
  split
  · rw [Pool.enqueue, Pool.others_insertAt]
    exact Pool.others_erase t p.waiting
  · rfl

theorem count_moved (ahead : TaskId → Bool) (t : TaskId) (p : Pool) :
    (moved ahead t p).waiting.count t = p.waiting.count t - 0 := by
  rw [moved]
  split
  · next h =>
    have hpos := List.count_pos_iff.mpr (List.contains_iff_mem.mp h)
    rw [Pool.enqueue, Pool.count_insertAt, Pool.dequeue, List.count_erase_self]
    omega
  · rfl

theorem assigned_moved (ahead : TaskId → Bool) (t : TaskId) (p : Pool) :
    (moved ahead t p).assigned = p.assigned := by
  rw [moved]
  split <;> rfl

theorem freed_touches (b : Board) (s : PoolId) (t : TaskId) (priority : Int32) :
    Touches t b (b.freed s t priority) := by
  refine .trans (touches_mapPool b s _ ?_ ?_) (touches_mapTask _ t _)
  · intro p
    rfl
  · intro p
    exact Pool.others_erase t p.assigned

theorem resorted_touches (b : Board) (s : PoolId) (t : TaskId) (x : Task) (priority : Int32) :
    Touches t b (b.resorted s t x priority) := by
  refine .trans (freed_touches b s t priority) (touches_mapPools _ _ _ ?_ ?_)
  · exact others_moved _ t
  · intro p
    rw [assigned_moved]

theorem handedBack_touches (b : Board) (s : PoolId) (t : TaskId) (x : Task) (priority : Int32) :
    Touches t b (b.handedBack s t x priority) := by
  refine .trans (resorted_touches b s t x priority) (touches_mapPool _ s _ ?_ ?_)
  · intro p
    exact p.others_insertAt _ t
  · intro p
    rfl

theorem waitingIn_freed (b : Board) (s : PoolId) (t : TaskId) (priority : Int32) (s' : PoolId) :
    (b.freed s t priority).waitingIn s' = b.waitingIn s' :=
  waitingIn_mapPool s' fun _ ↦ rfl

theorem holds_freed (hp : b.pool? s = some p) (priority : Int32) (s' : PoolId) :
    (b.freed s t priority).holds t s' = if s' = s then b.holds t s - 1 else b.holds t s' := by
  refine holds_mapPool hp ?_ s'
  rw [holds_of_pool? hp]
  exact List.count_erase_self

theorem Linked.mem_pools_of_waiting (h : b.Linked) (hx : b.tasks[t]? = some x)
    (hs : t ∈ b.waitingIn s) : s ∈ x.pools.toList := by
  have hpos : 0 < b.waits t s := List.count_pos_iff.mpr hs
  obtain ⟨y, hy, hc, -⟩ := h.exists_task (t := t) (s := s) (by omega)
  cases hx.symm.trans hy
  exact Task.mem_pools.mpr hc

theorem waits_resorted (b : Board) (s : PoolId) (t : TaskId) (x : Task) (priority : Int32)
    (s' : PoolId) : (b.resorted s t x priority).waits t s' = b.waits t s' := by
  rw [resorted, waits_mapPools _ x.nodup_pools (count_moved _ t), Nat.sub_zero, ite_self, waits,
    waitingIn_freed, waits]

theorem holds_resorted (hp : b.pool? s = some p) (x : Task) (priority : Int32) (s' : PoolId) :
    (b.resorted s t x priority).holds t s' = if s' = s then b.holds t s - 1 else b.holds t s' := by
  have hassigned : ∀ (ahead : TaskId → Bool) (p : Pool),
      (moved ahead t p).assigned.count t = p.assigned.count t - 0 := by
    intro ahead p
    rw [assigned_moved, Nat.sub_zero]
  rw [resorted, holds_mapPools _ x.nodup_pools (hassigned _), Nat.sub_zero, ite_self, holds_freed hp]

theorem exists_pool_resorted (hp : b.pool? s = some p) (t : TaskId) (x : Task) (priority : Int32) :
    ∃ q, (b.resorted s t x priority).pool? s = some q := by
  have hfreed : (b.freed s t priority).pool? s = some (p.unassign t) := pool?_mapPool_self hp _
  rw [resorted, pool?_mapPools _ x.nodup_pools, hfreed]
  split
  · exact ⟨_, rfl⟩
  · exact ⟨_, rfl⟩

theorem getElem?_freed (hx : b.tasks[t]? = some x) (s : PoolId) (priority : Int32) :
    (b.freed s t priority).tasks[t]? = some { x.stop with priority } := getElem?_mapTask_self hx _

theorem tasks_resorted (b : Board) (s : PoolId) (t : TaskId) (x : Task) (priority : Int32) :
    (b.resorted s t x priority).tasks = (b.freed s t priority).tasks := tasks_mapPools _ _ _

theorem getElem?_handedBack (hx : b.tasks[t]? = some x) (priority : Int32) :
    (b.handedBack s t x priority).tasks[t]? = some { x.stop with priority } := by
  change (b.resorted s t x priority).tasks[t]? = _
  rw [tasks_resorted]
  exact getElem?_freed hx s priority

theorem waits_handedBack (hp : b.pool? s = some p) (x : Task) (priority : Int32) (s' : PoolId) :
    (b.handedBack s t x priority).waits t s' = if s' = s then b.waits t s + 1 else b.waits t s' := by
  obtain ⟨q, hq⟩ := exists_pool_resorted hp t x priority
  rw [handedBack, waits_mapPool hq (Pool.count_insertAt q _ t), ← waits_of_pool? hq, waits_resorted,
    waits_resorted]

theorem waiting_of_handedBack (hp : b.pool? s = some p) (x : Task) (priority : Int32) {s' : PoolId}
    (hs' : t ∈ (b.handedBack s t x priority).waitingIn s') : s' = s ∨ t ∈ b.waitingIn s' := by
  have hwaits := waits_handedBack (t := t) hp x priority s'
  by_cases he : s' = s
  · exact .inl he
  · rw [if_neg he] at hwaits
    rw [← List.count_pos_iff] at hs' ⊢
    exact .inr (Nat.lt_of_lt_of_eq hs' hwaits)

theorem holds_handedBack (hp : b.pool? s = some p) (x : Task) (priority : Int32) (s' : PoolId) :
    (b.handedBack s t x priority).holds t s' = if s' = s then b.holds t s - 1 else b.holds t s' := by
  rw [handedBack, ← holds_resorted hp x priority s']
  exact holds_mapPool_same s' fun _ ↦ rfl

theorem Linked.waits_le_one (h : b.Linked) (t : TaskId) (s : PoolId) : (b.waitingIn s).count t ≤ 1 := by
  have hle := (h.fits t).le_one s
  rw [waits] at hle
  omega

theorem staysAhead_congr (h : b'.tasks = b.tasks) : b'.staysAhead = b.staysAhead := by
  funext priority t
  rw [staysAhead, h, staysAhead]

theorem Linked.exists_handedBack_eq (h : b.Linked) (hx : b.tasks[t]? = some x)
    (hp : b.pool? s = some p) (ht : t ∈ p.assigned) (priority : Int32) {s' : PoolId}
    (hs' : s' = s ∨ t ∈ b.waitingIn s') : ∃ q : Pool, q.waiting = Pool.others t (b.waitingIn s') ∧
      (b.handedBack s t x priority).waitingIn s' =
        (q.enqueue ((b.handedBack s t x priority).staysAhead priority) t).waiting := by
  have htasks : (b.handedBack s t x priority).tasks = (b.freed s t priority).tasks :=
    tasks_resorted b s t x priority
  have hfreed : (b.freed s t priority).pool? s = some (p.unassign t) := pool?_mapPool_self hp _
  rw [staysAhead_congr htasks]
  by_cases he : s' = s
  · -- It was assigned there, so it did not wait.
    have hnot : t ∉ p.waiting := by
      have hle := (h.fits t).le_one s
      have hpos := holds_pos hp ht
      rw [waits_of_pool? hp] at hle
      rw [← List.count_eq_zero]
      omega
    have hsame : moved ((b.freed s t priority).staysAhead priority) t (p.unassign t) = p.unassign t := by
      rw [moved, if_neg]
      simpa [Pool.unassign] using hnot
    have hq : (b.resorted s t x priority).pool? s = some (p.unassign t) := by
      rw [resorted, pool?_mapPools _ x.nodup_pools, hfreed, Option.map_some, hsame, ite_self]
    refine ⟨p.unassign t, ?_, ?_⟩
    · rw [he, waitingIn_of_pool? hp, Pool.others_of_not_mem hnot]
      rfl
    · rw [he, handedBack, waitingIn_of_pool? (pool?_mapPool_self hq _),
        staysAhead_congr (tasks_resorted b s t x priority)]
  · have hmem := hs'.resolve_left he
    obtain ⟨q, hq, hqmem⟩ := exists_pool_of_waiting hmem
    have hq' : (b.freed s t priority).pool? s' = some q := by
      rw [← hq]
      exact pool?_mapPool_of_ne he _
    have hmoved : (b.resorted s t x priority).pool? s' =
        some ((q.dequeue t).enqueue ((b.freed s t priority).staysAhead priority) t) := by
      rw [resorted, pool?_mapPools _ x.nodup_pools, if_pos (h.mem_pools_of_waiting hx hmem), hq',
        Option.map_some, moved, if_pos (by simpa using hqmem)]
    refine ⟨q.dequeue t, ?_, ?_⟩
    · have hcount := h.waits_le_one t s'
      rw [waitingIn_of_pool? hq] at hcount ⊢
      exact Pool.erase_eq_others hcount
    · rw [handedBack, waitingIn_mapPool_of_ne he, waitingIn_of_pool? hmoved]

theorem Linked.reclaim (h : b.Linked) (hx : b.tasks[t]? = some x) (hp : b.pool? s = some p)
    (ht : t ∈ p.assigned) (priority : Int32) : (b.handedBack s t x priority).Linked := by
  have htouches := handedBack_touches b s t x priority
  have hx' := getElem?_handedBack (s := s) hx priority
  refine h.of_change htouches hx hx' ?_ (fun s' hs' ↦ ?_) (.inr rfl)
  · exact (h.fits_some hx).reclaim (holds_pos hp ht) priority (waits_handedBack hp x priority)
      (holds_handedBack hp x priority)
  · obtain ⟨q, hq, hwaiting⟩ := h.exists_handedBack_eq hx hp ht priority
      (waiting_of_handedBack hp x priority hs')
    rw [Sorted, hwaiting]
    apply pairwise_enqueue
    · rw [hq]
      exact htouches.pairwise_others (h.sorted s')
    · intro a ha
      rw [hq, ← htouches.waiting s'] at ha
      exact htouches.exists_of_waiting h (Pool.ne_of_mem_others ha) (List.mem_filter.mp ha).1
    · intro y hy
      cases hx'.symm.trans hy
      rfl

theorem Linked.exists_of_assigned (h : b.Linked) (ht : t ∈ b.assignedIn s) :
    ∃ x, b.tasks[t]? = some x := by
  have hpos : 0 < b.holds t s := List.count_pos_iff.mpr ht
  obtain ⟨x, hx, -⟩ := h.exists_task (s := s) (t := t) (by omega)
  exact ⟨x, hx⟩

theorem Same.linked (h : Same b b') (hb : b.Linked) : b'.Linked := by
  have hwaiting : ∀ s, b'.waitingIn s = b.waitingIn s := fun s ↦ by
    rw [waitingIn, h.pool?_eq, waitingIn]
  have hassigned : ∀ s, b'.assignedIn s = b.assignedIn s := fun s ↦ by
    rw [assignedIn, h.pool?_eq, assignedIn]
  constructor
  · intro t
    have hw : b'.waits t = b.waits t := by
      funext s
      rw [waits, hwaiting, waits]
    have ha : b'.holds t = b.holds t := by
      funext s
      rw [holds, hassigned, holds]
    rw [hw, ha]
    exact (hb.fits t).same (h.tasks t)
  · intro s
    rw [Sorted, hwaiting]
    refine (hb.sorted s).imp fun hbefore x' hx' y' hy' ↦ ?_
    obtain ⟨x, hx, hxx⟩ := h.exists_task hx'
    obtain ⟨y, hy, hyy⟩ := h.exists_task hy'
    rw [hxx.fields, hyy.fields]
    exact hbefore x hx y hy
  · intro t₁ t₂ x₁' x₂' u h₁ h₂
    obtain ⟨x₁, hx₁, hs₁⟩ := h.exists_task h₁
    obtain ⟨x₂, hx₂, hs₂⟩ := h.exists_task h₂
    rw [hs₁.fields, hs₂.fields]
    exact hb.exclusive t₁ t₂ x₁ x₂ u hx₁ hx₂

theorem getElem?_foldl_erase (l : List (TaskId × Task)) (m : Std.TreeMap TaskId Task) (t : TaskId) :
    (l.foldl (fun m e ↦ m.erase e.1) m)[t]? = if l.any (·.1 == t) then none else m[t]? := by
  induction l generalizing m with
  | nil => rfl
  | cons e l ih =>
    rw [List.foldl_cons, ih, Std.TreeMap.getElem?_erase, List.any_cons]
    by_cases he : e.1 = t
    · simp [he]
    · have hcmp : ¬ compare e.1 t = .eq := by simpa using he
      have hbeq : (e.1 == t) = false := by simpa using he
      rw [if_neg hcmp, hbeq, Bool.false_or]

theorem getElem?_removeEnded (b : Board) (t : TaskId) :
    b.removeEnded.2.tasks[t]? = b.tasks[t]?.filter (!·.terminated) := by
  have hany : (b.tasks.toList.filter (·.2.terminated)).any (·.1 == t) =
      b.tasks[t]?.any (·.terminated) := by
    rw [Bool.eq_iff_iff, List.any_eq_true, Option.any_eq_true]
    constructor
    · rintro ⟨⟨t', x⟩, hmem, ht⟩
      obtain ⟨hx, hend⟩ := List.mem_filter.mp hmem
      cases eq_of_beq ht
      exact ⟨x, Std.TreeMap.mem_toList_iff_getElem?_eq_some.mp hx, hend⟩
    · rintro ⟨x, hx, hend⟩
      have hmem := Std.TreeMap.mem_toList_iff_getElem?_eq_some.mpr hx
      exact ⟨(t, x), List.mem_filter.mpr ⟨hmem, hend⟩, beq_self_eq_true t⟩
  rw [removeEnded]
  simp only [getElem?_foldl_erase, hany]
  cases b.tasks[t]? with
  | none => rfl
  | some x => cases hend : x.terminated <;> simp [hend, Option.filter_some]

theorem of_getElem?_removeEnded (hx : b.removeEnded.2.tasks[t]? = some x) : b.tasks[t]? = some x := by
  rw [getElem?_removeEnded, Option.filter_eq_some_iff] at hx
  exact hx.1

theorem Linked.removeEnded (h : b.Linked) : b.removeEnded.2.Linked := by
  constructor
  · intro t
    have hfit := h.fits t
    change Fits (b.waits t) (b.holds t) b.removeEnded.2.tasks[t]?
    rw [getElem?_removeEnded]
    cases hx : b.tasks[t]? with
    | none => rwa [hx] at hfit
    | some x =>
      rw [hx] at hfit
      cases hend : x.terminated with
      | false => simpa [hend, Option.filter_some] using hfit
      | true => simpa [hend, Option.filter_some] using hfit.remove hend
  · intro s
    exact (h.sorted s).imp fun hbefore x hx y hy ↦ hbefore x (of_getElem?_removeEnded hx) y
      (of_getElem?_removeEnded hy)
  · intro t t' x x' u hx hx'
    exact h.exclusive t t' x x' u (of_getElem?_removeEnded hx) (of_getElem?_removeEnded hx')

theorem pool?_withPool (b : Board) (f : FactionId) (s : PoolId) :
    (b.withPool f).pool? s = if s.val = b.pools.length then some { faction := f } else b.pool? s := by
  rw [pool?, withPool, List.getElem?_append, pool?]
  by_cases he : s.val = b.pools.length
  · simp [he]
  · rw [if_neg he]
    split
    · rfl
    · rw [List.getElem?_eq_none (by simp; omega), List.getElem?_eq_none (by omega)]

theorem elim_withPool {f : FactionId} {g : Pool → List TaskId} (s : PoolId)
    (hg : g { faction := f } = []) : ((b.withPool f).pool? s).elim [] g = (b.pool? s).elim [] g := by
  rw [pool?_withPool]
  by_cases he : s.val = b.pools.length
  · simp [he, pool?, hg]
  · rw [if_neg he]

theorem waitingIn_withPool (b : Board) (f : FactionId) (s : PoolId) :
    (b.withPool f).waitingIn s = b.waitingIn s := elim_withPool (g := (·.waiting)) s rfl

theorem assignedIn_withPool (b : Board) (f : FactionId) (s : PoolId) :
    (b.withPool f).assignedIn s = b.assignedIn s := elim_withPool (g := (·.assigned)) s rfl

theorem Linked.withPool (h : b.Linked) (f : FactionId) : (b.withPool f).Linked := by
  constructor
  · intro t
    have hw : (b.withPool f).waits t = b.waits t := by
      funext s
      rw [waits, waits, waitingIn_withPool]
    have ha : (b.withPool f).holds t = b.holds t := by
      funext s
      rw [holds, holds, assignedIn_withPool]
    rw [hw, ha]
    exact h.fits t
  · intro s
    rw [Sorted, waitingIn_withPool]
    exact h.sorted s
  · exact h.exclusive

end Errand.Board
