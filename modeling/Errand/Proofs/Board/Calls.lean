import Errand.Proofs.Board.View

namespace Errand.Board

variable {α β : Type} {b : Board} {s : PoolId} {t : TaskId} {u : UnitId} {x : Task} {p : Pool}

/-- The operation refuses, and the board stays; or it has an answer and a board, of which `post`
holds. -/
def Yields (x : BoardM α) (b : Board) (post : α → Board → Prop) : Prop :=
  match x b with
  | .ok a b' => post a b'
  | .error _ b' => b' = b

theorem getTask_bind (hx : b.tasks[t]? = some x) (f : Task → BoardM β) :
    (getTask t >>= f) b = f x b := by
  simp only [getTask, bind_apply, get_apply, hx, pure_apply]

theorem getPool_bind (hp : b.pool? s = some p) (f : Pool → BoardM β) :
    (getPool s >>= f) b = f p b := by
  simp only [getPool, bind_apply, get_apply, hp, pure_apply]

theorem modifyPool_apply (s : PoolId) (f : Pool → Pool) (b : Board) :
    modifyPool s f b = .ok () (b.mapPool s f) := rfl

namespace Yields

variable {post : β → Board → Prop}

theorem of_eq {x : BoardM β} {a : β} {b' : Board} (h : x b = .ok a b') (hpost : post a b') :
    Yields x b post := by
  rw [Yields, h]
  exact hpost

theorem mono {x : BoardM β} {post' : β → Board → Prop} (h : Yields x b post)
    (hpost : ∀ a b', post a b' → post' a b') : Yields x b post' := by
  rw [Yields] at h ⊢
  cases hx : x b with
  | ok a b' =>
    rw [hx] at h
    exact hpost a b' h
  | error e b' =>
    rw [hx] at h
    exact h

theorem discard {x : BoardM α} {post : α → Board → Prop} (h : Yields x b post) :
    Yields (discard x) b fun _ b' ↦ ∃ a, post a b' := by
  rw [Yields] at h ⊢
  rw [discard_apply]
  cases hx : x b with
  | ok a b' =>
    rw [hx] at h
    exact ⟨a, h⟩
  | error e b' =>
    rw [hx] at h
    exact h

theorem get {f : Board → BoardM β} (h : Yields (f b) b post) :
    Yields (MonadState.get >>= f) b post := h

theorem getTask {f : Task → BoardM β}
    (h : ∀ x, b.tasks[t]? = some x → Yields (f x) b post) : Yields (getTask t >>= f) b post := by
  rw [Yields, Board.getTask]
  simp only [bind_apply, get_apply]
  cases hx : b.tasks[t]? with
  | none => rfl
  | some x => exact h x hx

theorem getPool {f : Pool → BoardM β}
    (h : ∀ p, b.pool? s = some p → Yields (f p) b post) : Yields (getPool s >>= f) b post := by
  rw [Yields, Board.getPool]
  simp only [bind_apply, get_apply]
  cases hp : b.pool? s with
  | none => rfl
  | some p => exact h p hp

theorem requireIdle {f : Unit → BoardM β} (h : b.taskOf? u = none → Yields (f ()) b post) :
    Yields (requireIdle u >>= f) b post := by
  rw [Yields, Board.requireIdle]
  simp only [bind_apply, get_apply]
  cases hu : b.taskOf? u with
  | none => exact h hu
  | some t => rfl

theorem guard {c : Prop} [Decidable c] {e : BoardError} {k : α → BoardM β} {y : BoardM β}
    (h : ¬ c → Yields y b post) : Yields (if c then throw e >>= k else y) b post := by
  by_cases hc : c
  · rw [if_pos hc]
    rfl
  · rw [if_neg hc]
    exact h hc

end Yields

theorem taskOf?_eq_none_iff :
    b.taskOf? u = none ↔ ∀ (t : TaskId) (x : Task), b.tasks[t]? = some x → x.executor ≠ some u := by
  rw [taskOf?, Option.map_eq_none_iff, List.find?_eq_none]
  constructor
  · intro h t x hx hu
    have hmem := Std.TreeMap.mem_toList_iff_getElem?_eq_some.mpr hx
    exact h (t, x) hmem (by simpa using hu)
  · rintro h ⟨t, x⟩ hmem
    simpa using h t x (Std.TreeMap.mem_toList_iff_getElem?_eq_some.mp hmem)

theorem taskOf?_eq_none (h : b.taskOf? u = none) (hx : b.tasks[t]? = some x) :
    x.executor ≠ some u := taskOf?_eq_none_iff.mp h t x hx

def withPool (b : Board) (f : FactionId) : Board := { b with pools := b.pools ++ [{ faction := f }] }

theorem addPool_yields (b : Board) (f : FactionId) :
    Yields (addPool f) b fun _ b' ↦ b' = b.withPool f := by
  refine .get (.guard fun _ ↦ ?_)
  exact rfl

def withTask (b : Board) (t : TaskId) (x : Task) : Board :=
  { b with tasks := b.tasks.insert t x.unlinked }

def scheduled (b : Board) (s : PoolId) (t : TaskId) (priority : Int32) : Board :=
  (b.mapPool s (·.enqueue (b.staysAhead priority) t)).mapTask t
    fun y ↦ { y with pools := y.pools.insert s }

def unscheduled (b : Board) (s : PoolId) (t : TaskId) : Board :=
  (b.mapPool s (·.dequeue t)).mapTask t fun y ↦ { y with pools := y.pools.erase s }

def started (b : Board) (s : PoolId) (t : TaskId) (u : UnitId) : Board :=
  (b.mapPool s (·.take t)).mapTask t (·.start u b.execution)

theorem getElem?_scheduled (hx : b.tasks[t]? = some x) (s : PoolId) (priority : Int32) :
    (b.scheduled s t priority).tasks[t]? = some { x with pools := x.pools.insert s } :=
  getElem?_mapTask_self hx _

theorem getElem?_unscheduled (hx : b.tasks[t]? = some x) (s : PoolId) :
    (b.unscheduled s t).tasks[t]? = some { x with pools := x.pools.erase s } :=
  getElem?_mapTask_self hx _

theorem getElem?_started (hx : b.tasks[t]? = some x) (s : PoolId) (u : UnitId) :
    (b.started s t u).tasks[t]? = some (x.start u b.execution) := getElem?_mapTask_self hx _

theorem pool?_started (hp : b.pool? s = some p) (t : TaskId) (u : UnitId) :
    (b.started s t u).pool? s = some (p.take t) := pool?_mapPool_self hp _

theorem schedule_yields (b : Board) (s : PoolId) (t : TaskId) :
    Yields (schedule s t) b fun _ b' ↦ ∃ x p, b.tasks[t]? = some x ∧ x.terminated = false ∧
      b.pool? s = some p ∧ x.pools.contains s = false ∧ b' = b.scheduled s t x.priority := by
  refine .getTask fun x hx ↦ .guard fun hend ↦ .getPool fun p hp ↦ .guard fun hc ↦ ?_
  simp only [Bool.or_eq_true, not_or, Bool.not_eq_true] at hc hend
  exact ⟨x, p, hx, hend, hp, hc.2, rfl⟩

theorem unscheduleAt_yields (b : Board) (s : PoolId) (t : TaskId) :
    Yields (unscheduleAt s t) b fun place b' ↦ ∃ p, b.pool? s = some p ∧ t ∈ p.waiting ∧
      place = p.waiting.idxOf t ∧ b' = b.unscheduled s t := by
  refine .getPool fun p hp ↦ .guard fun _ ↦ .guard fun hw ↦ ?_
  simp only [Bool.not_eq_true', Bool.not_eq_false, List.contains_iff_mem] at hw
  exact ⟨p, hp, hw, rfl, rfl⟩

theorem unschedule_yields (b : Board) (s : PoolId) (t : TaskId) :
    Yields (unschedule s t) b fun _ b' ↦ ∃ p, b.pool? s = some p ∧ t ∈ p.waiting ∧
      b' = b.unscheduled s t := by
  refine (unscheduleAt_yields b s t).discard.mono ?_
  rintro _ _ ⟨place, p, hp, hw, -, rfl⟩
  exact ⟨p, hp, hw, rfl⟩

theorem assign_yields (b : Board) (s : PoolId) (t : TaskId) (u : UnitId) :
    Yields (assign s t u) b fun _ b' ↦ ∃ x p, b.tasks[t]? = some x ∧ b.pool? s = some p ∧
      t ∈ p.waiting ∧ b.taskOf? u = none ∧ x.executor = none ∧
      b' = b.started s t u := by
  refine .getPool fun p hp ↦ .guard fun hw ↦ .requireIdle fun hu ↦ .getTask fun x hx ↦ ?_
  simp only [Bool.not_eq_true', Bool.not_eq_false, List.contains_iff_mem] at hw
  cases he : x.executor with
  | some other => rfl
  | none => exact ⟨x, p, hx, hp, hw, hu, he, rfl⟩

theorem assignNext_yields (b : Board) (s : PoolId) (u : UnitId) :
    Yields (assignNext s u) b fun _ b' ↦ b' = b ∨
      ∃ t x p, b.tasks[t]? = some x ∧ b.pool? s = some p ∧ t ∈ p.waiting ∧ b.taskOf? u = none ∧
        x.executor = none ∧
        b' = b.started s t u := by
  refine .getPool fun p _ ↦ ?_
  split
  · exact .inl rfl
  · refine .requireIdle fun _ ↦ .get ?_
    split
    · exact .inl rfl
    · rename_i t _
      have h := assign_yields b s t u
      rw [Yields] at h ⊢
      rw [bind_apply]
      cases hr : assign s t u b with
      | error e b' =>
        rw [hr] at h
        exact h
      | ok _ b' =>
        rw [hr] at h
        exact .inr ⟨t, h⟩

def moved (ahead : TaskId → Bool) (t : TaskId) (p : Pool) : Pool :=
  if p.waiting.contains t then (p.dequeue t).enqueue ahead t else p

/-- The board after a task has been taken from whom it was assigned to. It is in no list of the pool. -/
def freed (b : Board) (s : PoolId) (t : TaskId) (priority : Int32) : Board :=
  (b.mapPool s (·.unassign t)).mapTask t fun y ↦ { y.stop with priority }

def resorted (b : Board) (s : PoolId) (t : TaskId) (x : Task) (priority : Int32) : Board :=
  (b.freed s t priority).mapPools x.pools.toList (moved ((b.freed s t priority).staysAhead priority) t)

def handedBack (b : Board) (s : PoolId) (t : TaskId) (x : Task) (priority : Int32) : Board :=
  (b.resorted s t x priority).mapPool s
    (·.enqueue ((b.resorted s t x priority).staysAhead priority) t)

theorem forM_requeue (t : TaskId) (priority : Int32) (l : List PoolId) (b : Board) :
    l.forM (requeue t priority) b = .ok () (b.mapPools l (moved (b.staysAhead priority) t)) := by
  induction l generalizing b with
  | nil => rfl
  | cons s l ih => exact ih (b.mapPool s (moved (b.staysAhead priority) t))

/-- The priority with which a task goes back to its pool. -/
def lowered (b : Board) (x : Task) : Int32 :=
  backoff x.priority b.scheduler.backoffNumerator b.scheduler.backoffDenominator

theorem reclaim_of_assigned (hp : b.pool? s = some p) (ht : t ∈ p.assigned)
    (hx : b.tasks[t]? = some x) :
    reclaim s t b = .ok (b.lowered x) (b.handedBack s t x (b.lowered x)) := by
  have ha : ¬ (!p.assigned.contains t) = true := by simpa using ht
  rw [reclaim, getPool_bind hp]
  simp only [if_neg ha]
  rw [bind_of_ok (modifyPool_apply s (·.unassign t) b),
    getTask_bind (b := b.mapPool s (·.unassign t)) hx]
  simp only [bind_apply, get_apply, modifyPool, modifyTask, modify_apply, forM_requeue,
    pure_apply]
  rfl

theorem reclaim_yields (b : Board) (s : PoolId) (t : TaskId)
    (hon : t ∈ b.assignedIn s → ∃ x, b.tasks[t]? = some x) :
    Yields (reclaim s t) b fun priority b' ↦ ∃ x p, b.tasks[t]? = some x ∧ b.pool? s = some p ∧
      t ∈ p.assigned ∧ priority = b.lowered x ∧ b' = b.handedBack s t x (b.lowered x) := by
  by_cases ht : t ∈ b.assignedIn s
  · obtain ⟨p, hp, hmem⟩ := exists_pool_of_assigned ht
    obtain ⟨x, hx⟩ := hon ht
    exact .of_eq (reclaim_of_assigned hp hmem hx) ⟨x, p, hx, hp, hmem, rfl, rfl⟩
  · refine .getPool fun p hp ↦ .guard fun ha ↦ absurd ?_ ht
    rw [assignedIn_of_pool? hp]
    simpa using ha

def endedTask (b : Board) (t : TaskId) (x : Task) : Board :=
  (b.mapTask t fun y ↦ { y.unlinked with terminated := true }).mapPools x.pools.toList (·.drop t)

theorem terminate_of_running (hx : b.tasks[t]? = some x) (hend : x.terminated = false) :
    terminate t b = .ok () (b.endedTask t x) := by
  rw [terminate, getTask_bind hx]
  simp only [hend, Bool.false_eq_true, if_false]
  rw [bind_apply]
  exact forM_apply (fun s b ↦ rfl) _ _

theorem terminate_yields (b : Board) (t : TaskId) :
    Yields (terminate t) b fun _ b' ↦ ∃ x, b.tasks[t]? = some x ∧
      (x.terminated = true ∧ b' = b ∨ x.terminated = false ∧ b' = b.endedTask t x) := by
  refine .getTask fun x hx ↦ ?_
  cases hend : x.terminated with
  | true => exact ⟨x, hx, .inl ⟨hend, rfl⟩⟩
  | false => exact .of_eq (forM_apply (fun s b ↦ rfl) _ _) ⟨x, hx, .inr ⟨hend, rfl⟩⟩

def restored (b : Board) (s : PoolId) (t : TaskId) (place : Nat) : Board :=
  ((b.unscheduled s t).mapPool s (·.insertAt place t)).mapTask t
    fun y ↦ { y with pools := y.pools.insert s }

theorem replace_apply (b : Board) (s : PoolId) (old new : TaskId) :
    replace s old new b = match unscheduleAt s old b with
      | .error e b' => .error e b'
      | .ok place b' =>
        match schedule s new b' with
        | .ok () b'' => .ok () b''
        | .error e b'' => .error e ((b''.mapPool s (·.insertAt place old)).mapTask old
            fun y ↦ { y with pools := y.pools.insert s }) := by
  rw [replace, bind_apply]
  cases unscheduleAt s old b with
  | error e b' => rfl
  | ok place b' =>
    change EStateM.tryCatch (schedule s new) _ b' = _
    rw [EStateM.tryCatch]
    cases hr : schedule s new b' with
    | ok _ b'' => simp [hr]
    | error e b'' =>
      simp only [hr]
      rfl

/-- A replacement takes out one task and lets the other wait. A refused one leaves the board as it
was, or puts the task back. -/
theorem replace_cases (b : Board) (s : PoolId) (old new : TaskId) :
    match replace s old new b with
    | .ok _ b' => ∃ b₁, unschedule s old b = .ok () b₁ ∧ schedule s new b₁ = .ok () b'
    | .error _ b' => b' = b ∨ ∃ p, b.pool? s = some p ∧ old ∈ p.waiting ∧
        b' = b.restored s old (p.waiting.idxOf old) := by
  have htaken := unscheduleAt_yields b s old
  rw [Yields] at htaken
  rw [replace_apply]
  cases hu : unscheduleAt s old b with
  | error e b₁ =>
    rw [hu] at htaken
    exact .inl htaken
  | ok place b₁ =>
    rw [hu] at htaken
    obtain ⟨p, hp, hmem, rfl, rfl⟩ := htaken
    simp only
    have hput := schedule_yields (b.unscheduled s old) s new
    rw [Yields] at hput
    split at hput
    · next b₂ hs =>
      rw [hs]
      exact ⟨_, discard_of_ok hu, hs⟩
    · next e b₂ hs =>
      rw [hs, hput]
      exact .inr ⟨p, hp, hmem, rfl⟩

theorem pool?_restored (hp : b.pool? s = some p) (ht : t ∈ p.waiting) (s' : PoolId) :
    (b.restored s t (p.waiting.idxOf t)).pool? s' = b.pool? s' := by
  change (((b.mapPool s (·.dequeue t)).mapPool s (·.insertAt (p.waiting.idxOf t) t)).pool? s') = _
  by_cases hs : s' = s
  · rw [hs, pool?_mapPool_self (pool?_mapPool_self hp _), Pool.insertAt_dequeue ht, hp]
  · rw [pool?_mapPool_of_ne hs, pool?_mapPool_of_ne hs]

theorem getElem?_restored (hx : b.tasks[t]? = some x) (s : PoolId) (place : Nat) :
    (b.restored s t place).tasks[t]? =
      some { x with pools := (x.pools.erase s).insert s } := by
  rw [restored, getElem?_mapTask, if_pos rfl, tasks_mapPool, getElem?_unscheduled hx]
  rfl

theorem restored_touches (b : Board) (s : PoolId) (t : TaskId) (place : Nat) :
    Touches t b (b.restored s t place) := by
  refine .trans (.trans (touches_mapPool b s (·.dequeue t) ?_ ?_) (touches_mapTask _ t _))
    (.trans (touches_mapPool _ s (·.insertAt place t) ?_ ?_) (touches_mapTask _ t _))
  · exact fun p ↦ Pool.others_erase t p.waiting
  · exact fun _ ↦ rfl
  · exact fun p ↦ p.others_insertAt place t
  · exact fun _ ↦ rfl

theorem restored_same (hp : b.pool? s = some p) (ht : t ∈ p.waiting) (hx : b.tasks[t]? = some x)
    (hs : x.pools.contains s = true) : Same b (b.restored s t (p.waiting.idxOf t)) where
  tasks t' := by
    by_cases he : t' = t
    · rw [he, getElem?_restored hx, hx]
      refine .some ⟨rfl, .of_forall_contains_eq fun s' ↦ ?_⟩
      rw [Std.TreeSet.contains_insert, Std.TreeSet.contains_erase]
      by_cases hs' : s = s'
      · simp [← hs', hs]
      · have hcmp : (compare s s' == .eq) = false :=
          beq_false_of_ne fun h ↦ hs' (Std.LawfulEqOrd.eq_of_compare h)
        rw [hcmp, bne, hcmp]
        rfl
    · rw [(restored_touches b s t _).tasks t' he]
      exact (Same.refl b).tasks t'
  pools := List.ext_getElem? fun i ↦ pool?_restored hp ht ⟨i⟩
  execution := rfl
  scheduler := rfl

theorem Yields.holds_after {x : BoardM α} {post : α → Board → Prop} (h : Yields x b post)
    {r : Board → Prop} (hb : r b) (hpost : ∀ a b', post a b' → r b') : r (after x b) := by
  rw [Yields] at h
  rw [after]
  cases hx : x b with
  | ok a b' =>
    rw [hx] at h
    exact hpost a b' h
  | error e b' =>
    rw [hx] at h
    exact h ▸ hb

theorem after_bind {r : Board → Board → Prop} (htrans : ∀ {b₁ b₂ b₃}, r b₁ b₂ → r b₂ b₃ → r b₁ b₃)
    {x : BoardM α} {f : α → BoardM β} (hx : r b (after x b)) (hf : ∀ a b, r b (after (f a) b)) :
    r b (after (x >>= f) b) := by
  rw [after] at hx ⊢
  rw [bind_apply]
  cases h : x b with
  | ok a b' =>
    rw [h] at hx
    exact htrans hx (hf a b')
  | error e b' =>
    rw [h] at hx
    exact hx

theorem after_dispatch_of_mem {r : Board → Board → Prop} (hrefl : ∀ b, r b b)
    (htrans : ∀ {b₁ b₂ b₃}, r b₁ b₂ → r b₂ b₃ → r b₁ b₃) (s : PoolId) (us : List UnitId)
    (h : ∀ u ∈ us, ∀ b, r b (after (assignNext s u) b)) (b : Board) :
    r b (after (dispatch s us) b) := by
  induction us generalizing b with
  | nil => exact hrefl b
  | cons u us ih =>
    obtain ⟨hnext, hrest⟩ := List.forall_mem_cons.1 h
    rw [dispatch]
    refine after_bind (r := r) (x := get) htrans (hrefl b) fun b₁ b₂ ↦ ?_
    by_cases hu : (b₁.taskOf? u).isSome = true
    · rw [if_pos hu]
      exact ih hrest b₂
    · rw [if_neg hu]
      refine after_bind (r := r) (x := assignNext s u) htrans (hnext b₂) fun taken b₃ ↦ ?_
      cases taken with
      | none => exact hrefl b₃
      | some t =>
        exact after_bind (r := r) (x := dispatch s us) htrans (ih hrest b₃) fun _ b₄ ↦ hrefl b₄

theorem after_dispatch {r : Board → Board → Prop} (hrefl : ∀ b, r b b)
    (htrans : ∀ {b₁ b₂ b₃}, r b₁ b₂ → r b₂ b₃ → r b₁ b₃) (s : PoolId)
    (h : ∀ b u, r b (after (assignNext s u) b)) (us : List UnitId) (b : Board) :
    r b (after (dispatch s us) b) :=
  after_dispatch_of_mem hrefl htrans s us (fun u _ b ↦ h b u) b

end Errand.Board
