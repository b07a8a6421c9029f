import Errand.Proofs.Board.Frame

namespace Errand.Board

variable {b b' : Board} {s : PoolId} {t : TaskId} {u v : UnitId} {x : Task} {p : Pool}
  {us : List UnitId} {free : List TaskId} {pairs : List (UnitId × TaskId)}

/-- The listed units that carry out no task, each in the place where it comes first. -/
def idleUnits (b : Board) (us : List UnitId) : List UnitId :=
  (us.filter fun u ↦ (b.taskOf? u).isNone).eraseDups

/-- The tasks that wait in a pool and that nobody carries out, in the order of the pool. -/
def freeIn (b : Board) (s : PoolId) : List TaskId := (b.waitingIn s).filter b.isFree

/-- The second board comes from the first by starting the given pairs in a pool, one by one. -/
structure Dispatched (b : Board) (s : PoolId) (pairs : List (UnitId × TaskId)) (b' : Board) : Prop where
  begun : ∀ u t, (u, t) ∈ pairs → ∃ x q, b.tasks[t]? = some x ∧
    q = Program.start x.script b.execution.maxOutputLines.toNat ∧ q.state.env = ∅ ∧
    b'.tasks[t]? = some { x with executor := some u, program := some q }
  tasks : ∀ t, t ∉ pairs.map (·.2) → b'.tasks[t]? = b.tasks[t]?
  waiting : b'.waitingIn s = (b.waitingIn s).filter fun t ↦ t ∉ pairs.map (·.2)
  assigned : b'.assignedIn s = b.assignedIn s ++ pairs.map (·.2)
  pools : ∀ s', s' ≠ s → b'.pool? s' = b.pool? s'
  frame : Frame b b'

theorem isFree_of_task (hx : b.tasks[t]? = some x) : b.isFree t = x.executor.isNone := by
  rw [isFree, hx, Option.any_some]

theorem isFree_congr (h : b'.tasks[t]? = b.tasks[t]?) : b'.isFree t = b.isFree t := by
  rw [isFree, h, isFree]

theorem mem_freeIn : t ∈ b.freeIn s ↔ t ∈ b.waitingIn s ∧ b.isFree t = true := List.mem_filter

theorem find?_isFree (hp : b.pool? s = some p) : p.waiting.find? b.isFree = (b.freeIn s).head? := by
  rw [freeIn, List.head?_filter, waitingIn_of_pool? hp]

theorem mem_idleUnits : u ∈ b.idleUnits us ↔ u ∈ us ∧ b.taskOf? u = none := by
  rw [idleUnits, List.mem_eraseDups, List.mem_filter, Option.isNone_iff_eq_none]

theorem Linked.nodup_waitingIn (h : b.Linked) (s : PoolId) : (b.waitingIn s).Nodup :=
  List.nodup_iff_count_le_one.mpr fun t ↦ h.waits_le_one t s

theorem Linked.waitingIn_started (h : b.Linked) (hp : b.pool? s = some p) (t : TaskId) (u : UnitId) :
    (b.started s t u).waitingIn s = Pool.others t (b.waitingIn s) := by
  have hcount := h.waits_le_one t s
  rw [waitingIn_of_pool? (pool?_started hp t u), waitingIn_of_pool? hp]
  rw [waitingIn_of_pool? hp] at hcount
  exact Pool.erase_eq_others hcount

theorem taskOf?_started (hx : b.tasks[t]? = some x) (hexec : x.executor = none) :
    (b.started s t u).taskOf? v = none ↔ b.taskOf? v = none ∧ v ≠ u := by
  have hother := (started_touches b s t u).tasks
  have hself := getElem?_started hx s u
  rw [taskOf?_eq_none_iff, taskOf?_eq_none_iff]
  constructor
  · intro h
    refine ⟨fun t' y hy hv ↦ ?_, fun hv ↦ h t _ hself (congrArg some hv.symm)⟩
    by_cases ht : t' = t
    · subst ht
      cases hx.symm.trans hy
      simp [hexec] at hv
    · exact h t' y ((hother t' ht).trans hy) hv
  · intro h t' y hy hv
    by_cases ht : t' = t
    · subst ht
      cases hself.symm.trans hy
      exact h.2 (Option.some.inj hv).symm
    · exact h.1 t' y ((hother t' ht).symm.trans hy) hv

theorem Linked.freeIn_started (h : b.Linked) (hp : b.pool? s = some p)
    (hfree : b.freeIn s = t :: free) (u : UnitId) : (b.started s t u).freeIn s = free := by
  have hnot : t ∉ free := by
    have hnodup := (h.nodup_waitingIn s).filter b.isFree
    rw [← freeIn, hfree] at hnodup
    exact (List.nodup_cons.mp hnodup).1
  have hsame : ∀ a ∈ Pool.others t (b.waitingIn s), (b.started s t u).isFree a = b.isFree a :=
    fun a ha ↦ isFree_congr ((started_touches b s t u).tasks a (Pool.ne_of_mem_others ha))
  calc (b.started s t u).freeIn s
      = (Pool.others t (b.waitingIn s)).filter (b.started s t u).isFree := by
        rw [freeIn, h.waitingIn_started hp]
    _ = (Pool.others t (b.waitingIn s)).filter b.isFree := List.filter_congr hsame
    _ = Pool.others t (b.freeIn s) := List.filter_comm ..
    _ = Pool.others t free := by simp [hfree, Pool.others]
    _ = free := Pool.others_of_not_mem hnot

theorem idleUnits_cons_of_idle (hx : b.tasks[t]? = some x) (hexec : x.executor = none)
    (hu : b.taskOf? u = none) (s : PoolId) (us : List UnitId) :
    b.idleUnits (u :: us) = u :: (b.started s t u).idleUnits us := by
  have hidle : ∀ v ∈ us, ((!v == u) && (b.taskOf? v).isNone) = ((b.started s t u).taskOf? v).isNone := by
    intro v _
    rw [Bool.eq_iff_iff, Option.isNone_iff_eq_none, taskOf?_started hx hexec]
    simp [and_comm]
  have hcons : (u :: us).filter (fun v ↦ (b.taskOf? v).isNone) =
      u :: us.filter fun v ↦ (b.taskOf? v).isNone := List.filter_cons_of_pos (by simp [hu])
  rw [idleUnits, hcons, List.eraseDups_cons, List.filter_filter, List.filter_congr hidle, idleUnits]

theorem idleUnits_cons_of_busy (hu : b.taskOf? u ≠ none) (us : List UnitId) :
    b.idleUnits (u :: us) = b.idleUnits us := by
  rw [idleUnits, List.filter_cons_of_neg (by simpa using hu), idleUnits]

theorem Dispatched.refl (b : Board) (s : PoolId) : Dispatched b s [] b where
  begun _ _ h := by cases h
  tasks _ _ := rfl
  waiting := by simp
  assigned := by simp
  pools _ _ := rfl
  frame := .refl b

theorem Dispatched.cons (hb : b.Linked) (hp : b.pool? s = some p) (hx : b.tasks[t]? = some x)
    (hnot : t ∉ pairs.map (·.2)) (h : Dispatched (b.started s t u) s pairs b') :
    Dispatched b s ((u, t) :: pairs) b' where
  begun v t' hmem := by
    rcases List.mem_cons.mp hmem with heq | hmem
    · cases heq
      exact ⟨x, _, hx, rfl, rfl, (h.tasks t hnot).trans (getElem?_started hx s u)⟩
    · obtain ⟨y, q, hy, hq, henv, hy'⟩ := h.begun v t' hmem
      have hne : t' ≠ t := fun e ↦ hnot (e ▸ List.mem_map_of_mem hmem)
      exact ⟨y, q, ((started_touches b s t u).tasks t' hne).symm.trans hy, hq, henv, hy'⟩
  tasks t' ht' := by
    rw [List.map_cons, List.mem_cons, not_or] at ht'
    exact (h.tasks t' ht'.2).trans ((started_touches b s t u).tasks t' ht'.1)
  waiting := by
    rw [h.waiting, hb.waitingIn_started hp, Pool.others, List.filter_filter]
    refine List.filter_congr fun a _ ↦ ?_
    simp only [List.map_cons, List.mem_cons, not_or, Bool.decide_and, Bool.and_comm]
  assigned := by
    rw [h.assigned, assignedIn_of_pool? (pool?_started hp t u), assignedIn_of_pool? hp]
    simp [Pool.take]
  pools s' hs' := (h.pools s' hs').trans (pool?_mapPool_of_ne hs' (·.take t))
  frame := (Frame.started b s t u).trans h.frame

theorem Linked.exists_dispatch (hb : b.Linked) (hp : b.pool? s = some p) (us : List UnitId) :
    ∃ b', dispatch s us b = .ok ((b.idleUnits us).zip (b.freeIn s)) b' ∧
      Dispatched b s ((b.idleUnits us).zip (b.freeIn s)) b' := by
  induction us generalizing b p with
  | nil => exact ⟨b, rfl, .refl b s⟩
  | cons u us ih =>
    have hfind := find?_isFree hp
    rw [dispatch, bind_of_ok (get_apply b)]
    by_cases hu : b.taskOf? u = none
    · rw [hu, if_neg (by simp)]
      cases hfree : b.freeIn s with
      | nil =>
        rw [hfree] at hfind
        rw [bind_of_ok (assignNext_of_none_free hp hu hfind), List.zip_nil_right]
        exact ⟨b, rfl, .refl b s⟩
      | cons t free =>
        have hmem : t ∈ b.freeIn s := hfree ▸ List.mem_cons_self
        obtain ⟨hwaits, hisFree⟩ := mem_freeIn.mp hmem
        obtain ⟨x, hx, hexec⟩ := exists_of_isFree hisFree
        rw [waitingIn_of_pool? hp] at hwaits
        have hrest := hb.freeIn_started hp hfree u
        obtain ⟨b', hok, hdone⟩ := ih (hb.assign hx hp hwaits hu hexec) (pool?_started hp t u)
        rw [hrest] at hok hdone
        -- the task is not free any more, so no later unit gets it
        have hnot : t ∉ (((b.started s t u).idleUnits us).zip free).map (·.2) := by
          intro ht
          obtain ⟨e, he, rfl⟩ := List.mem_map.mp ht
          have hin := (List.of_mem_zip he).2
          rw [← hrest, mem_freeIn, isFree_of_task (getElem?_started hx s u)] at hin
          cases hin.2
        rw [hfree] at hfind
        rw [bind_of_ok (assignNext_of_first_free hp hu hfind), idleUnits_cons_of_idle hx hexec hu s,
          List.zip_cons_cons]
        exact ⟨b', bind_of_ok hok _, hdone.cons hb hp hx hnot⟩
    · rw [if_pos (Option.isSome_iff_ne_none.mpr hu), idleUnits_cons_of_busy hu]
      exact ih hb hp

theorem Dispatched.taskOf?_ne_none (h : Dispatched b s pairs b')
    (hfree : ∀ e ∈ pairs, b.isFree e.2 = true) (hu : b.taskOf? u ≠ none) : b'.taskOf? u ≠ none := by
  intro hnone
  refine hu (taskOf?_eq_none_iff.mpr fun t x hx hexec ↦ ?_)
  have hnot : t ∉ pairs.map (·.2) := by
    intro hmem
    obtain ⟨e, he, rfl⟩ := List.mem_map.mp hmem
    have hisFree := hfree e he
    simp [isFree_of_task hx, hexec] at hisFree
  exact taskOf?_eq_none hnone ((h.tasks t hnot).trans hx) hexec

theorem Dispatched.all_busy (h : Dispatched b s ((b.idleUnits us).zip free) b')
    (hfree : ∀ t ∈ free, b.isFree t = true) (hle : (b.idleUnits us).length ≤ free.length)
    (hu : u ∈ us) : b'.taskOf? u ≠ none := by
  by_cases hidle : b.taskOf? u = none
  · have hmem : u ∈ ((b.idleUnits us).zip free).map (·.1) := by
      rw [List.map_fst_zip hle]
      exact mem_idleUnits.mpr ⟨hu, hidle⟩
    obtain ⟨⟨_, t⟩, he, rfl⟩ := List.mem_map.mp hmem
    obtain ⟨x, q, -, -, -, hx'⟩ := h.begun _ t he
    exact fun hnone ↦ taskOf?_eq_none hnone hx' rfl
  · exact h.taskOf?_ne_none (fun e he ↦ hfree e.2 (List.of_mem_zip he).2) hidle

theorem Dispatched.none_free (h : Dispatched b s (us.zip (b.freeIn s)) b')
    (hle : (b.freeIn s).length ≤ us.length) (ht : t ∈ b'.waitingIn s) : b'.isFree t = false := by
  rw [h.waiting, List.map_snd_zip hle, List.mem_filter, decide_eq_true_eq] at ht
  have hsame : b'.isFree t = b.isFree t :=
    isFree_congr (h.tasks t (by rw [List.map_snd_zip hle]; exact ht.2))
  rw [hsame]
  exact Bool.eq_false_iff.mpr fun hfree ↦ ht.2 (mem_freeIn.mpr ⟨ht.1, hfree⟩)

/-- Handing out tasks matches idle units and free tasks in order, and does not stop before one of the
two has run out. -/
theorem Reached.dispatch_matching (h : Reached b) (hp : b.pool? s = some p) (us : List UnitId) :
    ∃ b', dispatch s us b = .ok ((b.idleUnits us).zip (b.freeIn s)) b' ∧
      Dispatched b s ((b.idleUnits us).zip (b.freeIn s)) b' ∧
      ((∀ u ∈ us, b'.taskOf? u ≠ none) ∨ ∀ t ∈ b'.waitingIn s, b'.isFree t = false) := by
  obtain ⟨b', hok, hdone⟩ := h.sound.toLinked.exists_dispatch hp us
  refine ⟨b', hok, hdone, ?_⟩
  rcases Nat.le_total (b.idleUnits us).length (b.freeIn s).length with hle | hle
  · exact .inl fun u hu ↦ hdone.all_busy (fun t ht ↦ (mem_freeIn.mp ht).2) hle hu
  · exact .inr fun t ht ↦ hdone.none_free hle ht

def relay : Board :=
  after (assign ⟨1⟩ ⟨0⟩ ⟨5⟩) (after (schedule ⟨1⟩ ⟨0⟩) (after (addPool ⟨1⟩)
    (after (schedule ⟨0⟩ ⟨3⟩) (after (putTask ⟨3⟩ rally) lineup))))

theorem reached_relay : Reached relay := by
  have hnew : lineup.tasks[(⟨3⟩ : TaskId)]? = none := by decide +kernel
  have hthird := (reached_lineup.move (.putTask _ ⟨3⟩ rally hnew trivial)).move (.schedule _ ⟨0⟩ ⟨3⟩)
  have hpools := (hthird.move (.addPool _ ⟨1⟩)).move (.schedule _ ⟨1⟩ ⟨0⟩)
  exact hpools.move (.assign _ ⟨1⟩ ⟨0⟩ ⟨5⟩)

/-- Unit 5 is busy and unit 7 comes twice; task 0 is busy, and the last unit gets nothing. -/
theorem dispatch_matching_relay :
    ∃ b', dispatch ⟨0⟩ [⟨5⟩, ⟨7⟩, ⟨7⟩, ⟨6⟩, ⟨8⟩] relay = .ok [(⟨7⟩, ⟨2⟩), (⟨6⟩, ⟨3⟩)] b' ∧
      b'.waitingIn ⟨0⟩ = [⟨0⟩] ∧ b'.assignedIn ⟨0⟩ = [⟨2⟩, ⟨3⟩] := by
  have hp : relay.pool? ⟨0⟩ = some { faction := ⟨0⟩, waiting := [⟨0⟩, ⟨2⟩, ⟨3⟩] } := by decide +kernel
  obtain ⟨b', hok, hdone, -⟩ :=
    Reached.dispatch_matching reached_relay hp [⟨5⟩, ⟨7⟩, ⟨7⟩, ⟨6⟩, ⟨8⟩]
  have hpairs : (relay.idleUnits [⟨5⟩, ⟨7⟩, ⟨7⟩, ⟨6⟩, ⟨8⟩]).zip (relay.freeIn ⟨0⟩) =
      [(⟨7⟩, ⟨2⟩), (⟨6⟩, ⟨3⟩)] := by decide +kernel
  rw [hpairs] at hok hdone
  refine ⟨b', hok, ?_, ?_⟩
  · rw [hdone.waiting, waitingIn_of_pool? hp]
    rfl
  · rw [hdone.assigned, assignedIn_of_pool? hp]
    rfl

end Errand.Board
