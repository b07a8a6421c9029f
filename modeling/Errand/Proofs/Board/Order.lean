import Errand.Proofs.Board.Ledger

namespace Errand

namespace Ledger

variable {ε σ α : Type}

/-- The ledger after an operation, which stays as it is if the operation is refused. -/
def note (L : Ledger) (result : EStateM.Result ε σ α) (f : α → Ledger) : Ledger :=
  match result with
  | .ok a _ => f a
  | .error _ _ => L

def settle (report : Report) (b : Board) (L : Ledger) (e : PoolId × TaskId) : Ledger :=
  if e.2 ∈ report.finished then L.drop e.2 fun _ ↦ true
  else if e.2 ∈ report.handedBack then L.renew e.2 (b.regained e.1 e.2)
  else L

theorem settle_congr {report report' : Report} {b b' : Board} {e : PoolId × TaskId} (L : Ledger)
    (hfinished : report'.finished.count e.2 = report.finished.count e.2)
    (hback : report'.handedBack.count e.2 = report.handedBack.count e.2)
    (hwaits : b'.waits e.2 = b.waits e.2) : L.settle report' b' e = L.settle report b e := by
  have hregained : b'.regained e.1 e.2 = b.regained e.1 e.2 := by
    funext s
    have hs := congrFun hwaits s
    rw [Board.waits, Board.waits] at hs
    simp only [Board.regained, ← List.count_pos_iff, hs]
  simp only [settle, ← List.count_pos_iff, hfinished, hback, hregained]

end Ledger

namespace Simulation

open Board

variable {ω ρ : Type} [World ω] [Chance ρ] {sim sim' : Simulation ω ρ} {s : PoolId} {t : TaskId}
  {x : Task} {u : UnitId} {q : Program} {report report' : Report} {l : List (PoolId × TaskId)}
  {L : Ledger} {b : Board}

theorem Turn.matched (turn : Turn s t x u q report sim report' sim') (h : sim.board.Linked)
    (hc : sim.board.Carries s t x u q) (hm : Matches sim.board L)
    (hfinished : report.finished.count t = 0) (hback : report.handedBack.count t = 0) :
    Matches sim'.board (L.settle report' sim.board (s, t)) := by
  obtain ⟨p, hp, hmem⟩ := exists_pool_of_assigned hc.assigned
  have hrun : Matches (sim.advanced t (sim.stepOf x u q)).board L := hm.run hc.task rfl rfl
  have hlinked := linked_advanced h hc (sim.stepOf x u q)
  have hx' := getElem?_advanced hc.task (sim.stepOf x u q)
  simp only [Ledger.settle, ← List.count_pos_iff]
  cases turn with
  | bereft =>
    rw [count_handBack, if_pos rfl, if_neg (by exact Nat.not_lt.mpr (Nat.le_of_eq hfinished)),
      if_pos (Nat.succ_pos _)]
    exact hm.handBack h hc.task hp hmem _
  | waits =>
    rw [if_neg (by exact Nat.not_lt.mpr (Nat.le_of_eq hfinished)),
      if_neg (by exact Nat.not_lt.mpr (Nat.le_of_eq hback))]
    exact hrun
  | finishes =>
    rw [count_finish, if_pos rfl, if_pos (Nat.succ_pos _)]
    exact hrun.endTask hlinked hx'
  | fails =>
    rw [count_handBack, if_pos rfl, if_neg (by exact Nat.not_lt.mpr (Nat.le_of_eq hfinished)),
      if_pos (Nat.succ_pos _)]
    exact hrun.handBack hlinked hx' hp hmem _

theorem Turns.matched (h : Turns l report sim report' sim') (hl : l.Pairwise (·.2 ≠ ·.2))
    (hm : Matches sim.board L)
    (hfresh : ∀ e ∈ l, report.finished.count e.2 = 0 ∧ report.handedBack.count e.2 = 0)
    (hwaits : ∀ e ∈ l, sim.board.waits e.2 = b.waits e.2) :
    Matches sim'.board (l.foldl (Ledger.settle report' b) L) := by
  induction h generalizing L with
  | nil => exact hm
  | @cons s t x u q l report report₁ report' sim sim₁ sim' hsound hc _ turn rest ih =>
    obtain ⟨hne, hl⟩ := List.pairwise_cons.mp hl
    obtain ⟨⟨hfinished, hback⟩, hfresh⟩ := List.forall_mem_cons.mp hfresh
    obtain ⟨hhead, hwaits⟩ := List.forall_mem_cons.mp hwaits
    have hrest := rest.spares fun e he ↦ (hne e he).symm
    have hstep := turn.matched hsound.toLinked hc hm hfinished hback
    rw [List.foldl_cons, L.settle_congr hrest.finished hrest.handedBack hhead.symm]
    apply ih hl hstep
    · intro e he
      have hspares := turn.spares (hne e he).symm
      rw [hspares.finished, hspares.handedBack]
      exact hfresh e he
    · intro e he
      rw [(turn.spares (hne e he).symm).waits]
      exact hwaits e he

end Simulation

namespace Board

variable {α : Type} {b b' : Board} {L L' : Ledger} {s : PoolId} {t : TaskId}

/-- One operation, beside a ledger. What is not said here to change the ledger leaves it alone, and a
refused operation does so, too. -/
inductive Booked : Board × Ledger → Board × Ledger → Prop
  | addPool (b : Board) (L : Ledger) (f : FactionId) : Booked (b, L) (after (addPool f) b, L)
  | putTask (b : Board) (L : Ledger) (t : TaskId) (x : Task) (ht : b.tasks[t]? = none) :
      Booked (b, L) (after (putTask t x) b, L)
  | schedule (b : Board) (L : Ledger) (s : PoolId) (t : TaskId) :
      Booked (b, L) (after (schedule s t) b, L.note (schedule s t b) fun _ ↦ L.renew t (· = s))
  | unschedule (b : Board) (L : Ledger) (s : PoolId) (t : TaskId) :
      Booked (b, L) (after (unschedule s t) b, L.note (unschedule s t b) fun _ ↦ L.drop t (· = s))
  | assign (b : Board) (L : Ledger) (s : PoolId) (t : TaskId) (u : UnitId) :
      Booked (b, L) (after (assign s t u) b, L)
  | assignNext (b : Board) (L : Ledger) (s : PoolId) (u : UnitId) :
      Booked (b, L) (after (assignNext s u) b, L)
  | reclaim (b : Board) (L : Ledger) (s : PoolId) (t : TaskId) :
      Booked (b, L)
        (after (reclaim s t) b, L.note (reclaim s t b) fun _ ↦ L.renew t (b.regained s t))
  | replace (b : Board) (L : Ledger) (s : PoolId) (old new : TaskId) :
      Booked (b, L) (after (replace s old new) b,
        L.note (replace s old new b) fun _ ↦ (L.drop old (· = s)).renew new (· = s))
  | terminate (b : Board) (L : Ledger) (t : TaskId) :
      Booked (b, L) (after (terminate t) b, L.note (terminate t b) fun _ ↦ L.drop t fun _ ↦ true)
  | removeEnded (b : Board) (L : Ledger) : Booked (b, L) (b.removeEnded.2, L)
  | dispatch (b : Board) (L : Ledger) (s : PoolId) (us : List UnitId) :
      Booked (b, L) (after (dispatch s us) b, L)
  | tick {ω ρ : Type} [World ω] [Chance ρ] (sim : Simulation ω ρ) (L : Ledger) :
      Booked (sim.board, L) ((after Simulation.tick sim).board, L.note (Simulation.tick sim)
        fun report ↦ sim.board.assignments.foldl (Ledger.settle report sim.board) L)

def Beside (b : Board) (L : Ledger) : Prop :=
  ∃ st b₀, ofSettings st = .ok b₀ ∧ Relation.ReflTransGen Booked (b₀, {}) (b, L)

theorem Booked.move {p p' : Board × Ledger} (h : Booked p p') :
    Move (fun _ _ ↦ True) p.1 p'.1 := by
  cases h with
  | addPool b L f => exact .addPool b f
  | putTask b L t x ht => exact .putTask b t x ht trivial
  | schedule b L s t => exact .schedule b s t
  | unschedule b L s t => exact .unschedule b s t
  | assign b L s t u => exact .assign b s t u
  | assignNext b L s u => exact .assignNext b s u
  | reclaim b L s t => exact .reclaim b s t
  | replace b L s old new => exact .replace b s old new
  | terminate b L t => exact .terminate b t
  | removeEnded b L => exact .removeEnded b
  | dispatch b L s us => exact .dispatch b s us
  | tick sim L => exact .tick sim

theorem Move.exists_booked (h : Move (fun _ _ ↦ True) b b') (L : Ledger) :
    ∃ L', Booked (b, L) (b', L') := by
  cases h with
  | addPool _ f => exact ⟨_, .addPool b L f⟩
  | putTask _ t x ht => exact ⟨_, .putTask b L t x ht⟩
  | schedule _ s t => exact ⟨_, .schedule b L s t⟩
  | unschedule _ s t => exact ⟨_, .unschedule b L s t⟩
  | assign _ s t u => exact ⟨_, .assign b L s t u⟩
  | assignNext _ s u => exact ⟨_, .assignNext b L s u⟩
  | reclaim _ s t => exact ⟨_, .reclaim b L s t⟩
  | replace _ s old new => exact ⟨_, .replace b L s old new⟩
  | terminate _ t => exact ⟨_, .terminate b L t⟩
  | removeEnded => exact ⟨_, .removeEnded b L⟩
  | dispatch _ s us => exact ⟨_, .dispatch b L s us⟩
  | tick sim => exact ⟨_, .tick sim L⟩

theorem Reached.exists_beside (h : Reached b) : ∃ L, Beside b L := by
  obtain ⟨st, b₀, hst, hrun⟩ := h
  induction hrun with
  | refl => exact ⟨{}, st, b₀, hst, .refl⟩
  | tail _ hmove ih =>
    obtain ⟨L, st', b₁, hst', hbeside⟩ := ih
    obtain ⟨L', hbooked⟩ := hmove.exists_booked L
    exact ⟨L', st', b₁, hst', hbeside.tail hbooked⟩

theorem Yields.matched {x : BoardM α} {post : α → Board → Prop} {f : α → Ledger} (h : Yields x b post)
    (hm : Matches b L) (hpost : ∀ a b', post a b' → Matches b' (f a)) :
    Matches (after x b) (L.note (x b) f) := by
  rw [Yields] at h
  simp only [after, Ledger.note]
  cases hx : x b with
  | ok a b' =>
    rw [hx] at h
    exact hpost a b' h
  | error e b' =>
    rw [hx] at h
    exact h ▸ hm

theorem Matches.replace (hm : Matches b L) (hb : b.Linked) (s : PoolId) (old new : TaskId) :
    Matches (after (Board.replace s old new) b)
      (L.note (Board.replace s old new b) fun _ ↦ (L.drop old (· = s)).renew new (· = s)) := by
  have hcases := replace_cases b s old new
  simp only [after, Ledger.note]
  cases hr : Board.replace s old new b with
  | error e b' => exact hm.same (hb.replace_same_of_error hr)
  | ok _ b' =>
    rw [hr] at hcases
    obtain ⟨b₁, hout, hin⟩ := hcases
    have htaken := unschedule_yields b s old
    rw [Yields, hout] at htaken
    obtain ⟨p, hp, hmem, rfl⟩ := htaken
    have hput := schedule_yields (b.unscheduled s old) s new
    rw [Yields, hin] at hput
    obtain ⟨x, p', hx, hend, hp', hs, rfl⟩ := hput
    exact (hm.unschedule hb hp hmem).schedule (hb.unschedule hp hmem) hx hp' hs

theorem Matches.assignNext (hm : Matches b L) (s : PoolId) (u : UnitId) :
    Matches (after (Board.assignNext s u) b) L := by
  apply (assignNext_yields b s u).holds_after (r := (Matches · L)) hm
  rintro _ _ (rfl | ⟨t, x, p, hx, hp, -, -, -, rfl⟩)
  · exact hm
  · exact hm.assign hx hp u

theorem Booked.matched {p p' : Board × Ledger} (h : Booked p p') (hb : p.1.Sound)
    (hm : Matches p.1 p.2) : Matches p'.1 p'.2 := by
  have hl := hb.toLinked
  cases h with
  | addPool b L f =>
    apply (addPool_yields b f).holds_after (r := (Matches · L)) hm
    rintro _ _ rfl
    exact hm.withPool f
  | putTask b L t x ht => exact hm.withTask hl ht x
  | schedule b L s t =>
    apply (schedule_yields b s t).matched hm
    rintro _ _ ⟨x, p, hx, -, hp, hs, rfl⟩
    exact hm.schedule hl hx hp hs
  | unschedule b L s t =>
    apply (unschedule_yields b s t).matched hm
    rintro _ _ ⟨p, hp, ht, rfl⟩
    exact hm.unschedule hl hp ht
  | assign b L s t u =>
    apply (assign_yields b s t u).holds_after (r := (Matches · L)) hm
    rintro _ _ ⟨x, p, hx, hp, -, -, -, rfl⟩
    exact hm.assign hx hp u
  | assignNext b L s u => exact hm.assignNext s u
  | reclaim b L s t =>
    apply (reclaim_yields b s t hl.exists_of_assigned).matched hm
    rintro _ _ ⟨x, p, hx, hp, ht, -, rfl⟩
    exact hm.handBack hl hx hp ht _
  | replace b L s old new => exact hm.replace hl s old new
  | terminate b L t =>
    apply (terminate_yields b t).matched hm
    rintro _ _ ⟨x, hx, ⟨hend, rfl⟩ | ⟨-, rfl⟩⟩
    · exact hm.drop_ended hl hx hend
    · exact hm.endTask hl hx
  | removeEnded b L => exact hm.removeEnded hl
  | dispatch b L s us =>
    exact after_dispatch (r := fun b b' ↦ Matches b L → Matches b' L) (fun _ h ↦ h)
      (fun h h' hb ↦ h' (h hb)) s (fun _ u hm ↦ hm.assignNext s u) us b hm
  | tick sim L =>
    obtain ⟨report, sim', hok, hturns⟩ := Simulation.exists_tick hb
    simp only [after, Ledger.note, hok]
    exact hturns.matched hl.pairwise_assignments hm (fun _ _ ↦ ⟨rfl, rfl⟩) fun _ _ ↦ rfl

theorem matches_empty (htasks : b.tasks = ∅) (hpools : b.pools = []) : Matches b {} where
  member s t := by simp [htasks]
  fresh s t n hn := by simp at hn
  ordered s := by simp [waitingIn, pool?, hpools]

theorem Beside.sound_matched (h : Beside b L) : b.Sound ∧ Matches b L := by
  obtain ⟨st, b₀, hst, hrun⟩ := h
  have hall : ∀ p, Relation.ReflTransGen Booked (b₀, {}) p → p.1.Sound ∧ Matches p.1 p.2 := by
    intro p hp
    induction hp with
    | refl =>
      refine ⟨sound_of_ofSettings hst, ?_⟩
      rw [eq_of_ofSettings hst]
      exact matches_empty rfl rfl
    | tail _ hbooked ih => exact ⟨hbooked.move.sound ih.1, hbooked.matched ih.1 ih.2⟩
  exact hall (b, L) hrun

theorem eq_of_pairwise_precedes {l l' : List TaskId} (hl : l.Pairwise (b.Precedes L s))
    (hl' : l'.Pairwise (b.Precedes L s)) (hmem : ∀ t, t ∈ l ↔ t ∈ l') : l = l' := by
  have hnodup : ∀ {l : List TaskId}, l.Pairwise (b.Precedes L s) → l.Nodup := by
    intro l hl
    refine hl.imp ?_
    rintro a _ hprec rfl
    exact hprec.asymm hprec
  have hperm := (List.perm_ext_iff_of_nodup (hnodup hl) (hnodup hl')).mpr hmem
  exact hperm.eq_of_pairwise (fun _ _ _ _ h h' ↦ (h.asymm h').elim) hl hl'

/-- The ledger tells what is in pool `s`, and that the tasks of the pool that are not assigned wait
there in the order of their priorities and numbers. -/
structure InOrder (b : Board) (L : Ledger) (s : PoolId) : Prop where
  member : ∀ t, (L.number s t).isSome = b.contains s t
  waiting : ∀ l, l = b.waitingIn s ↔
    (∀ t, t ∈ l ↔ (L.number s t).isSome = true ∧ t ∉ b.assignedIn s) ∧ l.Pairwise (b.Precedes L s)

theorem contains_iff : b.contains s t = true ↔ t ∈ b.waitingIn s ∨ t ∈ b.assignedIn s := by
  rw [contains, waitingIn, assignedIn]
  cases b.pool? s with
  | none => simp
  | some p => simp [Pool.contains]

theorem Matches.inOrder (hm : Matches b L) (hb : b.Linked) (s : PoolId) : InOrder b L s := by
  have hmember : ∀ t, (L.number s t).isSome = true ↔ t ∈ b.waitingIn s ∨ t ∈ b.assignedIn s := by
    intro t
    have hlisted := (hb.fits t).listed s
    rw [← hm.member] at hlisted
    rw [← List.count_pos_iff, ← List.count_pos_iff]
    change _ ↔ 0 < b.waits t s ∨ 0 < b.holds t s
    split at hlisted
    · next h => exact iff_of_true h (by omega)
    · next h => exact iff_of_false h (by omega)
  have hwaiting : ∀ t, t ∈ b.waitingIn s ↔ (L.number s t).isSome = true ∧ t ∉ b.assignedIn s := by
    intro t
    have hle := (hb.fits t).le_one s
    rw [waits, holds] at hle
    rw [hmember, ← List.count_pos_iff, ← List.count_pos_iff]
    omega
  constructor
  · intro t
    rw [Bool.eq_iff_iff, hmember, contains_iff]
  · intro l
    constructor
    · rintro rfl
      exact ⟨hwaiting, hm.ordered s⟩
    · rintro ⟨hmem, hl⟩
      exact eq_of_pairwise_precedes hl (hm.ordered s) fun t ↦ (hmem t).trans (hwaiting t).symm

section Sorting

variable {x : Task} {p : Pool} {ts : List (TaskId × Task)}

theorem schedule_of_live (hb : b.Linked) (hp : b.pool? s = some p) (hx : b.tasks[t]? = some x)
    (hend : x.terminated = false) (hs : x.pools.contains s = false) :
    schedule s t b = .ok () (b.scheduled s t x.priority) := by
  have hlisted := (hb.fits_some hx).listed s
  rw [Option.any_some, hs, if_neg Bool.false_ne_true, waits_of_pool? hp, holds_of_pool? hp] at hlisted
  have hnot : p.contains t = false := by
    rw [Pool.contains, Bool.or_eq_false_iff, ← Bool.not_eq_true, ← Bool.not_eq_true,
      List.contains_iff_mem, List.contains_iff_mem, ← List.count_eq_zero, ← List.count_eq_zero]
    omega
  rw [schedule, getTask_bind hx]
  simp only [hend, Bool.false_eq_true, if_false]
  rw [getPool_bind hp]
  simp only [hnot, hs, Bool.or_self, Bool.false_eq_true, if_false]
  rfl

theorem forM_schedule (hb : b.Linked) (hm : Matches b L) (hp : b.pool? s = some p)
    (hts : ∀ e ∈ ts, b.tasks[e.1]? = some e.2 ∧ e.2.terminated = false ∧ e.2.pools.contains s = false)
    (hnodup : (ts.map (·.1)).Nodup) :
    ∃ b' L', ts.forM (fun e ↦ schedule s e.1) b = .ok () b' ∧ b'.Linked ∧ Matches b' L' ∧
      (∀ t, t ∈ b'.waitingIn s ↔ t ∈ b.waitingIn s ∨ t ∈ ts.map (·.1)) ∧
      (∀ t, t ∉ ts.map (·.1) → b'.key L' s t = b.key L s t) ∧
      ∀ e i, (e, i) ∈ ts.zipIdx → b'.key L' s e.1 = some (e.2.priority, L.next + i) := by
  induction ts generalizing b L p with
  | nil => exact ⟨b, L, rfl, hb, hm, by simp, by simp, by simp⟩
  | cons e ts ih =>
    obtain ⟨t, x⟩ := e
    obtain ⟨⟨hx, hend, hs⟩, hts⟩ := List.forall_mem_cons.mp hts
    obtain ⟨hnot, hnodup⟩ := List.nodup_cons.mp hnodup
    have htouches := scheduled_touches b s t x.priority
    have hts₁ : ∀ e ∈ ts, (b.scheduled s t x.priority).tasks[e.1]? = some e.2 ∧
        e.2.terminated = false ∧ e.2.pools.contains s = false := by
      intro e he
      have hne : e.1 ≠ t := fun h ↦ hnot (List.mem_map.mpr ⟨e, he, h⟩)
      rw [htouches.tasks e.1 hne]
      exact hts e he
    obtain ⟨b', L', hrun, hb', hm', hmem, hsame, hkeys⟩ :=
      ih (hb.schedule hx hend hp hs) (hm.schedule hb hx hp hs) (pool?_mapPool_self hp _) hts₁ hnodup
    refine ⟨b', L', ?_, hb', hm', ?_, ?_, ?_⟩
    · exact (bind_of_ok (schedule_of_live hb hp hx hend hs) _).trans hrun
    · intro t'
      rw [hmem, scheduled, waitingIn_mapTask, waitingIn_of_pool? (pool?_mapPool_self hp _),
        Pool.enqueue, Pool.mem_insertAt, waitingIn_of_pool? hp, List.map_cons, List.mem_cons]
      tauto
    · intro t' ht'
      rw [List.map_cons, List.mem_cons, not_or] at ht'
      rw [hsame t' ht'.2, key_of_touches htouches (L.renew_touches t _) ht'.1]
    · intro e i he
      rw [List.zipIdx_cons', List.mem_cons] at he
      rcases he with he | he
      · cases he
        rw [hsame t hnot, key_of_task (getElem?_scheduled hx s _), L.number_renew]
        simp
      · obtain ⟨⟨e', j⟩, hj, heq⟩ := List.mem_map.mp he
        cases heq
        change b'.key L' s e'.1 = some (e'.2.priority, L.next + (j + 1))
        rw [hkeys e' j hj, Nat.add_comm j 1, ← Nat.add_assoc]
        rfl

theorem pairwise_precedes_mergeSort {n : Nat}
    (hkeys : ∀ e i, (e, i) ∈ ts.zipIdx → b.key L s e.1 = some (e.2.priority, n + i)) :
    ((ts.mergeSort fun e e' ↦ e.2.mayPrecede e'.2).map (·.1)).Pairwise (b.Precedes L s) := by
  let le : TaskId × Task → TaskId × Task → Bool := fun e e' ↦ e.2.mayPrecede e'.2
  have htrans : ∀ e e' e'', le e e' = true → le e' e'' = true → le e e'' = true := by
    intro e e' e'' h h'
    exact decide_eq_true (Int32.le_trans (of_decide_eq_true h') (of_decide_eq_true h))
  have htotal : ∀ e e', (le e e' || le e' e) = true := by
    intro e e'
    rw [Bool.or_eq_true]
    exact (Int32.le_total e'.2.priority e.2.priority).imp decide_eq_true decide_eq_true
  have hsorted := List.pairwise_mergeSort (List.zipIdxLE_trans htrans) (List.zipIdxLE_total htotal)
    (ts.zipIdx)
  have hindex : ((ts.zipIdx).mergeSort (List.zipIdxLE le)).Pairwise (·.2 ≠ ·.2) := by
    have hperm := (List.mergeSort_perm (ts.zipIdx) (List.zipIdxLE le)).map (·.2)
    rw [List.zipIdx_map_snd] at hperm
    exact List.pairwise_map.mp (hperm.nodup_iff.mpr List.nodup_range')
  have hstable : ((ts.zipIdx).mergeSort (List.zipIdxLE le)).map (·.1) = ts.mergeSort le :=
    List.mergeSort_zipIdx
  change ((ts.mergeSort le).map (·.1)).Pairwise _
  rw [← hstable, List.map_map, List.pairwise_map]
  refine (hsorted.and hindex).imp_of_mem ?_
  rintro ⟨e, i⟩ ⟨e', j⟩ he he' ⟨hle, hne⟩
  refine ⟨_, _, hkeys e i (List.mem_mergeSort.mp he), hkeys e' j (List.mem_mergeSort.mp he'), ?_⟩
  rw [List.zipIdxLE] at hle
  split at hle
  · next hfirst =>
    have hprio : e'.2.priority ≤ e.2.priority := of_decide_eq_true hfirst
    split at hle
    · next hlast =>
      have hij : i ≤ j := of_decide_eq_true hle
      exact .inr ⟨Int32.le_antisymm hprio (of_decide_eq_true hlast), by simp only; omega⟩
    · next hlast =>
      have hlast : ¬ e.2.priority ≤ e'.2.priority := fun h ↦ hlast (decide_eq_true h)
      exact .inl (Int32.not_le.mp hlast)
  · cases hle

theorem Matches.exists_schedule_all (hm : Matches b L) (hb : b.Linked) (hp : b.pool? s = some p)
    (hwaiting : p.waiting = []) (hassigned : p.assigned = []) (hnodup : (ts.map (·.1)).Nodup)
    (hts : ∀ e ∈ ts, b.tasks[e.1]? = some e.2 ∧ e.2.terminated = false) :
    ∃ b', ts.forM (fun e ↦ Board.schedule s e.1) b = .ok () b' ∧
      b'.waitingIn s = (ts.mergeSort fun e e' ↦ e.2.mayPrecede e'.2).map (·.1) := by
  -- Nothing is in the pool, so the tasks are not.
  have hts' : ∀ e ∈ ts, b.tasks[e.1]? = some e.2 ∧ e.2.terminated = false ∧
      e.2.pools.contains s = false := by
    intro e he
    obtain ⟨hx, hend⟩ := hts e he
    refine ⟨hx, hend, Bool.eq_false_iff.mpr fun hs ↦ ?_⟩
    have hlisted := (hb.fits_some hx).listed s
    rw [waits_of_pool? hp, holds_of_pool? hp, hwaiting, hassigned, Option.any_some, hs] at hlisted
    cases hlisted
  obtain ⟨b', L', hrun, -, hm', hmem, -, hkeys⟩ := forM_schedule hb hm hp hts' hnodup
  refine ⟨b', hrun, eq_of_pairwise_precedes (hm'.ordered s) (pairwise_precedes_mergeSort hkeys) ?_⟩
  intro t
  rw [hmem, waitingIn_of_pool? hp, hwaiting, ((ts.mergeSort_perm _).map _).mem_iff]
  simp

end Sorting

/-- A ledger can be kept beside every run. It tells what is in each pool and in which order the tasks
wait there. So distinct live tasks that are let into an empty pool wait in their stable order by
priority. -/
theorem Reached.queue_order (h : Reached b) :
    (∃ L, Beside b L) ∧ (∀ L, Beside b L → ∀ s, InOrder b L s) ∧
      ∀ (s : PoolId) (p : Pool) (ts : List (TaskId × Task)), b.pool? s = some p → p.waiting = [] →
        p.assigned = [] → (ts.map (·.1)).Nodup →
        (∀ e ∈ ts, b.tasks[e.1]? = some e.2 ∧ e.2.terminated = false) →
        ∃ b', ts.forM (fun e ↦ schedule s e.1) b = .ok () b' ∧
          b'.waitingIn s = (ts.mergeSort fun e e' ↦ e.2.mayPrecede e'.2).map (·.1) := by
  obtain ⟨L, hL⟩ := h.exists_beside
  refine ⟨⟨L, hL⟩, fun L' hL' s ↦ ?_, fun s p ts hp hwaiting hassigned hnodup hts ↦ ?_⟩
  · obtain ⟨hsound, hm⟩ := hL'.sound_matched
    exact hm.inOrder hsound.toLinked s
  · obtain ⟨hsound, hm⟩ := hL.sound_matched
    exact hm.exists_schedule_all hsound.toLinked hp hwaiting hassigned hnodup hts

def alarm : Task := { rally with name := "alarm", priority := 7 }

def yard : Board :=
  after (putTask ⟨2⟩ alarm) (after (putTask ⟨1⟩ respite) (after (putTask ⟨0⟩ rally)
    (after (addPool ⟨0⟩) {})))

theorem reached_yard : Reached yard := by
  have hpool : Reached _ := reached_empty.move (.addPool _ ⟨0⟩)
  have htasks := (hpool.move (.putTask _ ⟨0⟩ rally rfl trivial)).move (.putTask _ ⟨1⟩ respite rfl trivial)
  exact htasks.move (.putTask _ ⟨2⟩ alarm rfl trivial)

theorem queue_order_yard :
    (∃ L, Beside yard L ∧ InOrder yard L ⟨0⟩) ∧
      ∃ b', [(⟨0⟩, rally), (⟨1⟩, respite), (⟨2⟩, alarm)].forM (fun e ↦ schedule ⟨0⟩ e.1) yard =
        .ok () b' ∧ b'.waitingIn ⟨0⟩ = [⟨2⟩, ⟨0⟩, ⟨1⟩] := by
  obtain ⟨⟨L, hL⟩, horder, hsort⟩ := Reached.queue_order reached_yard
  refine ⟨⟨L, hL, horder L hL ⟨0⟩⟩, ?_⟩
  obtain ⟨b', hrun, hwaiting⟩ := hsort ⟨0⟩ { faction := ⟨0⟩ }
    [(⟨0⟩, rally), (⟨1⟩, respite), (⟨2⟩, alarm)] rfl rfl rfl (by decide) (by
      intro e he
      simp only [List.mem_cons, List.not_mem_nil, or_false] at he
      rcases he with rfl | rfl | rfl <;> exact ⟨rfl, rfl⟩)
  refine ⟨b', hrun, hwaiting.trans ?_⟩
  simp [List.mergeSort, List.MergeSort.Internal.splitInTwo, Task.mayPrecede, alarm, rally, respite]

end Board

end Errand
