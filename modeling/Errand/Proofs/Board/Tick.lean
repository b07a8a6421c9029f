import Errand.Proofs.Board.Sound
import Errand.Simulation

namespace Errand

variable {ω ρ : Type}

theorem Program.not_stopped_of_suspended [World ω] [Chance ρ] {p : Program} {budget : Nat}
    {actor : Actor} {world : ω} {source : ρ} {why : Suspension}
    (h : (p.advance budget actor world source).result = .ok (.suspended why)) :
    (p.advance budget actor world source).program.stopped = false := by
  rw [advance] at h ⊢
  split at h
  · cases h
  · next hp =>
    rw [if_neg hp]
    split at h
    · next outcome m _ =>
      cases outcome with
      | completed => cases h
      | suspended => exact Bool.eq_false_iff.mpr hp
      | broke loop => cases h
    · cases h

theorem Program.advance_ne_stopped [World ω] [Chance ρ] {p : Program} (h : p.stopped = false)
    (budget : Nat) (actor : Actor) (world : ω) (source : ρ) :
    (p.advance budget actor world source).result ≠ .ok .stopped := by
  rw [advance, if_neg (by rw [h]; exact Bool.false_ne_true)]
  split
  · next outcome m _ => cases outcome <;> exact nofun
  · exact nofun

def Task.ran (x : Task) (step : Program.Step ω ρ) : Task :=
  { x with program := some step.program.collect.2 }

namespace Report

def ran (report : Report) (t : TaskId) (u : UnitId) (step : Program.Step ω ρ) : Report :=
  { report with
    executed := report.executed + 1
    output := report.output ++ step.program.collect.1.map (t, u, ·) }

def finish (report : Report) (t : TaskId) : Report :=
  { report with finished := report.finished ++ [t] }

def handBack (report : Report) (t : TaskId) (why : ReclaimReason) : Report :=
  { report with reclaimed := report.reclaimed ++ [(t, why)] }

end Report

namespace Board

variable {b b' : Board} {s : PoolId} {t : TaskId}

/-- In pool `s`, task `t` is assigned. It is `x`, and unit `u` carries it out with program `q`. -/
structure Carries (b : Board) (s : PoolId) (t : TaskId) (x : Task) (u : UnitId) (q : Program) :
    Prop where
  assigned : t ∈ b.assignedIn s
  task : b.tasks[t]? = some x
  executor : x.executor = some u
  program : x.program = some q
  live : x.terminated = false

theorem Linked.exists_carries (h : b.Linked) (ht : t ∈ b.assignedIn s) :
    ∃ x u q, b.Carries s t x u q := by
  have hpos : 0 < b.holds t s := List.count_pos_iff.mpr ht
  obtain ⟨x, hx, -, hend⟩ := h.exists_task (s := s) (t := t) (by omega)
  have hfit := h.fits_some hx
  have hexec := (hfit.held x rfl).mpr ⟨s, hpos⟩
  obtain ⟨u, hu⟩ := Option.isSome_iff_exists.mp hexec
  obtain ⟨q, hq⟩ := Option.isSome_iff_exists.mp ((hfit.driven x rfl).trans hexec)
  exact ⟨x, u, q, ht, hx, hu, hq, hend⟩

theorem mem_assignments : (s, t) ∈ b.assignments ↔ t ∈ b.assignedIn s := by
  rw [assignments, List.mem_flatMap]
  constructor
  · rintro ⟨⟨p, i⟩, hp, ht⟩
    obtain ⟨t', ht', he⟩ := List.mem_map.mp ht
    cases he
    have hpool : b.pool? ⟨i⟩ = some p := List.mem_zipIdx_iff_getElem?.mp hp
    rw [assignedIn_of_pool? hpool]
    exact ht'
  · intro ht
    obtain ⟨p, hp, ht⟩ := exists_pool_of_assigned ht
    refine ⟨(p, s.val), List.mem_zipIdx_iff_getElem?.mpr hp, ?_⟩
    exact List.mem_map.mpr ⟨t, ht, rfl⟩

theorem Linked.pairwise_assignments (h : b.Linked) : b.assignments.Pairwise (·.2 ≠ ·.2) := by
  rw [assignments, List.pairwise_flatMap]
  constructor
  · rintro ⟨p, i⟩ hp
    have hpool : b.pool? ⟨i⟩ = some p := List.mem_zipIdx_iff_getElem?.mp hp
    have hnodup : p.assigned.Nodup := by
      refine List.nodup_iff_count.mpr fun t ↦ ?_
      have hle := (h.fits t).le_one ⟨i⟩
      rw [holds_of_pool? hpool] at hle
      omega
    exact List.pairwise_map.mpr hnodup
  · have hindex : b.pools.zipIdx.Pairwise (·.2 ≠ ·.2) := by
      have hrange := List.nodup_range' (s := 0) (n := b.pools.length)
      rw [← List.zipIdx_map_snd] at hrange
      exact List.pairwise_map.mp hrange
    refine hindex.imp_of_mem ?_
    rintro ⟨p, i⟩ ⟨q, j⟩ hp hq hij e he f hf heq
    obtain ⟨t, ht, rfl⟩ := List.mem_map.mp he
    obtain ⟨t', ht', rfl⟩ := List.mem_map.mp hf
    cases heq
    have hi := holds_pos (s := ⟨i⟩) (List.mem_zipIdx_iff_getElem?.mp hp) ht
    have hj := holds_pos (s := ⟨j⟩) (List.mem_zipIdx_iff_getElem?.mp hq) ht'
    cases (h.fits t).once _ _ hi hj
    exact hij rfl

end Board

namespace Simulation

open Board

variable {α : Type} {sim sim' : Simulation ω ρ} {s : PoolId} {t : TaskId} {x : Task} {u : UnitId}
  {q : Program} {report report' : Report}

theorem onBoard_of_ok {y : BoardM α} {a : α} {b : Board} (h : y sim.board = .ok a b) :
    onBoard y sim = .ok a { sim with board := b } := by
  rw [onBoard, h]

def advanced (sim : Simulation ω ρ) (t : TaskId) (step : Program.Step ω ρ) : Simulation ω ρ :=
  ⟨sim.board.mapTask t (·.ran step), step.world, step.source⟩

def endTask (sim : Simulation ω ρ) (t : TaskId) (x : Task) : Simulation ω ρ :=
  { sim with board := sim.board.endedTask t x }

def handBack (sim : Simulation ω ρ) (s : PoolId) (t : TaskId) (x : Task) : Simulation ω ρ :=
  { sim with board := sim.board.handedBack s t x (sim.board.lowered x) }

theorem getElem?_advanced (hx : sim.board.tasks[t]? = some x) (step : Program.Step ω ρ) :
    (sim.advanced t step).board.tasks[t]? = some (x.ran step) := getElem?_mapTask_self hx _

theorem advanced_touches (sim : Simulation ω ρ) (t : TaskId) (step : Program.Step ω ρ) :
    Touches t sim.board (sim.advanced t step).board := touches_mapTask _ t _

theorem linked_advanced (h : sim.board.Linked) (hc : sim.board.Carries s t x u q)
    (step : Program.Step ω ρ) : (sim.advanced t step).board.Linked :=
  h.run hc.task (by rw [hc.executor]; rfl) _

theorem reclaim_of_assigned (sim : Simulation ω ρ) (ht : t ∈ sim.board.assignedIn s)
    (hx : sim.board.tasks[t]? = some x) (report : Report) (why : ReclaimReason) :
    reclaim report s t why sim = .ok (report.handBack t why) (sim.handBack s t x) := by
  obtain ⟨p, hp, hmem⟩ := exists_pool_of_assigned ht
  have hok := Board.reclaim_of_assigned hp hmem hx
  rw [reclaim, bind_of_ok (discard_of_ok (onBoard_of_ok hok))]
  rfl

theorem settle_finished (hx : sim.board.tasks[t]? = some x) (hend : x.terminated = false)
    (report : Report) (s : PoolId) :
    settle report s t (.ok .finished) sim = .ok (report.finish t) (sim.endTask t x) := by
  rw [settle, bind_of_ok (onBoard_of_ok (terminate_of_running hx hend))]
  rfl

variable [World ω] [Chance ρ]

def stepOf (sim : Simulation ω ρ) (x : Task) (u : UnitId) (q : Program) : Program.Step ω ρ :=
  q.advance sim.board.execution.tickBudget.toNat ⟨u, x.selected⟩ sim.world sim.source

inductive Turn (s : PoolId) (t : TaskId) (x : Task) (u : UnitId) (q : Program) (report : Report)
    (sim : Simulation ω ρ) : Report → Simulation ω ρ → Prop
  | bereft (hdead : World.terminated sim.world u = true) :
      Turn s t x u q report sim (report.handBack t (.executorTerminated u)) (sim.handBack s t x)
  | waits (hlive : World.terminated sim.world u = false) (why : Suspension)
      (hend : (sim.stepOf x u q).result = .ok (.suspended why)) :
      Turn s t x u q report sim (report.ran t u (sim.stepOf x u q)) (sim.advanced t (sim.stepOf x u q))
  | finishes (hlive : World.terminated sim.world u = false)
      (hend : (sim.stepOf x u q).result = .ok .finished) :
      Turn s t x u q report sim ((report.ran t u (sim.stepOf x u q)).finish t)
        ((sim.advanced t (sim.stepOf x u q)).endTask t (x.ran (sim.stepOf x u q)))
  | fails (hlive : World.terminated sim.world u = false) (e : ProgramError)
      (hend : (sim.stepOf x u q).result = .error e) :
      Turn s t x u q report sim ((report.ran t u (sim.stepOf x u q)).handBack t (.programFailed e))
        ((sim.advanced t (sim.stepOf x u q)).handBack s t (x.ran (sim.stepOf x u q)))

theorem runTask_turn (h : sim.board.Sound) (hc : sim.board.Carries s t x u q) (report : Report) :
    ∃ report' sim', runTask report s t sim = .ok report' sim' ∧
      Turn s t x u q report sim report' sim' := by
  have hget : getTask t sim.board = .ok x sim.board := by
    have hbind := getTask_bind hc.task pure
    rw [bind_pure] at hbind
    exact hbind
  rw [runTask, bind_of_ok (onBoard_of_ok hget)]
  simp only [hc.executor]
  rw [bind_apply, get_apply]
  cases hdead : World.terminated sim.world u with
  | true =>
    simp only [hdead, if_true]
    exact ⟨_, _, reclaim_of_assigned sim hc.assigned hc.task report _, .bereft hdead⟩
  | false =>
    simp only [hdead, hc.program, Bool.false_eq_true, if_false]
    have hrun : runProgram t ⟨u, x.selected⟩ q sim =
        .ok ((sim.stepOf x u q).result, (sim.stepOf x u q).program.collect.1)
          (sim.advanced t (sim.stepOf x u q)) := rfl
    have hx' := getElem?_advanced hc.task (sim.stepOf x u q)
    rw [bind_of_ok hrun]
    change ∃ report' sim', settle (report.ran t u (sim.stepOf x u q)) s t (sim.stepOf x u q).result
      (sim.advanced t (sim.stepOf x u q)) = .ok report' sim' ∧ _
    match hend : (sim.stepOf x u q).result with
    | .ok .finished => exact ⟨_, _, settle_finished hx' hc.live _ s, .finishes hdead hend⟩
    | .ok (.suspended why) => exact ⟨_, _, rfl, .waits hdead why hend⟩
    | .ok .stopped =>
      exact absurd hend (Program.advance_ne_stopped (h.running t x q hc.task hc.program) _ _ _ _)
    | .error e =>
      have hok := reclaim_of_assigned (sim.advanced t (sim.stepOf x u q)) hc.assigned hx'
      exact ⟨_, _, hok _ _, .fails hdead e hend⟩

theorem Turn.touches (turn : Turn s t x u q report sim report' sim') :
    Touches t sim.board sim'.board := by
  cases turn with
  | bereft => exact handedBack_touches _ s t _ _
  | waits => exact advanced_touches sim t _
  | finishes => exact (advanced_touches sim t _).trans (endedTask_touches _ t _)
  | fails => exact (advanced_touches sim t _).trans (handedBack_touches _ s t _ _)

theorem Turn.linked (h : sim.board.Linked) (hc : sim.board.Carries s t x u q)
    (turn : Turn s t x u q report sim report' sim') : sim'.board.Linked := by
  obtain ⟨p, hp, hmem⟩ := exists_pool_of_assigned hc.assigned
  have hrun := linked_advanced h hc (sim.stepOf x u q)
  have hx' := getElem?_advanced hc.task (sim.stepOf x u q)
  cases turn with
  | bereft => exact h.reclaim hc.task hp hmem _
  | waits => exact hrun
  | finishes => exact hrun.terminate hx'
  | fails => exact hrun.reclaim hx' hp hmem _

theorem Turn.task (hc : sim.board.Carries s t x u q)
    (turn : Turn s t x u q report sim report' sim') :
    sim'.board.tasks[t]? = some { x.stop with priority := sim.board.lowered x } ∨
      sim'.board.tasks[t]? = some { x.unlinked with terminated := true } ∨
      (∃ why, (sim.stepOf x u q).result = .ok (.suspended why)) ∧
        sim'.board.tasks[t]? = some (x.ran (sim.stepOf x u q)) := by
  have hx' := getElem?_advanced hc.task (sim.stepOf x u q)
  cases turn with
  | bereft => exact .inl (getElem?_handedBack hc.task _)
  | waits _ why hend => exact .inr (.inr ⟨⟨why, hend⟩, hx'⟩)
  | finishes => exact .inr (.inl (getElem?_endedTask hx'))
  | fails => exact .inl (getElem?_handedBack hx' _)

theorem Turn.kept (h : sim.board.Sound) (hc : sim.board.Carries s t x u q)
    (turn : Turn s t x u q report sim report' sim') : Kept sim.board sim'.board := by
  refine .of_touches turn.touches hc.task hc.live
    (h.of_touches turn.touches (turn.linked h.toLinked hc) ?_)
  intro y q' hy hq'
  rcases turn.task hc with hx' | hx' | ⟨⟨why, hend⟩, hx'⟩
  · cases hx'.symm.trans hy
    cases hq'
  · cases hx'.symm.trans hy
    cases hq'
  · cases hx'.symm.trans hy
    cases hq'
    exact Program.not_stopped_of_suspended hend

def turns (l : List (PoolId × TaskId)) (report : Report) : SimM ω ρ Report :=
  l.foldlM (fun report (s, t) ↦ runTask report s t) report

theorem turns_cons (s : PoolId) (t : TaskId) (l : List (PoolId × TaskId)) (report : Report) :
    (turns ((s, t) :: l) report : SimM ω ρ Report) = runTask report s t >>= turns l := rfl

/-- The tasks of a list are assigned, and no two entries are of one task. -/
structure Due (b : Board) (l : List (PoolId × TaskId)) : Prop where
  assigned : ∀ e ∈ l, e.2 ∈ b.assignedIn e.1
  distinct : l.Pairwise (·.2 ≠ ·.2)

theorem due_assignments {b : Board} (h : b.Linked) : Due b b.assignments :=
  ⟨fun _ he ↦ mem_assignments.mp he, h.pairwise_assignments⟩

theorem Due.of_touches {b b' : Board} {l : List (PoolId × TaskId)} (h : Due b ((s, t) :: l))
    (ht : Touches t b b') : Due b' l := by
  obtain ⟨hne, hrest⟩ := List.pairwise_cons.mp h.distinct
  refine ⟨fun e he ↦ ?_, hrest⟩
  have hassigned := h.assigned e (List.mem_cons_of_mem _ he)
  rw [← List.count_pos_iff] at hassigned ⊢
  change 0 < b'.holds e.2 e.1
  rwa [ht.holds_eq (hne e he).symm]

inductive Turns : List (PoolId × TaskId) → Report → Simulation ω ρ → Report → Simulation ω ρ → Prop
  | nil (report : Report) {sim : Simulation ω ρ} (h : sim.board.Sound) : Turns [] report sim report sim
  | cons {s : PoolId} {t : TaskId} {x : Task} {u : UnitId} {q : Program}
      {l : List (PoolId × TaskId)} {report report₁ report' : Report} {sim sim₁ sim' : Simulation ω ρ}
      (h : sim.board.Sound) (hc : sim.board.Carries s t x u q)
      (hrun : runTask report s t sim = .ok report₁ sim₁) (turn : Turn s t x u q report sim report₁ sim₁)
      (rest : Turns l report₁ sim₁ report' sim') : Turns ((s, t) :: l) report sim report' sim'

theorem exists_turns {l : List (PoolId × TaskId)} (h : sim.board.Sound) (hl : Due sim.board l)
    (report : Report) : ∃ report' sim', Turns l report sim report' sim' := by
  induction l generalizing sim report with
  | nil => exact ⟨report, sim, .nil report h⟩
  | cons e l ih =>
    obtain ⟨s, t⟩ := e
    obtain ⟨x, u, q, hc⟩ := h.toLinked.exists_carries (hl.assigned (s, t) List.mem_cons_self)
    obtain ⟨report₁, sim₁, hrun, turn⟩ := runTask_turn h hc report
    obtain ⟨report', sim', rest⟩ := ih (turn.kept h hc).sound (hl.of_touches turn.touches) report₁
    exact ⟨report', sim', .cons h hc hrun turn rest⟩

namespace Turns

variable {l : List (PoolId × TaskId)}

theorem turns_eq (h : Turns l report sim report' sim') : turns l report sim = .ok report' sim' := by
  induction h with
  | nil => rfl
  | cons _ _ hrun _ _ ih => rw [turns_cons, bind_of_ok hrun, ih]

theorem kept (h : Turns l report sim report' sim') : Kept sim.board sim'.board := by
  induction h with
  | nil _ h => exact .refl h
  | cons h hc _ turn _ ih => exact (turn.kept h hc).trans ih

end Turns

/-- No tick fails on a sound board. -/
theorem exists_tick (h : sim.board.Sound) : ∃ report sim', tick sim = .ok report sim' ∧
    Turns sim.board.assignments {} sim report sim' := by
  obtain ⟨report, sim', hturns⟩ := exists_turns h (due_assignments h.toLinked) {}
  refine ⟨report, sim', ?_, hturns⟩
  rw [tick, bind_apply, get_apply]
  exact hturns.turns_eq

end Simulation

end Errand
