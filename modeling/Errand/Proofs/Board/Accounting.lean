import Errand.Proofs.Board.Scripted

namespace Errand

def Report.handedBack (report : Report) : List TaskId := report.reclaimed.map (·.1)

namespace Simulation

open Board

variable {ω ρ : Type} [World ω] [Chance ρ] {sim sim' : Simulation ω ρ} {s : PoolId} {t t' : TaskId}
  {x : Task} {u : UnitId} {q : Program} {report report' report'' : Report} {b b' b'' : Board}
  {l : List (PoolId × TaskId)}

structure Spares (t : TaskId) (report report' : Report) (b b' : Board) : Prop where
  task : b'.tasks[t]? = b.tasks[t]?
  waits : b'.waits t = b.waits t
  holds : b'.holds t = b.holds t
  finished : report'.finished.count t = report.finished.count t
  handedBack : report'.handedBack.count t = report.handedBack.count t

theorem Spares.trans (h : Spares t report report' b b') (h' : Spares t report' report'' b' b'') :
    Spares t report report'' b b'' where
  task := h'.task.trans h.task
  waits := h'.waits.trans h.waits
  holds := h'.holds.trans h.holds
  finished := h'.finished.trans h.finished
  handedBack := h'.handedBack.trans h.handedBack

theorem count_finish (report : Report) (t t' : TaskId) :
    (report.finish t).finished.count t' = report.finished.count t' + if t = t' then 1 else 0 := by
  rw [Report.finish, List.count_append, List.count_singleton]
  simp

theorem count_handBack (report : Report) (t : TaskId) (why : ReclaimReason) (t' : TaskId) :
    (report.handBack t why).handedBack.count t' =
      report.handedBack.count t' + if t = t' then 1 else 0 := by
  rw [Report.handedBack, Report.handBack, List.map_append, List.count_append, List.map_singleton,
    List.count_singleton]
  simp [Report.handedBack]

theorem Turn.spares (turn : Turn s t x u q report sim report' sim') (hne : t' ≠ t) :
    Spares t' report report' sim.board sim'.board where
  task := turn.touches.tasks t' hne
  waits := turn.touches.waits_eq hne
  holds := turn.touches.holds_eq hne
  finished := by
    cases turn with
    | finishes => rw [count_finish, if_neg hne.symm]; rfl
    | _ => rfl
  handedBack := by
    cases turn with
    | bereft => rw [count_handBack, if_neg hne.symm]; rfl
    | fails => rw [count_handBack, if_neg hne.symm]; rfl
    | _ => rfl

theorem Turns.spares (h : Turns l report sim report' sim') (hl : ∀ e ∈ l, e.2 ≠ t) :
    Spares t report report' sim.board sim'.board := by
  induction h with
  | nil => exact ⟨rfl, rfl, rfl, rfl, rfl⟩
  | cons _ _ _ turn _ ih =>
    obtain ⟨hne, hrest⟩ := List.forall_mem_cons.mp hl
    exact (turn.spares hne.symm).trans (ih hrest)

theorem Turn.scheduler (turn : Turn s t x u q report sim report' sim') :
    sim'.board.scheduler = sim.board.scheduler := by
  cases turn with
  | waits => rfl
  | finishes => exact scheduler_mapPools _ _ _
  | bereft | fails => exact scheduler_mapPools _ _ _

theorem Turns.scheduler (h : Turns l report sim report' sim') :
    sim'.board.scheduler = sim.board.scheduler := by
  induction h with
  | nil => rfl
  | cons _ _ _ turn _ ih => exact ih.trans turn.scheduler

theorem Turns.of_append {l' : List (PoolId × TaskId)} (h : Turns (l ++ l') report sim report' sim') :
    ∃ report₁ sim₁, Turns l report sim report₁ sim₁ ∧ Turns l' report₁ sim₁ report' sim' := by
  induction l generalizing report sim with
  | nil =>
    have hsound : sim.board.Sound := by cases h <;> assumption
    exact ⟨report, sim, .nil report hsound, h⟩
  | cons e l ih =>
    cases h with
    | cons h hc hrun turn rest =>
      obtain ⟨report₁, sim₁, hfirst, hlast⟩ := ih rest
      exact ⟨report₁, sim₁, .cons h hc hrun turn hfirst, hlast⟩

inductive Ending where
  | finished
  | handedBack
  | suspended
  deriving DecidableEq, Repr

/-- How task `t` comes out of a tick on board `b'`, if it was `x`, assigned in pool `s`, and is to go
back with the given priority. -/
inductive Ends (s : PoolId) (t : TaskId) (x : Task) (priority : Int32) (report : Report) (b' : Board) :
    Ending → Prop
  | finished (hfinished : report.finished.count t = 1) (hback : report.handedBack.count t = 0)
      (htask : b'.tasks[t]? = some { x.unlinked with terminated := true })
      (habsent : ∀ s', b'.waits t s' = 0 ∧ b'.holds t s' = 0) :
      Ends s t x priority report b' .finished
  | handedBack (hfinished : report.finished.count t = 0) (hback : report.handedBack.count t = 1)
      (htask : b'.tasks[t]? = some { x.stop with priority }) (hwaits : b'.waits t s = 1) :
      Ends s t x priority report b' .handedBack
  | suspended (hfinished : report.finished.count t = 0) (hback : report.handedBack.count t = 0)
      (q : Program) (htask : b'.tasks[t]? = some { x with program := some q })
      (hholds : b'.holds t s = 1) (hstopped : q.stopped = false) (hcurrent : q.current?.isSome = true) :
      Ends s t x priority report b' .suspended

theorem Ends.unique {priority : Int32} {e e' : Ending} (h : Ends s t x priority report b e)
    (h' : Ends s t x priority report b e') : e = e' := by
  cases h <;> cases h' <;> first | rfl | omega

theorem Ends.of_spares {priority : Int32} {e : Ending} (h : Ends s t x priority report b e)
    (hs : Spares t report report' b b') : Ends s t x priority report' b' e := by
  cases h with
  | finished hf hb ht ha =>
    refine .finished (hs.finished.trans hf) (hs.handedBack.trans hb) (hs.task.trans ht) ?_
    rw [hs.waits, hs.holds]
    exact ha
  | handedBack hf hb ht hw =>
    exact .handedBack (hs.finished.trans hf) (hs.handedBack.trans hb) (hs.task.trans ht)
      (hs.waits ▸ hw)
  | suspended hf hb q ht ha hq hcur =>
    exact .suspended (hs.finished.trans hf) (hs.handedBack.trans hb) q (hs.task.trans ht)
      (hs.holds ▸ ha) hq hcur

theorem current_of_suspended (hx : x.Scripted) (hq : x.program = some q) {why : Suspension}
    (h : (sim.stepOf x u q).result = .ok (.suspended why)) :
    (sim.stepOf x u q).program.collect.2.current?.isSome = true := by
  obtain ⟨d, hd⟩ := hx.accepted
  obtain ⟨capacity, hreached⟩ := hx.program q hq
  obtain ⟨point, hpoint⟩ := hreached.standsAt_of_suspended (Script.placed_of_build hd) h
  obtain ⟨site, -, hcurrent, -⟩ := hpoint.current
  exact Option.isSome_iff_exists.mpr ⟨site.id, hcurrent⟩

theorem Turn.ends (h : sim.board.Linked) (hc : sim.board.Carries s t x u q) (hx : x.Scripted)
    (turn : Turn s t x u q report sim report' sim') (hfinished : report.finished.count t = 0)
    (hback : report.handedBack.count t = 0) :
    ∃ e, Ends s t x (sim.board.lowered x) report' sim'.board e := by
  have hholds : 0 < sim.board.holds t s := List.count_pos_iff.mpr hc.assigned
  have hle := (h.fits t).le_one s
  obtain ⟨p, hp, -⟩ := exists_pool_of_assigned hc.assigned
  have hx' := getElem?_advanced hc.task (sim.stepOf x u q)
  cases turn with
  | bereft =>
    refine ⟨_, .handedBack hfinished ?_ (getElem?_handedBack hc.task _) ?_⟩
    · rw [count_handBack, if_pos rfl, hback]
    · rw [handBack, waits_handedBack hp, if_pos rfl]
      omega
  | waits _ why hend =>
    refine ⟨_, .suspended hfinished hback _ hx' ?_ ?_ (current_of_suspended hx hc.program hend)⟩
    · change sim.board.holds t s = 1
      omega
    · exact Program.not_stopped_of_suspended hend
  | finishes =>
    refine ⟨_, .finished ?_ hback (getElem?_endedTask hx') ?_⟩
    · rw [count_finish, if_pos rfl]
      exact congrArg (· + 1) hfinished
    · exact (linked_advanced h hc _).endedTask_absent hx'
  | fails =>
    refine ⟨_, .handedBack hfinished ?_ (getElem?_handedBack hx' _) ?_⟩
    · rw [count_handBack, if_pos rfl]
      exact congrArg (· + 1) hback
    · have hp' : (sim.advanced t (sim.stepOf x u q)).board.pool? s = some p := hp
      rw [handBack, waits_handedBack hp', if_pos rfl]
      change sim.board.waits t s + 1 = 1
      omega

theorem Turns.ends (h : Turns l report sim report' sim') (hl : l.Pairwise (·.2 ≠ ·.2))
    (hs : sim.board.Scripted) (hmem : (s, t) ∈ l) (hfinished : report.finished.count t = 0)
    (hback : report.handedBack.count t = 0) : ∃ x e, sim.board.tasks[t]? = some x ∧
      Ends s t x (sim.board.lowered x) report' sim'.board e := by
  obtain ⟨l₁, l₂, rfl⟩ := List.append_of_mem hmem
  obtain ⟨-, hlast, hcross⟩ := List.pairwise_append.mp hl
  have hl₁ : ∀ e ∈ l₁, e.2 ≠ t := fun e he ↦ hcross e he (s, t) List.mem_cons_self
  have hl₂ : ∀ e ∈ l₂, e.2 ≠ t := fun e he ↦ ((List.pairwise_cons.mp hlast).1 e he).symm
  obtain ⟨report₁, sim₁, hfirst, hrest⟩ := h.of_append
  have hbefore := hfirst.spares hl₁
  cases hrest with
  | @cons _ _ x u q _ _ _ _ _ _ _ hsound hc _ turn rest =>
    have hx := hfirst.scripted hs t x hc.task
    obtain ⟨e, hends⟩ := turn.ends hsound.toLinked hc hx (hbefore.finished.trans hfinished)
      (hbefore.handedBack.trans hback)
    have hlowered : sim₁.board.lowered x = sim.board.lowered x := by
      rw [lowered, hfirst.scheduler, lowered]
    rw [hlowered] at hends
    exact ⟨x, e, hbefore.task.symm.trans hc.task, hends.of_spares (rest.spares hl₂)⟩

def manned (sim : Simulation ω ρ) (t : TaskId) : Bool :=
  (sim.board.tasks[t]?.bind (·.executor)).any fun u ↦ !World.terminated sim.world u

/-- The simulation when the `i`-th turn of a tick comes. -/
def atTurn (sim : Simulation ω ρ) (i : Nat) : Simulation ω ρ :=
  after (turns (sim.board.assignments.take i) {}) sim

theorem Turn.executed (hc : sim.board.Carries s t x u q)
    (turn : Turn s t x u q report sim report' sim') :
    report'.executed = report.executed + if sim.manned t then 1 else 0 := by
  have hmanned : sim.manned t = !World.terminated sim.world u := by
    rw [manned, hc.task, Option.bind_some, hc.executor, Option.any_some]
  cases turn with
  | bereft hdead => simp [hmanned, hdead, Report.handBack]
  | waits hlive => simp [hmanned, hlive, Report.ran]
  | finishes hlive => simp [hmanned, hlive, Report.ran, Report.finish]
  | fails hlive => simp [hmanned, hlive, Report.ran, Report.handBack]

theorem Turns.executed (h : Turns l report sim report' sim') :
    report'.executed = report.executed +
      l.zipIdx.countP fun (e, i) ↦ (after (turns (l.take i) report) sim).manned e.2 := by
  induction h with
  | nil => rfl
  | @cons s t x u q l report report₁ report' sim sim₁ sim' _ hc hrun turn _ ih =>
    have htail : ∀ i, after (turns (((s, t) :: l).take (i + 1)) report) sim =
        after (turns (l.take i) report₁) sim₁ := by
      intro i
      rw [List.take_succ_cons, turns_cons, after, bind_of_ok hrun]
      rfl
    have hhead : after (turns (((s, t) :: l).take 0) report) sim = sim := rfl
    rw [ih, turn.executed hc, List.zipIdx_cons', List.countP_cons, List.countP_map]
    simp only [Function.comp_def, Prod.map, id, hhead, htail]
    omega

end Simulation

/-- A tick does not fail. Every task that is assigned when it begins comes out of it in one way: it has
ended, or it waits in its pool with lowered priority, or its unit still carries it out and its program
has stopped at a statement. No other task changes, and the report is about the assigned ones only. It
counts the programs of those whose unit is alive when their turn comes. -/
theorem Board.ReachedByAccepted.tick_accounts {ω ρ : Type} [World ω] [Chance ρ]
    (sim : Simulation ω ρ) (h : sim.board.ReachedByAccepted) :
    ∃ report sim', Simulation.tick sim = .ok report sim' ∧
      (∀ (s : PoolId) (t : TaskId), t ∈ sim.board.assignedIn s →
        ∃ x, sim.board.tasks[t]? = some x ∧
          ∃! e, Simulation.Ends s t x (sim.board.lowered x) report sim'.board e) ∧
      (∀ t : TaskId, (∀ s, t ∉ sim.board.assignedIn s) →
        sim'.board.tasks[t]? = sim.board.tasks[t]? ∧ t ∉ report.finished ∧ t ∉ report.handedBack) ∧
      report.executed = sim.board.assignments.zipIdx.countP fun (e, i) ↦ (sim.atTurn i).manned e.2 := by
  have hsound := h.sound
  obtain ⟨report, sim', hok, hturns⟩ := Simulation.exists_tick hsound
  refine ⟨report, sim', hok, fun s t ht ↦ ?_, fun t ht ↦ ?_, ?_⟩
  · obtain ⟨x, e, hx, hends⟩ := hturns.ends hsound.toLinked.pairwise_assignments h.scripted
      (mem_assignments.mpr ht) rfl rfl
    exact ⟨x, hx, e, hends, fun e' hends' ↦ hends'.unique hends⟩
  · have hspares : Simulation.Spares t _ _ _ _ := hturns.spares fun (s, t') he htt ↦ by
      apply ht s
      rw [← htt]
      exact mem_assignments.mp he
    exact ⟨hspares.task, List.count_eq_zero.mp hspares.finished,
      List.count_eq_zero.mp hspares.handedBack⟩
  · rw [hturns.executed]
    exact Nat.zero_add _

namespace Board

def respite : Task := { name := "respite", priority := 4, script := .ofStatement (.void {}) }

def muster : Board :=
  let b := after (putTask ⟨2⟩ respite) (after (putTask ⟨1⟩ rally) (after (putTask ⟨0⟩ rally)
    (after (addPool ⟨0⟩) {})))
  let b := after (schedule ⟨0⟩ ⟨2⟩) (after (schedule ⟨0⟩ ⟨1⟩) (after (schedule ⟨0⟩ ⟨0⟩) b))
  after (dispatch ⟨0⟩ [⟨1⟩, ⟨2⟩, ⟨3⟩]) b

theorem reachedByAccepted_muster : muster.ReachedByAccepted := by
  have hrally : rally.Accepted := ⟨_, (rfl : Script.build (.action {} .moveTo .here) = _)⟩
  have hrespite : respite.Accepted := ⟨_, (rfl : Script.build (.void {}) = _)⟩
  have hpool : Run (fun _ x ↦ x.Accepted) {} _ := .tail .refl (.addPool _ ⟨0⟩)
  have htasks := ((hpool.tail (.putTask _ ⟨0⟩ rally rfl hrally)).tail
    (.putTask _ ⟨1⟩ rally rfl hrally)).tail (.putTask _ ⟨2⟩ respite rfl hrespite)
  have hwaiting := ((htasks.tail (.schedule _ ⟨0⟩ ⟨0⟩)).tail (.schedule _ ⟨0⟩ ⟨1⟩)).tail
    (.schedule _ ⟨0⟩ ⟨2⟩)
  exact ⟨{}, {}, rfl, hwaiting.tail (.dispatch _ ⟨0⟩ [⟨1⟩, ⟨2⟩, ⟨3⟩])⟩

theorem tick_accounts_muster :
    let world : Canned := { rows := [
      { id := ⟨1⟩, position := some ⟨0, 0, 0⟩, busy := true }, { id := ⟨2⟩, terminated := true }] }
    let sim : Simulation Canned WordSource := ⟨muster, world, {}⟩
    ∃ report sim', Simulation.tick sim = .ok report sim' ∧
      report.finished = [⟨2⟩] ∧ report.handedBack = [⟨1⟩] ∧ report.executed = 2 ∧
      ∃ x, Simulation.Ends ⟨0⟩ ⟨0⟩ x (sim.board.lowered x) report sim'.board .suspended := by
  intro world sim
  obtain ⟨report, sim', hok, hends, -⟩ :=
    ReachedByAccepted.tick_accounts sim reachedByAccepted_muster
  have hreport : (match Simulation.tick sim with
      | .ok report _ =>
        decide (report.finished = [⟨2⟩] ∧ report.handedBack = [⟨1⟩] ∧ report.executed = 2)
      | .error _ _ => false) = true := by decide +kernel
  rw [hok] at hreport
  obtain ⟨hfinished, hback, hexecuted⟩ := of_decide_eq_true hreport
  refine ⟨report, sim', hok, hfinished, hback, hexecuted, ?_⟩
  obtain ⟨x, -, e, hends, -⟩ := hends ⟨0⟩ ⟨0⟩ (by decide +kernel)
  refine ⟨x, ?_⟩
  cases hends with
  | finished h => simp [hfinished] at h
  | handedBack _ h => simp [hback] at h
  | suspended hf hb q ht ha hq hcur => exact .suspended hf hb q ht ha hq hcur

end Board

end Errand
