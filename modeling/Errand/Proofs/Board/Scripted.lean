import Errand.Proofs.Board.Refusal
import Errand.Proofs.Run.Chain

namespace Errand

/-- The task's script is that of a definition which passes the checks. -/
def Task.Accepted (x : Task) : Prop := ∃ d, Script.build d = .ok x.script

structure Task.Scripted (x : Task) : Prop where
  accepted : x.Accepted
  program : ∀ q, x.program = some q → ∃ capacity, q.Reached x.script capacity

namespace Task.Scripted

variable {x : Task}

theorem stop (h : x.Scripted) (priority : Int32) : Task.Scripted { x.stop with priority } :=
  ⟨h.accepted, fun _ hq ↦ nomatch hq⟩

theorem ended (h : x.Scripted) : Task.Scripted { x.unlinked with terminated := true } :=
  ⟨h.accepted, fun _ hq ↦ nomatch hq⟩

theorem start (h : x.Scripted) (u : UnitId) (e : ExecutionSettings) : (x.start u e).Scripted := by
  refine ⟨h.accepted, fun q hq ↦ ?_⟩
  cases hq
  exact ⟨_, .start⟩

theorem join (h : x.Scripted) (pools : Std.TreeSet PoolId) : Task.Scripted { x with pools } :=
  ⟨h.accepted, h.program⟩

end Task.Scripted

namespace Board

variable {α : Type} {b b' : Board} {s : PoolId} {t : TaskId} {x : Task} {p : Pool}

def Scripted (b : Board) : Prop := ∀ (t : TaskId) (x : Task), b.tasks[t]? = some x → x.Scripted

namespace Scripted

theorem mapTask (h : b.Scripted) {f : Task → Task} (hf : ∀ x, x.Scripted → (f x).Scripted) :
    (b.mapTask t f).Scripted := by
  intro t' x' hx'
  rw [getElem?_mapTask] at hx'
  split at hx'
  · obtain ⟨x, hx, rfl⟩ := Option.map_eq_some_iff.mp hx'
    exact hf x (h t x hx)
  · exact h t' x' hx'

theorem of_tasks_eq (h : b.Scripted) (he : b'.tasks = b.tasks) : b'.Scripted := by
  rw [Scripted, he]
  exact h

theorem of_touches (h : b.Scripted) (ht : Touches t b b') (hx : b'.tasks[t]? = some x)
    (hs : x.Scripted) : b'.Scripted := by
  intro t' y hy
  by_cases he : t' = t
  · rw [he] at hy
    cases hx.symm.trans hy
    exact hs
  · rw [ht.tasks t' he] at hy
    exact h t' y hy

theorem withTask (h : b.Scripted) (t : TaskId) (hx : x.Accepted) : (b.withTask t x).Scripted := by
  apply h.of_touches (withTask_touches b t x) (getElem?_withTask b t x)
  exact ⟨hx, fun _ hq ↦ nomatch hq⟩

theorem endedTask (h : b.Scripted) (t : TaskId) (x : Task) : (b.endedTask t x).Scripted := by
  apply of_tasks_eq (h.mapTask fun _ hy ↦ hy.ended)
  exact tasks_mapPools _ _ _

theorem handedBack (h : b.Scripted) (s : PoolId) (t : TaskId) (x : Task) (priority : Int32) :
    (b.handedBack s t x priority).Scripted := by
  have hfreed : (b.freed s t priority).Scripted :=
    mapTask (b := b.mapPool s (·.unassign t)) h fun _ hy ↦ hy.stop priority
  exact hfreed.of_tasks_eq (tasks_resorted b s t x priority)

theorem removeEnded (h : b.Scripted) : b.removeEnded.2.Scripted :=
  fun t x hx ↦ h t x (of_getElem?_removeEnded hx)

theorem same (h : b.Scripted) (hs : Same b b') : b'.Scripted := by
  intro t x' hx'
  obtain ⟨x, hx, hxx⟩ := hs.exists_task hx'
  rw [hxx.fields]
  exact (h t x hx).join _

theorem schedule (h : b.Scripted) (s : PoolId) (t : TaskId) :
    (after (Board.schedule s t) b).Scripted := by
  apply (schedule_yields b s t).holds_after h
  rintro _ _ ⟨x, p, -, -, -, -, rfl⟩
  exact mapTask (b := b.mapPool s _) h fun _ hy ↦ hy.join _

theorem unschedule (h : b.Scripted) (s : PoolId) (t : TaskId) :
    (after (Board.unschedule s t) b).Scripted := by
  apply (unschedule_yields b s t).holds_after h
  rintro _ _ ⟨p, -, -, rfl⟩
  exact mapTask (b := b.mapPool s _) h fun _ hy ↦ hy.join _

theorem assign (h : b.Scripted) (s : PoolId) (t : TaskId) (u : UnitId) :
    (after (Board.assign s t u) b).Scripted := by
  apply (assign_yields b s t u).holds_after h
  rintro _ _ ⟨x, p, -, -, -, -, -, rfl⟩
  exact mapTask (b := b.mapPool s _) h fun _ hy ↦ hy.start u _

theorem assignNext (h : b.Scripted) (s : PoolId) (u : UnitId) :
    (after (Board.assignNext s u) b).Scripted := by
  apply (assignNext_yields b s u).holds_after h
  rintro _ _ (rfl | ⟨t, x, p, -, -, -, -, -, rfl⟩)
  · exact h
  · exact mapTask (b := b.mapPool s _) h fun _ hy ↦ hy.start u _

theorem reclaim (h : b.Scripted) (hb : b.Linked) (s : PoolId) (t : TaskId) :
    (after (Board.reclaim s t) b).Scripted := by
  apply (reclaim_yields b s t hb.exists_of_assigned).holds_after h
  rintro _ _ ⟨x, p, -, -, -, -, rfl⟩
  exact h.handedBack s t x _

theorem terminate (h : b.Scripted) (t : TaskId) : (after (Board.terminate t) b).Scripted := by
  apply (terminate_yields b t).holds_after h
  rintro _ _ ⟨x, -, ⟨-, rfl⟩ | ⟨-, rfl⟩⟩
  · exact h
  · exact h.endedTask t x

theorem replace (h : b.Scripted) (hb : b.Linked) (s : PoolId) (old new : TaskId) :
    (after (Board.replace s old new) b).Scripted := by
  have hcases := replace_cases b s old new
  rw [after]
  cases hr : Board.replace s old new b with
  | ok _ b' =>
    rw [hr] at hcases
    obtain ⟨b₁, hout, hin⟩ := hcases
    have hout' := h.unschedule s old
    rw [after, hout] at hout'
    have hin' := hout'.schedule s new
    rw [after, hin] at hin'
    exact hin'
  | error e b' => exact h.same (hb.replace_same_of_error hr)

theorem dispatch (h : b.Scripted) (s : PoolId) (us : List UnitId) :
    (after (Board.dispatch s us) b).Scripted :=
  after_dispatch (r := fun b b' ↦ b.Scripted → b'.Scripted) (fun _ h ↦ h) (fun h h' hb ↦ h' (h hb)) s
    (fun _ u hb ↦ hb.assignNext s u) us b h

end Scripted

end Board

namespace Simulation

variable {ω ρ : Type} [World ω] [Chance ρ] {sim sim' : Simulation ω ρ} {report report' : Report}

theorem scripted_ran {x : Task} {q : Program} (h : x.Scripted) (hq : x.program = some q) (u : UnitId) :
    (x.ran (sim.stepOf x u q)).Scripted := by
  obtain ⟨capacity, hreached⟩ := h.program q hq
  refine ⟨h.accepted, fun q' hq' ↦ ⟨capacity, ?_⟩⟩
  cases hq'
  exact (hreached.advance _ _ _ _).collect

theorem Turn.scripted {s : PoolId} {t : TaskId} {x : Task} {u : UnitId} {q : Program}
    (turn : Turn s t x u q report sim report' sim') (hc : sim.board.Carries s t x u q)
    (hs : sim.board.Scripted) : sim'.board.Scripted := by
  have hx := hs _ _ hc.task
  rcases turn.task hc with hx' | hx' | ⟨-, hx'⟩
  · exact hs.of_touches turn.touches hx' (hx.stop _)
  · exact hs.of_touches turn.touches hx' hx.ended
  · exact hs.of_touches turn.touches hx' (scripted_ran hx hc.program _)

theorem Turns.scripted {l : List (PoolId × TaskId)} (h : Turns l report sim report' sim')
    (hs : sim.board.Scripted) : sim'.board.Scripted := by
  induction h with
  | nil => exact hs
  | cons _ hc _ turn _ ih => exact ih (turn.scripted hc hs)

end Simulation

namespace Board

variable {b b' : Board}

theorem Move.scripted (h : Move (fun _ x ↦ x.Accepted) b b') (hb : b.Sound) (hs : b.Scripted) :
    b'.Scripted := by
  cases h with
  | addPool _ f => exact (addPool_yields b f).holds_after hs fun _ _ he ↦ he ▸ hs
  | putTask _ t x _ hx => exact hs.withTask t hx
  | schedule _ s t => exact hs.schedule s t
  | unschedule _ s t => exact hs.unschedule s t
  | assign _ s t u => exact hs.assign s t u
  | assignNext _ s u => exact hs.assignNext s u
  | reclaim _ s t => exact hs.reclaim hb.toLinked s t
  | replace _ s old new => exact hs.replace hb.toLinked s old new
  | terminate _ t => exact hs.terminate t
  | removeEnded => exact hs.removeEnded
  | dispatch _ s us => exact hs.dispatch s us
  | tick sim =>
    obtain ⟨report, sim', hok, hturns⟩ := Simulation.exists_tick hb
    rw [after, hok]
    exact hturns.scripted hs

/-- Accepted settings and a run lead to the board, and every task that was put on it has an accepted
script. -/
def ReachedByAccepted (b : Board) : Prop :=
  ∃ st b₀, ofSettings st = .ok b₀ ∧ Run (fun _ x ↦ x.Accepted) b₀ b

theorem ReachedByAccepted.sound (h : ReachedByAccepted b) : b.Sound := by
  obtain ⟨st, b₀, hst, hrun⟩ := h
  exact hrun.sound (sound_of_ofSettings hst)

theorem ReachedByAccepted.scripted (h : ReachedByAccepted b) : b.Scripted := by
  obtain ⟨st, b₀, hst, hrun⟩ := h
  have hb₀ := sound_of_ofSettings hst
  induction hrun with
  | refl =>
    intro t x hx
    simp [eq_of_ofSettings hst] at hx
  | tail hrun hmove ih => exact hmove.scripted (Run.sound hrun hb₀) ih

end Board

end Errand
