import Errand.Proofs.Board.Audit
import Errand.Proofs.Board.Tick
import Errand.World.Canned
import Mathlib.Logic.Relation

namespace Errand.Board

variable {b b' : Board} {t : TaskId} {x : Task} {admits : TaskId → Task → Prop}

/-- One operation. A task is put on the board only under a number that is not in use there, and if
`admits` allows it. -/
inductive Move (admits : TaskId → Task → Prop) : Board → Board → Prop
  | addPool (b : Board) (f : FactionId) : Move admits b (after (addPool f) b)
  | putTask (b : Board) (t : TaskId) (x : Task) (ht : b.tasks[t]? = none) (hx : admits t x) :
      Move admits b (after (putTask t x) b)
  | schedule (b : Board) (s : PoolId) (t : TaskId) : Move admits b (after (schedule s t) b)
  | unschedule (b : Board) (s : PoolId) (t : TaskId) : Move admits b (after (unschedule s t) b)
  | assign (b : Board) (s : PoolId) (t : TaskId) (u : UnitId) : Move admits b (after (assign s t u) b)
  | assignNext (b : Board) (s : PoolId) (u : UnitId) : Move admits b (after (assignNext s u) b)
  | reclaim (b : Board) (s : PoolId) (t : TaskId) : Move admits b (after (reclaim s t) b)
  | replace (b : Board) (s : PoolId) (old new : TaskId) : Move admits b (after (replace s old new) b)
  | terminate (b : Board) (t : TaskId) : Move admits b (after (terminate t) b)
  | removeEnded (b : Board) : Move admits b b.removeEnded.2
  | dispatch (b : Board) (s : PoolId) (us : List UnitId) : Move admits b (after (dispatch s us) b)
  | tick {ω ρ : Type} [World ω] [Chance ρ] (sim : Simulation ω ρ) :
      Move admits sim.board (after Simulation.tick sim).board

def Run (admits : TaskId → Task → Prop) : Board → Board → Prop := Relation.ReflTransGen (Move admits)

def Reached (b : Board) : Prop :=
  ∃ st b₀, ofSettings st = .ok b₀ ∧ Run (fun _ _ ↦ True) b₀ b

theorem sound_of_empty (htasks : b.tasks = ∅) (hpools : b.pools = []) : b.Sound := by
  have hnone : ∀ t : TaskId, b.tasks[t]? = none := by simp [htasks]
  have hwaiting : ∀ s, b.waitingIn s = [] := by simp [waitingIn, pool?, hpools]
  have hassigned : ∀ s, b.assignedIn s = [] := by simp [assignedIn, pool?, hpools]
  refine ⟨⟨fun t ↦ ?_, fun s ↦ ?_, ?_⟩, ?_⟩
  · rw [hnone]
    constructor <;> simp [waits, holds, hwaiting, hassigned]
  · rw [Sorted, hwaiting]
    exact .nil
  · intro t t' x x' u hx
    simp [hnone] at hx
  · intro t x q hx
    simp [hnone] at hx

theorem eq_of_ofSettings {st : Settings} (h : ofSettings st = .ok b) :
    b = { execution := st.execution, scheduler := st.scheduler } := by
  rw [ofSettings] at h
  cases hc : st.check with
  | error e => simp [hc, bind, Except.bind] at h
  | ok _ =>
    rw [hc] at h
    cases h
    rfl

theorem sound_of_ofSettings {st : Settings} (h : ofSettings st = .ok b) : b.Sound := by
  rw [eq_of_ofSettings h]
  exact sound_of_empty rfl rfl

theorem Move.kinds (h : Move admits b b') (hb : b.Sound) :
    Kept b b' ∨ (∃ t x, b.tasks[t]? = none ∧ admits t x ∧ b' = b.withTask t x) ∨
      b' = b.removeEnded.2 := by
  cases h with
  | addPool _ f => exact .inl ((addPool_keeps b f).keeps hb)
  | putTask _ t x ht hx => exact .inr (.inl ⟨t, x, ht, hx, rfl⟩)
  | schedule _ s t => exact .inl ((schedule_keeps b s t).keeps hb)
  | unschedule _ s t => exact .inl ((unschedule_keeps b s t).keeps hb)
  | assign _ s t u => exact .inl ((assign_keeps b s t u).keeps hb)
  | assignNext _ s u => exact .inl ((assignNext_keeps b s u).keeps hb)
  | reclaim _ s t => exact .inl (reclaim_keeps b s t hb)
  | replace _ s old new => exact .inl (replace_keeps b s old new hb)
  | terminate _ t => exact .inl ((terminate_keeps b t).keeps hb)
  | removeEnded => exact .inr (.inr rfl)
  | dispatch _ s us => exact .inl (dispatch_keeps b s us hb)
  | tick sim =>
    obtain ⟨report, sim', hok, hturns⟩ := Simulation.exists_tick hb
    rw [after, hok]
    exact .inl hturns.kept

theorem Move.sound (h : Move admits b b') (hb : b.Sound) : b'.Sound := by
  rcases h.kinds hb with hkept | ⟨t, x, ht, -, rfl⟩ | rfl
  · exact hkept.sound
  · exact hb.withTask ht x
  · exact hb.removeEnded

theorem Move.ended (h : Move admits b b') (hb : b.Sound)
    (ht : ∀ x, admits t x → x.terminated = true) (hend : b.Ended t) : b'.Ended t := by
  rcases h.kinds hb with hkept | ⟨t', y, -, hadmit, rfl⟩ | rfl
  · exact hkept.ended hend
  · intro x hx
    by_cases he : t = t'
    · subst he
      cases (getElem?_withTask b t y).symm.trans hx
      exact ht y hadmit
    · rw [(withTask_touches b t' y).tasks t he] at hx
      exact hend x hx
  · intro x hx
    exact hend x (of_getElem?_removeEnded hx)

theorem Run.sound (h : Run admits b b') (hb : b.Sound) : b'.Sound := by
  induction h with
  | refl => exact hb
  | tail _ hmove ih => exact hmove.sound ih

theorem Run.ended (h : Run admits b b') (hb : b.Sound)
    (ht : ∀ x, admits t x → x.terminated = true) (hend : b.Ended t) : b'.Ended t := by
  induction h with
  | refl => exact hend
  | tail hrun hmove ih => exact hmove.ended (Run.sound hrun hb) ht ih

theorem Reached.sound (h : Reached b) : b.Sound := by
  obtain ⟨st, b₀, hst, hrun⟩ := h
  exact hrun.sound (sound_of_ofSettings hst)

theorem Move.same_or_removed (h : Move admits b b') (hb : b.Sound) (hx : b.tasks[t]? = some x)
    (hend : x.terminated = true) : b' = b.removeEnded.2 ∨ b'.tasks[t]? = some x := by
  have hended : b.Ended t := by
    intro y hy
    cases hx.symm.trans hy
    exact hend
  rcases h.kinds hb with hkept | ⟨t', y, hnone, -, rfl⟩ | rfl
  · exact .inr ((hkept.tasks t hended).trans hx)
  · have hne : t ≠ t' := by
      rintro rfl
      simp [hx] at hnone
    exact .inr (((withTask_touches b t' y).tasks t hne).trans hx)
  · exact .inl rfl

/-- The pools and the tasks of the board agree. -/
structure Intact (b : Board) : Prop where
  audited : b.audit = .ok ()
  listed : ∀ (t : TaskId) (s : PoolId),
    b.waits t s + b.holds t s = if b.tasks[t]?.any (·.pools.contains s) then 1 else 0
  exclusive : ∀ (t t' : TaskId) (x x' : Task) (u : UnitId), b.tasks[t]? = some x →
    b.tasks[t']? = some x' → x.executor = some u → x'.executor = some u → t = t'
  driven : ∀ (t : TaskId) (x : Task), b.tasks[t]? = some x →
    (x.executor.isSome = true ↔ x.program.isSome = true)
  held : ∀ (t : TaskId) (x : Task), b.tasks[t]? = some x →
    (x.executor.isSome = true ↔ b.holders t = 1)
  running : ∀ (t : TaskId) (x : Task) (q : Program), b.tasks[t]? = some x → x.program = some q →
    q.stopped = false
  ended : ∀ (t : TaskId) (x : Task), b.tasks[t]? = some x → x.terminated = true →
    (∀ s, x.pools.contains s = false) ∧ x.executor = none ∧ x.program = none

theorem Sound.intact (h : b.Sound) : b.Intact where
  audited := h.toLinked.audit
  listed t s := (h.fits t).listed s
  exclusive := h.exclusive
  driven t x hx := by rw [(h.toLinked.fits_some hx).driven x rfl]
  held t x hx := h.toLinked.holders_iff hx
  running := h.running
  ended t x hx hend := by
    have hfit := h.toLinked.fits_some hx
    obtain ⟨hexec, hpools⟩ := hfit.ended x rfl hend
    refine ⟨hpools, hexec, ?_⟩
    have hprog := hfit.driven x rfl
    rw [hexec] at hprog
    exact Option.not_isSome_iff_eq_none.mp (by simp [hprog])

/-- After every run the board is intact. A task that has ended does not change any more until it
leaves the board, and no later run brings it back to life, whatever is put on the board under other
numbers. -/
theorem Reached.integrity (h : Reached b) : b.Intact ∧
    ∀ (t : TaskId) (x : Task), b.tasks[t]? = some x → x.terminated = true →
      (∀ b', Move (fun _ _ ↦ True) b b' → b' = b.removeEnded.2 ∨ b'.tasks[t]? = some x) ∧
      ∀ b', Run (fun t' y ↦ t' = t → y.terminated = true) b b' → b'.Ended t := by
  refine ⟨h.sound.intact, fun t x hx hend ↦ ⟨?_, ?_⟩⟩
  · intro b' hmove
    exact hmove.same_or_removed h.sound hx hend
  · intro b' hrun
    refine hrun.ended h.sound (fun y hy ↦ hy rfl) ?_
    intro y hy
    cases hx.symm.trans hy
    exact hend

def rally : Task :=
  { name := "rally", priority := 4, script := .ofStatement (.action {} .moveTo .here) }

def camp : Board :=
  let b := after (schedule ⟨0⟩ ⟨0⟩) (after (putTask ⟨0⟩ rally) (after (addPool ⟨0⟩) {}))
  after (terminate ⟨1⟩) (after (putTask ⟨1⟩ rally) b)

theorem Reached.integrity_camp :
    let world : Canned := { rows := [{ id := ⟨1⟩, position := some ⟨0, 0, 0⟩, busy := true }] }
    let sim : Simulation Canned WordSource := ⟨after (assign ⟨0⟩ ⟨0⟩ ⟨1⟩) camp, world, {}⟩
    let b := (after Simulation.tick sim).board
    b.holders ⟨0⟩ = 1 ∧ b.tasks[(⟨1⟩ : TaskId)]?.any (·.terminated) = true ∧ b.Intact := by
  intro world sim b
  have hcamp : Run (fun _ _ ↦ True) {} camp := by
    have hpool : Run (fun _ _ ↦ True) {} _ := .tail .refl (.addPool _ ⟨0⟩)
    have hwaits := (hpool.tail (.putTask _ ⟨0⟩ rally rfl trivial)).tail (.schedule _ ⟨0⟩ ⟨0⟩)
    exact (hwaits.tail (.putTask _ ⟨1⟩ rally rfl trivial)).tail (.terminate _ ⟨1⟩)
  have hreached : Reached b :=
    ⟨{}, {}, rfl, (hcamp.tail (.assign camp ⟨0⟩ ⟨0⟩ ⟨1⟩)).tail (.tick sim)⟩
  exact ⟨by decide +kernel, by decide +kernel, (Reached.integrity hreached).1⟩

end Errand.Board
