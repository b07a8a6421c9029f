import Errand.Proofs.Run.Tracking

namespace Errand.Program

open Script

/-- The programs that ticks, interruptions and resets lead to, in whatever worlds, with variables
rewritten and printed lines taken away in between. -/
inductive Reached (s : Script) (capacity : Nat) : Program → Prop
  | start : Reached s capacity (.start s capacity)
  | advance {p : Program} {ω ρ : Type} [World ω] [Chance ρ] (budget : Nat) (actor : Actor) (world : ω)
      (source : ρ) : Reached s capacity p →
      Reached s capacity (p.advance budget actor world source).program
  | interrupt {p : Program} : Reached s capacity p → Reached s capacity p.interrupt
  | reset {p : Program} : Reached s capacity p → Reached s capacity p.reset
  | rewrite {p : Program} (env : Environment) : Reached s capacity p →
      Reached s capacity { p with state := { p.state with env } }
  | collect {p : Program} : Reached s capacity p → Reached s capacity p.collect.2

structure StandsAt (p : Program) (s : Script) (q : Option Point) : Prop where
  script : p.script = s
  size : p.marks.table.size = s.size
  stands : s.Stands p.marks 0 q
  stopped : p.stopped = true → q = none

theorem StandsAt.marks_eq {p p' : Program} {s : Script} {q : Option Point} (h : p.StandsAt s q)
    (h' : p'.StandsAt s q) : p.marks = p'.marks := by
  refine Marks.ext_get (h.size.trans h'.size.symm) fun j hj ↦ ?_
  have hj : j < 0 + s.size := by rw [h.size] at hj; omega
  have hs := h.stands
  have hs' := h'.stands
  cases q with
  | none => rw [hs j (Nat.zero_le j) hj, hs' j (Nat.zero_le j) hj]
  | some q => exact (Holds.sameOn hs hs' j (Nat.zero_le j) hj).symm

theorem standsAt_blank {p : Program} {s : Script} (hs : p.script = s)
    (h : p.marks = .blank s.size) : p.StandsAt s none := by
  refine ⟨hs, by rw [h]; simp [Marks.blank], fun j _ _ ↦ ?_, fun _ ↦ rfl⟩
  rw [h, Marks.get_blank]

variable {ω ρ : Type}

/-- What a tick leaves, for a run without marks that ends so. -/
def Leaves (p : Program) (s : Script) (step : Step ω ρ) :
    EStateM.Result EvalError (Machine ω ρ) Pause → Prop
  | .ok .done m => step = ⟨.ok .finished, { p with state := m.state, marks := .blank s.size },
      m.world, m.source⟩
  | .ok .broke _ => False
  | .ok (.paused q) m => ∃ k, step = ⟨.ok (.suspended
        (if m.state.depleted then .timeDepleted else .awaitingAction)),
      { p with state := m.state, marks := k }, m.world, m.source⟩ ∧ step.program.StandsAt s (some q)
  | .error e m => step = ⟨.error (.interrupted e),
      { p with state := m.state, marks := .blank s.size, stopped := true }, m.world, m.source⟩

theorem Leaves.finished {p : Program} {s : Script} {step : Step ω ρ} {m : Machine ω ρ}
    (h : p.Leaves s step (.ok .done m)) (hs : p.script = s) :
    step.result = .ok .finished ∧ step.program.StandsAt s none := by
  obtain rfl : step = _ := h
  exact ⟨rfl, standsAt_blank hs rfl⟩

theorem Leaves.failed {p : Program} {s : Script} {step : Step ω ρ} {e : EvalError} {m : Machine ω ρ}
    (h : p.Leaves s step (.error e m)) (hs : p.script = s) :
    step.result = .error (.interrupted e) ∧ step.program.StandsAt s none := by
  obtain rfl : step = _ := h
  exact ⟨rfl, standsAt_blank hs rfl⟩

theorem Leaves.suspended {p : Program} {s : Script} {step : Step ω ρ} {q : Point} {m : Machine ω ρ}
    (h : p.Leaves s step (.ok (.paused q) m)) :
    step.result = .ok (.suspended (if m.state.depleted then .timeDepleted else .awaitingAction)) ∧
      step.program.state = m.state ∧ step.program.StandsAt s (some q) := by
  obtain ⟨k, rfl, hq⟩ := h
  exact ⟨rfl, rfl, hq⟩

variable [World ω] [Chance ρ]

theorem advance_leaves {p : Program} {s : Script} {q : Option Point} (hs : s.Placed false)
    (hp : p.StandsAt s q) (hrun : p.stopped = false) (budget : Nat) (actor : Actor)
    (m : Machine ω ρ) (hm : m.state = p.state.grant budget) :
    p.Leaves s (p.advance budget actor m.world m.source) (s.resume actor q m) := by
  obtain ⟨rfl, hsize, hstands, -⟩ := hp
  have hdep : m.state.depleted = false := by rw [hm]; rfl
  have htracked : Tracked ω ρ actor p.script := perform_tracks p.script
  have htrack := htracked 0 [] p.marks q m hs hstands (by rw [hsize]; omega) hdep
  have hmach : m.withMarks p.marks = ⟨p.state.grant budget, p.marks, m.world, m.source⟩ := by
    rw [← hm]; rfl
  have hreset : ∀ k : Marks, k.table.size = p.marks.table.size →
      k.reset = .blank p.script.size := by
    intro k hk
    rw [Marks.reset, hk, hsize]
  rw [hmach] at htrack
  rw [advance, if_neg (by rw [hrun]; exact Bool.false_ne_true)]
  generalize p.script.resume actor q m = R at htrack
  rcases R with ⟨_ | _ | q', m'⟩ | ⟨e, m'⟩
  · obtain ⟨k, hr, hb, hk⟩ := htrack
    rw [hr]
    exact congrArg (fun n ↦ Step.mk (.ok .finished) { p with state := m'.state, marks := n } m'.world
      m'.source) (hreset k hk.size)
  · obtain ⟨l, k, hl, hr⟩ := htrack
    cases hl
  · obtain ⟨k, hr, hb, hk⟩ := htrack
    rw [hr]
    exact ⟨k, rfl, rfl, hk.size.trans hsize, hb, fun h ↦ absurd (hrun.symm.trans h) Bool.false_ne_true⟩
  · obtain ⟨k, hr, hk⟩ := htrack
    rw [hr]
    exact congrArg (fun n ↦ Step.mk (.error (.interrupted e))
      { p with state := m'.state, marks := n, stopped := true } m'.world m'.source) (hreset k hk)

theorem advance_stopped {p : Program} (h : p.stopped = true) (budget : Nat) (actor : Actor)
    (world : ω) (source : ρ) :
    p.advance budget actor world source = ⟨.ok .stopped, p, world, source⟩ := by
  rw [advance, if_pos h]

theorem not_stopped_of_result {p : Program} {budget : Nat} {actor : Actor} {world : ω} {source : ρ}
    (h : (p.advance budget actor world source).result ≠ .ok .stopped) : p.stopped = false := by
  cases hstop : p.stopped with
  | false => rfl
  | true => exact absurd (by rw [advance_stopped hstop]) h

theorem StandsAt.advance {p : Program} {s : Script} {q : Option Point} (hs : s.Placed false)
    (hp : p.StandsAt s q) (budget : Nat) (actor : Actor) (world : ω) (source : ρ) :
    ∃ q', (p.advance budget actor world source).program.StandsAt s q' := by
  cases hrun : p.stopped with
  | true =>
    rw [advance_stopped hrun]
    exact ⟨q, hp⟩
  | false =>
    have h := advance_leaves hs hp hrun budget actor
      (⟨p.state.grant budget, p.marks, world, source⟩ : Machine ω ρ) rfl
    generalize s.resume actor q (⟨p.state.grant budget, p.marks, world, source⟩ : Machine ω ρ) = R at h
    rcases R with ⟨_ | _ | q', m'⟩ | ⟨e, m'⟩
    · exact ⟨none, (h.finished hp.script).2⟩
    · exact h.elim
    · exact ⟨some q', h.suspended.2.2⟩
    · exact ⟨none, (h.failed hp.script).2⟩

/-- Every program that a placed script comes to stands at a point of it, or at none. -/
theorem Reached.standsAt {s : Script} {capacity : Nat} {p : Program} (hs : s.Placed false)
    (h : Reached s capacity p) : ∃ q, p.StandsAt s q := by
  induction h with
  | start => exact ⟨none, standsAt_blank rfl rfl⟩
  | advance budget actor world source _ ih =>
    obtain ⟨q, hq⟩ := ih
    exact hq.advance hs budget actor world source
  | interrupt _ ih | reset _ ih =>
    obtain ⟨q, hq⟩ := ih
    refine ⟨none, standsAt_blank hq.script ?_⟩
    rw [← hq.size]
    rfl
  | rewrite env _ ih =>
    obtain ⟨q, hq⟩ := ih
    exact ⟨q, hq.script, hq.size, hq.stands, hq.stopped⟩
  | collect _ ih =>
    obtain ⟨q, hq⟩ := ih
    exact ⟨q, hq.script, hq.size, hq.stands, hq.stopped⟩

theorem Reached.standsAt_of_suspended {s : Script} {capacity : Nat} {p : Program}
    (hs : s.Placed false) (hp : Reached s capacity p) {budget : Nat} {actor : Actor} {world : ω}
    {source : ρ} {why : Suspension}
    (h : (p.advance budget actor world source).result = .ok (.suspended why)) :
    ∃ q, (p.advance budget actor world source).program.StandsAt s (some q) := by
  obtain ⟨q, hq⟩ := hp.standsAt hs
  have hran : (p.advance budget actor world source).result ≠ .ok .stopped := by
    rw [h]
    exact nofun
  have hleaves := advance_leaves hs hq (not_stopped_of_result hran) budget actor
    (⟨p.state.grant budget, p.marks, world, source⟩ : Machine ω ρ) rfl
  generalize s.resume actor q (⟨p.state.grant budget, p.marks, world, source⟩ : Machine ω ρ) = R
    at hleaves
  rcases R with ⟨_ | _ | q', m'⟩ | ⟨e, m'⟩
  · rw [(hleaves.finished hq.script).1] at h
    cases h
  · exact hleaves.elim
  · exact ⟨q', hleaves.suspended.2.2⟩
  · rw [(hleaves.failed hq.script).1] at h
    cases h

end Errand.Program
