import Errand.Proofs.Run.Reach
import Errand.World.Canned

namespace Errand

variable {ω ρ α : Type}

theorem RunState.write_later (s : RunState) (line : String) (t : Nat) :
    ({ s with timer := s.timer + t } : RunState).write line =
      { s.write line with timer := (s.write line).timer + t } := by
  by_cases h : s.capacity = 0 <;> simp [write, h]

namespace Machine

/-- The machine with more time left. -/
def later (m : Machine ω ρ) (t : Nat) : Machine ω ρ :=
  { m with state := { m.state with timer := m.state.timer + t } }

def renew (m : Machine ω ρ) (t : Nat) : Machine ω ρ := { m with state := m.state.grant t }

end Machine

namespace Exec

/-- What a run comes to with `t` more time units, if `resumed` tells how it goes on at a point. -/
def extended (t : Nat) (resumed : Point → Exec ω ρ Pause) :
    EStateM.Result EvalError (Machine ω ρ) Pause → EStateM.Result EvalError (Machine ω ρ) Pause
  | .ok (.paused p) m =>
    if m.state.depleted then resumed p (m.renew t) else .ok (.paused p) (m.later t)
  | .ok o m => .ok o (m.later t)
  | .error e m => .error e (m.later t)

variable {t : Nat} {resumed : Point → Exec ω ρ Pause} {m : Machine ω ρ}

theorem pay_later {x : Exec ω ρ Pause} (hm : m.state.depleted = false)
    (hstep : ∀ n : Machine ω ρ, n.state.depleted = false → resumed .step n = pay x n)
    (h : ∀ n : Machine ω ρ, n.state.depleted = false → n.state.timer < m.state.timer →
      x (n.later t) = extended t resumed (x n)) :
    pay x (m.later t) = extended t resumed (pay x m) := by
  cases ht : m.state.timer with
  | zero =>
    have hlater : m.later t =
        ({ m with state := { m.state with depleted := true } } : Machine ω ρ).renew t := by
      simp [Machine.later, Machine.renew, RunState.grant, ht, ← hm]
    rw [pay_zero ht, hlater]
    exact (hstep _ rfl).symm
  | succ n =>
    have hlater : (m.later t).state.timer = n + t + 1 := by
      simp only [Machine.later, ht]
      omega
    rw [pay_succ ht, pay_succ hlater]
    exact h { m with state := { m.state with timer := n } } hm (by simp [ht])

def resultLater (t : Nat) :
    EStateM.Result EvalError (Machine ω ρ) α → EStateM.Result EvalError (Machine ω ρ) α
  | .ok a m => .ok a (m.later t)
  | .error e m => .error e (m.later t)

theorem evaluate_later {actor : Actor} {x : View ω → Draw ρ α} {f : α → Exec ω ρ Pause}
    (h : ∀ a, ∀ n : Machine ω ρ, n.state = m.state →
      f a (n.later t) = extended t resumed (f a n)) :
    (evaluate actor x >>= f) (m.later t) = extended t resumed ((evaluate actor x >>= f) m) := by
  have hlater : evaluate actor x (m.later t) = resultLater t (evaluate actor x m) := by
    simp only [evaluate, Machine.later]
    cases x ⟨m.world, m.state.env, actor⟩ m.source <;> rfl
  rw [bind_apply, bind_apply, hlater]
  cases he : evaluate actor x m with
  | ok a n => exact h a n (evaluate_state he)
  | error e n => rfl

theorem bind_later {child : Point → Exec ω ρ Pause} {x : Exec ω ρ Pause}
    {f : Pause → Exec ω ρ Pause} {i : Nat} (hclock : ClockedAt m (x m))
    (h : x (m.later t) = extended t child (x m))
    (hdone : ∀ n : Machine ω ρ, n.state.depleted = false → n.state.timer ≤ m.state.timer →
      f .done (n.later t) = extended t resumed (f .done n))
    (hbroke : ∀ n : Machine ω ρ, f .broke (n.later t) = extended t resumed (f .broke n))
    (hpaused : ∀ p, f (.paused p) = pure (.paused (.inside i p)))
    (hresumed : ∀ (p : Point) (n : Machine ω ρ), p.awaits = false → n.state.depleted = false →
      resumed (.inside i p) n = (child p >>= f) n) :
    (x >>= f) (m.later t) = extended t resumed ((x >>= f) m) := by
  rw [bind_apply, bind_apply, h]
  generalize x m = r at hclock
  rcases r with ⟨_ | _ | p, n⟩ | ⟨e, n⟩
  · exact hdone n hclock.2 hclock.1
  · exact hbroke n
  · obtain ⟨-, hp, -⟩ := hclock
    simp only [hpaused, pure_apply, extended]
    cases hd : n.state.depleted with
    | false =>
      simp only [Bool.false_eq_true, if_false, hpaused]
      rfl
    | true =>
      simp only [if_true]
      rw [hresumed p (n.renew t) (by rw [hp, hd]; rfl) rfl, bind_apply]
  · rfl

variable [World ω]

theorem await_later {actor : Actor} (hm : m.state.depleted = false) :
    await actor (m.later t) = extended t resumed (await actor m) := by
  have hawait : ∀ n : Machine ω ρ, await actor n =
      .ok (if World.busy n.world actor.unit then .paused .sent else .done) n := fun _ ↦ rfl
  rw [hawait, hawait]
  change EStateM.Result.ok (if World.busy m.world actor.unit then _ else _) (m.later t) = _
  split
  · simp only [extended, hm, Bool.false_eq_true, if_false]
  · rfl

variable [Chance ρ]

theorem round_later {actor : Actor} {c : Expr} {turn : Option Point → Exec ω ρ Pause}
    {rest : Exec ω ρ Pause} {q : Option Point} (hm : m.state.depleted = false)
    (hclock : ∀ q, Clocked (turn q))
    (hturn : ∀ q, ∀ n : Machine ω ρ, n.state.depleted = false →
      turn q (n.later t) = extended t (fun p ↦ turn (some p)) (turn q n))
    (hrest : ∀ n : Machine ω ρ, n.state.depleted = false →
      n.state.timer + 1 ≤ m.state.timer + q.toList.length →
      rest (n.later t) = extended t resumed (rest n))
    (hstep : ∀ n : Machine ω ρ, n.state.depleted = false →
      resumed .step n = round actor c turn rest none n)
    (hinside : ∀ (p : Point) (n : Machine ω ρ), n.state.depleted = false →
      resumed (.inside 0 p) n = round actor c turn rest (some p) n) :
    round actor c turn rest q (m.later t) = extended t resumed (round actor c turn rest q m) := by
  have hafter : ∀ (q' : Option Point) (n : Machine ω ρ), n.state.depleted = false →
      n.state.timer + 1 ≤ m.state.timer + q.toList.length →
      (turn q' >>= afterTurn rest) (n.later t) =
        extended t resumed ((turn q' >>= afterTurn rest) n) := by
    intro q' n hn ht
    refine bind_later (hclock q' n hn) (hturn q' n hn) (fun n' hn' ht' ↦ ?_) (fun _ ↦ rfl)
      (fun _ ↦ rfl) fun p n' _ hn' ↦ hinside p n' hn'
    exact hrest n' hn' (by omega)
  cases q with
  | some p => exact hafter (some p) m hm (by simp)
  | none =>
    refine pay_later hm hstep fun n hn ht ↦ evaluate_later fun b n' hn' ↦ ?_
    cases b with
    | true => exact hafter none n' (by rw [hn', hn]) (by rw [hn']; simp; omega)
    | false => rfl

end Exec

namespace Script

open Exec

variable [World ω] [Chance ρ] {actor : Actor} {t : Nat}

variable (ω ρ actor t) in
def Extends (s : Script) : Prop :=
  ∀ (q : Option Point) (m : Machine ω ρ), m.state.depleted = false →
    s.resume actor q (m.later t) = extended t (fun p ↦ s.resume actor (some p)) (s.resume actor q m)

theorem resumeRest_later {resumed : Point → Exec ω ρ Pause} {ss : List Script}
    (h : ∀ s ∈ ss, s.Extends ω ρ actor t) (skip index : Nat) (q : Option Point) {m : Machine ω ρ}
    (hm : m.state.depleted = false)
    (hresumed : ∀ i p, resumed (.inside (index + i) p) = resumeRest actor ss i index (some p)) :
    resumeRest actor ss skip index q (m.later t) =
      extended t resumed (resumeRest actor ss skip index q m) := by
  induction ss generalizing skip index q m with
  | nil => rfl
  | cons s ss ih =>
    have hss := ih fun s' hs' ↦ h s' (List.mem_cons_of_mem s hs')
    have htail : ∀ i p, resumed (.inside (index + 1 + i) p) =
        resumeRest actor ss i (index + 1) (some p) := by
      intro i p
      rw [Nat.add_assoc, Nat.add_comm 1 i, hresumed, resumeRest]
    cases skip with
    | succ skip =>
      rw [resumeRest]
      exact hss skip (index + 1) q hm htail
    | zero =>
      rw [resumeRest]
      refine bind_later (clocked_resume s q m hm) (h s List.mem_cons_self q m hm)
        (fun n hn _ ↦ hss 0 (index + 1) none hn htail) (fun _ ↦ rfl) (fun _ ↦ rfl) fun p n _ _ ↦ ?_
      have hp := hresumed 0 p
      rw [resumeRest] at hp
      exact congrFun hp n

theorem sequence_extends (loc : Location) {body : List Script}
    (h : ∀ s ∈ body, s.Extends ω ρ actor t) : (sequence loc body).Extends ω ρ actor t := by
  intro q m hm
  rw [resume]
  refine resumeRest_later h _ 0 _ hm fun i p ↦ ?_
  rw [resume, Nat.zero_add]
  rfl

theorem loop_extends (loc : Location) (c : Expr) {body : Script} (h : body.Extends ω ρ actor t) :
    (loop loc c body).Extends ω ρ actor t := by
  intro q m hm
  -- The induction is on the turns that time allows; a turn that is owed comes before them.
  induction hn : m.state.timer + (Point.childPoint q).toList.length using Nat.strongRecOn
    generalizing q m with
  | ind n ih =>
    have hlater : (m.later t).state.depleted = false := hm
    rw [resume_loop q hm, resume_loop q hlater]
    refine round_later hm (clocked_resume body) h (fun n' hn' ht ↦ ?_)
      (fun n' hn' ↦ resume_loop (some .step) hn')
      (fun p n' hn' ↦ resume_loop (some (.inside 0 p)) hn')
    exact ih _ (by simp [Point.childPoint]; omega) none n' hn' rfl

theorem inside_later {s : Script} (h : s.Extends ω ρ actor t) {resumed : Point → Exec ω ρ Pause}
    (i : Nat) (q : Option Point) {m : Machine ω ρ} (hm : m.state.depleted = false)
    (hresumed : ∀ p n, p.awaits = false →
      resumed (.inside i p) n = (do return (← s.resume actor (some p)).inside i : Exec ω ρ Pause) n) :
    (do return (← s.resume actor q).inside i : Exec ω ρ Pause) (m.later t) =
      extended t resumed ((do return (← s.resume actor q).inside i : Exec ω ρ Pause) m) :=
  bind_later (clocked_resume s q m hm) (h q m hm) (fun _ _ _ ↦ rfl) (fun _ ↦ rfl) (fun _ ↦ rfl)
    fun p n hp _ ↦ hresumed p n hp

omit [Chance ρ] in
theorem kept_later {q : Option Point} {f : Option Point → Exec ω ρ Pause}
    {resumed : Point → Exec ω ρ Pause} {m : Machine ω ρ}
    (h : ∀ q, f q (m.later t) = extended t resumed (f q m)) :
    (kept actor q >>= f) (m.later t) = extended t resumed ((kept actor q >>= f) m) :=
  h (if q.any Point.awaits && World.helpless m.world actor.unit then none else q)

theorem branch_extends (loc : Location) (c : Expr) {yes no : Script}
    (hy : yes.Extends ω ρ actor t) (hn : no.Extends ω ρ actor t) :
    (branch loc c yes no).Extends ω ρ actor t := by
  intro q m hm
  -- A branch that stopped for want of time does not await an action, so it is kept.
  have hyes : ∀ (p : Point) (n : Machine ω ρ), p.awaits = false →
      (branch loc c yes no).resume actor (some (.inside 0 p)) n =
        (do return (← yes.resume actor (some p)).inside 0 : Exec ω ρ Pause) n := by
    intro p n hp
    rw [resume, kept_of_not_awaits (q := some (.inside 0 p)) hp]
    rfl
  have hno : ∀ (p : Point) (n : Machine ω ρ), p.awaits = false →
      (branch loc c yes no).resume actor (some (.inside 1 p)) n =
        (do return (← no.resume actor (some p)).inside 1 : Exec ω ρ Pause) n := by
    intro p n hp
    rw [resume, kept_of_not_awaits (q := some (.inside 1 p)) hp]
    rfl
  rw [resume]
  refine kept_later fun q ↦ ?_
  cases Point.childPoint q with
  | some p =>
    by_cases hi : Point.childIndex q = 0
    · simp only [hi, if_true]
      exact inside_later hy 0 (some p) hm hyes
    · simp only [hi, if_false]
      exact inside_later hn 1 (some p) hm hno
  | none =>
    refine pay_later hm (fun n _ ↦ ?_) fun n hd _ ↦ evaluate_later fun b n' hn' ↦ ?_
    · rw [resume, kept_of_not_awaits rfl]
      rfl
    · have hd' : n'.state.depleted = false := by rw [hn', hd]
      cases b with
      | true => exact inside_later hy 0 none hd' hyes
      | false => exact inside_later hn 1 none hd' hno

theorem extends_resume (s : Script) : s.Extends ω ρ actor t := by
  induction s with
  | sequence loc body ih => exact sequence_extends loc ih
  | branch loc c yes no ihy ihn => exact branch_extends loc c ihy ihn
  | loop loc c body ih => exact loop_extends loc c ih
  | leave loc =>
    intro q m hm
    exact pay_later hm (fun _ _ ↦ by rw [resume]) fun _ _ _ ↦ rfl
  | assign loc name e =>
    intro q m hm
    exact pay_later hm (fun _ _ ↦ by rw [resume]) fun _ _ _ ↦ evaluate_later fun _ _ _ ↦ rfl
  | print loc e =>
    intro q m hm
    refine pay_later hm (fun _ _ ↦ by rw [resume]) fun _ _ _ ↦ evaluate_later fun x n _ ↦ ?_
    exact congrArg (fun state ↦ EStateM.Result.ok Pause.done { n with state })
      (RunState.write_later n.state x.text t)
  | void loc => exact fun _ _ _ ↦ rfl
  | action loc a e =>
    intro q m hm
    rw [resume]
    split
    · exact await_later hm
    · refine pay_later hm (fun _ _ ↦ by rw [resume]; rfl) fun n hn _ ↦ evaluate_later fun x n' hn' ↦ ?_
      have hd : n'.state.depleted = false := by rw [hn', hn]
      exact await_later (m := { n' with world := World.issue n'.world actor.unit x }) hd

end Script

namespace Program

open Script

theorem Leaves.unique {p p' : Program} {s : Script} {step step' : Step ω ρ}
    {r : EStateM.Result EvalError (Machine ω ρ) Pause} (hscript : p.script = p'.script)
    (hstopped : p.stopped = p'.stopped) (h : p.Leaves s step r) (h' : p'.Leaves s step' r) :
    step = step' := by
  rcases r with ⟨_ | _ | q, m⟩ | ⟨e, m⟩
  · rw [h, h', hscript, hstopped]
  · exact h.elim
  · obtain ⟨k, hk, hq⟩ := h
    obtain ⟨k', hk', hq'⟩ := h'
    have hmarks := hq.marks_eq hq'
    rw [hk, hk'] at hmarks
    have hmarks : k = k' := hmarks
    rw [hk, hk', hscript, hstopped, hmarks]
  · rw [h, h', hscript]

variable [World ω] [Chance ρ]

/-- A tick that ran out of time, and a second one in the world that it left, are one tick with the
time of both. -/
theorem advance_add_of_timeDepleted {d : Statement} {s : Script} {capacity : Nat} {p : Program}
    (hs : Script.build d = .ok s) (hp : p.Reached s capacity) (b₁ b₂ : Nat) (actor : Actor)
    (world : ω) (source : ρ)
    (h : (p.advance b₁ actor world source).result = .ok (.suspended .timeDepleted)) :
    let step := p.advance b₁ actor world source
    step.program.advance b₂ actor step.world step.source =
      p.advance (b₁ + b₂) actor world source := by
  intro step
  obtain ⟨q, hq⟩ := hp.standsAt (placed_of_build hs)
  have hrun : p.stopped = false := not_stopped_of_result (by rw [h]; simp)
  let m : Machine ω ρ := ⟨p.state.grant b₁, p.marks, world, source⟩
  have hfirst := advance_leaves (placed_of_build hs) hq hrun b₁ actor m rfl
  have hwhole := advance_leaves (placed_of_build hs) hq hrun (b₁ + b₂) actor (m.later b₂) rfl
  rw [extends_resume s q m rfl] at hwhole
  change p.Leaves s step _ at hfirst
  change step.result = _ at h
  generalize s.resume actor q m = r at hfirst hwhole
  rcases r with ⟨_ | _ | q', m'⟩ | ⟨e, m'⟩
  · rw [hfirst] at h
    cases h
  · exact hfirst.elim
  · obtain ⟨k, hk, hq'⟩ := hfirst
    have hdepleted : m'.state.depleted = true := by
      rw [hk] at h
      cases hd : m'.state.depleted <;> simp [hd] at h ⊢
    simp only [Exec.extended, hdepleted, if_true] at hwhole
    rw [hk] at hq' ⊢
    exact (advance_leaves (placed_of_build hs) hq' hrun b₂ actor (m'.renew b₂) rfl).unique rfl rfl
      hwhole
  · rw [hfirst] at h
    cases h

def patrol : Statement :=
  .loop {} (.boolean true) (.sequence {}
    [.assign {} "home" .here, .action {} .moveTo .selected, .action {} .moveTo (.var "home")])

def outpost : Canned := { rows := [{ id := ⟨1⟩, position := some ⟨0, 0, 0⟩ }] }

theorem advance_add_of_timeDepleted_patrol :
    let p := (start (ofStatement patrol) 4).advance 1 ⟨⟨1⟩, some ⟨2, 0, 0⟩⟩ outpost ({} : WordSource)
    let step := p.program.advance 2 ⟨⟨1⟩, some ⟨2, 0, 0⟩⟩ p.world p.source
    step.result = .ok (.suspended .timeDepleted) ∧
      step.program.advance 5 ⟨⟨1⟩, some ⟨2, 0, 0⟩⟩ step.world step.source =
        p.program.advance 7 ⟨⟨1⟩, some ⟨2, 0, 0⟩⟩ p.world p.source := by
  intro p step
  have hbuild : build patrol = .ok (ofStatement patrol) := rfl
  have hstep : step.result = .ok (.suspended .timeDepleted) := by decide +kernel
  refine ⟨hstep, ?_⟩
  exact advance_add_of_timeDepleted hbuild (.advance 1 ⟨⟨1⟩, some ⟨2, 0, 0⟩⟩ outpost _ .start) 2 5 _ _ _
    hstep

end Program

end Errand
