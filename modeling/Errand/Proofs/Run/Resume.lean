import Errand.Proofs.Effect
import Errand.Proofs.Script.Points
import Errand.Run.Program

namespace Errand

inductive Pause where
  | done
  | broke
  | paused (p : Point)
  deriving DecidableEq, Repr

/-- The child that the next step is in; the first one for a statement that has not gone in. -/
def Point.childIndex : Option Point → Nat
  | some (.inside i _) => i
  | _ => 0

def Point.childPoint : Option Point → Option Point
  | some (.inside _ p) => some p
  | _ => none

def Pause.inside (i : Nat) : Pause → Pause
  | paused p => paused (.inside i p)
  | other => other

namespace Exec

variable {ω ρ : Type} [World ω] [Chance ρ]

/-- A step that costs one time unit. Without it the statement goes on at this step. -/
def pay (x : Exec ω ρ Pause) : Exec ω ρ Pause := do
  if ← spend then x else return .paused .step

/-- The point at which an `if` goes on. It forgets a branch that the unit cannot go on with. -/
def kept (actor : Actor) (q : Option Point) : Exec ω ρ (Option Point) := do
  let m ← get
  return if q.any (·.awaits) && World.helpless m.world actor.unit then none else q

def await (actor : Actor) : Exec ω ρ Pause := do
  return if World.busy (← get).world actor.unit then .paused .sent else .done

def afterTurn (rest : Exec ω ρ Pause) : Pause → Exec ω ρ Pause
  | .done => rest
  | .broke => return .done
  | .paused p => return .paused (.inside 0 p)

/-- One turn of a loop and what follows it. A turn that has a point is still owed. -/
def round (actor : Actor) (condition : Expr) (turn : Option Point → Exec ω ρ Pause)
    (rest : Exec ω ρ Pause) : Option Point → Exec ω ρ Pause
  | some p => turn (some p) >>= afterTurn rest
  | none => pay do
    if ← evaluate actor (condition.evalBoolean ·) then turn none >>= afterTurn rest
    else return .done

def rounds (actor : Actor) (condition : Expr) (turn : Option Point → Exec ω ρ Pause) :
    Nat → Option Point → Exec ω ρ Pause
  | 0, _ => return .done
  | n + 1, q => round actor condition turn (rounds actor condition turn n none) q

end Exec

namespace Script

open Exec

variable {ω ρ : Type} [World ω] [Chance ρ]

mutual

/-- Goes on with a statement at a point, or begins it. The marks of the machine are not read. -/
def resume (actor : Actor) : Script → Option Point → Exec ω ρ Pause
  | sequence _ body, q => resumeRest actor body (Point.childIndex q) 0 (Point.childPoint q)
  | branch _ condition yes no, q => do
    let q ← kept actor q
    match Point.childPoint q with
    | some p =>
      if Point.childIndex q = 0 then return (← resume actor yes (some p)).inside 0
      else return (← resume actor no (some p)).inside 1
    | none => pay do
      if ← evaluate actor (condition.evalBoolean ·) then return (← resume actor yes none).inside 0
      else return (← resume actor no none).inside 1
  | loop _ condition body, q => do
    rounds actor condition (fun q ↦ resume actor body q) ((← get).state.timer + 2) (Point.childPoint q)
  | leave _, _ => pay (return .broke)
  | assign _ name e, _ => pay do
    Exec.assign name (← evaluate actor (e.eval ·))
    return .done
  | print _ e, _ => pay do
    write (← evaluate actor (e.eval ·)).text
    return .done
  | void _, _ => return .done
  | action _ a target, q =>
    if q = some .sent then await actor
    else pay do
      issue actor.unit (← evaluate actor (commandOf · a target))
      await actor

/-- Goes on with neighbours: `skip` of them are behind, and the next goes on at a point. The first of
those given is child `index`. -/
def resumeRest (actor : Actor) : List Script → (skip index : Nat) → Option Point → Exec ω ρ Pause
  | [], _, _, _ => return .done
  | _ :: ss, skip + 1, index, q => resumeRest actor ss skip (index + 1) q
  | s :: ss, 0, index, q => do
    match ← resume actor s q with
    | .done => resumeRest actor ss 0 (index + 1) none
    | .broke => return .broke
    | .paused p => return .paused (.inside index p)

end

end Script

namespace Exec

variable {ω ρ α : Type}

theorem spend_of_zero {m : Machine ω ρ} (h : m.state.timer = 0) :
    spend m = .ok false { m with state := { m.state with depleted := true } } := by
  simp [spend, modifyGet_apply, RunState.spend, h]

theorem spend_of_succ {m : Machine ω ρ} {n : Nat} (h : m.state.timer = n + 1) :
    spend m = .ok true { m with state := { m.state with timer := n } } := by
  simp [spend, modifyGet_apply, RunState.spend, h]

theorem pay_zero {m : Machine ω ρ} (h : m.state.timer = 0) (x : Exec ω ρ Pause) :
    pay x m = .ok (.paused .step) { m with state := { m.state with depleted := true } } := by
  rw [pay, bind_of_ok (spend_of_zero h)]
  rfl

theorem pay_succ {m : Machine ω ρ} {n : Nat} (h : m.state.timer = n + 1) (x : Exec ω ρ Pause) :
    pay x m = x { m with state := { m.state with timer := n } } := by
  rw [pay, bind_of_ok (spend_of_succ h)]
  rfl

def ClockedAt (m : Machine ω ρ) : EStateM.Result EvalError (Machine ω ρ) Pause → Prop
  | .ok (.paused p) m' => m'.state.timer ≤ m.state.timer ∧ p.awaits = !m'.state.depleted ∧
      (m'.state.depleted = true → m'.state.timer = 0)
  | .ok _ m' => m'.state.timer ≤ m.state.timer ∧ m'.state.depleted = false
  | .error _ m' => m'.state.timer ≤ m.state.timer

/-- A run that never gains time, and stops at a step that was not taken exactly for want of time. -/
def Clocked (x : Exec ω ρ Pause) : Prop := ∀ m, m.state.depleted = false → ClockedAt m (x m)

theorem ClockedAt.mono {m m' : Machine ω ρ} {r : EStateM.Result EvalError (Machine ω ρ) Pause}
    (h : ClockedAt m r) (hm : m.state.timer ≤ m'.state.timer) : ClockedAt m' r := by
  rcases r with ⟨_ | _ | p, n⟩ | ⟨e, n⟩
  · exact ⟨Nat.le_trans h.1 hm, h.2⟩
  · exact ⟨Nat.le_trans h.1 hm, h.2⟩
  · exact ⟨Nat.le_trans h.1 hm, h.2⟩
  · exact Nat.le_trans h hm

theorem clocked_pure {o : Pause} (h : ∀ p, o ≠ .paused p) : Clocked (pure o : Exec ω ρ Pause) := by
  intro m hm
  rcases o with _ | _ | p
  · exact ⟨Nat.le_refl _, hm⟩
  · exact ⟨Nat.le_refl _, hm⟩
  · exact absurd rfl (h p)

theorem clocked_pay {x : Exec ω ρ Pause} (h : Clocked x) : Clocked (pay x) := by
  intro m hm
  cases ht : m.state.timer with
  | zero =>
    rw [pay_zero ht]
    exact ⟨Nat.le_refl _, rfl, fun _ ↦ ht⟩
  | succ n =>
    rw [pay_succ ht]
    refine (h { m with state := { m.state with timer := n } } hm).mono ?_
    simp [ht]

theorem clocked_evaluate {actor : Actor} {x : View ω → Draw ρ α} {f : α → Exec ω ρ Pause}
    (h : ∀ a, Clocked (f a)) : Clocked (evaluate actor x >>= f) := by
  intro m hm
  rw [bind_apply, evaluate]
  cases x ⟨m.world, m.state.env, actor⟩ m.source with
  | ok a r => exact h a { m with source := r } hm
  | error e r => exact Nat.le_refl m.state.timer

theorem clocked_modify {f : Machine ω ρ → Machine ω ρ} {x : Exec ω ρ Pause} (h : Clocked x)
    (ht : ∀ m, (f m).state.timer = m.state.timer)
    (hd : ∀ m, (f m).state.depleted = m.state.depleted) : Clocked (modify f >>= fun _ ↦ x) := by
  intro m hm
  exact (h (f m) ((hd m).trans hm)).mono (Nat.le_of_eq (ht m))

theorem clocked_bind {x : Exec ω ρ Pause} {f : Pause → Exec ω ρ Pause} {i : Nat} (h : Clocked x)
    (hdone : Clocked (f .done)) (hbroke : Clocked (f .broke))
    (hpaused : ∀ p, f (.paused p) = pure (.paused (.inside i p))) : Clocked (x >>= f) := by
  intro m hm
  have hx := h m hm
  rw [bind_apply]
  generalize x m = r at hx
  rcases r with ⟨_ | _ | p, m'⟩ | ⟨e, m'⟩
  · exact (hdone m' hx.2).mono hx.1
  · exact (hbroke m' hx.2).mono hx.1
  · simp only [hpaused p]
    exact hx
  · exact hx

theorem clocked_afterTurn {x rest : Exec ω ρ Pause} (h : Clocked x) (hr : Clocked rest) :
    Clocked (x >>= afterTurn rest) :=
  clocked_bind h hr (clocked_pure (by simp)) fun _ ↦ rfl

theorem clocked_inside {x : Exec ω ρ Pause} (h : Clocked x) (i : Nat) :
    Clocked (do return (← x).inside i) :=
  clocked_bind h (clocked_pure (by simp [Pause.inside])) (clocked_pure (by simp [Pause.inside]))
    fun _ ↦ rfl

section World

variable [World ω]

theorem clocked_await (actor : Actor) : Clocked (await actor : Exec ω ρ Pause) := by
  intro m hm
  simp only [await, bind_apply, get_apply, pure_apply]
  cases World.busy m.world actor.unit with
  | true => exact ⟨Nat.le_refl _, by simp [Point.awaits, hm], fun h ↦ by simp [hm] at h⟩
  | false => exact ⟨Nat.le_refl _, hm⟩

theorem kept_of_not_awaits {actor : Actor} {q : Option Point} (hq : q.any (·.awaits) = false)
    (f : Option Point → Exec ω ρ Pause) (m : Machine ω ρ) : (kept actor q >>= f) m = f q m := by
  change f (if q.any (·.awaits) && World.helpless m.world actor.unit then none else q) m = _
  rw [hq, Bool.false_and, if_neg Bool.false_ne_true]

theorem clocked_kept {actor : Actor} {q : Option Point} {f : Option Point → Exec ω ρ Pause}
    (h : ∀ q, Clocked (f q)) : Clocked (kept actor q >>= f) := fun m hm ↦ h _ m hm

variable [Chance ρ]

theorem clocked_round {actor : Actor} {c : Expr} {turn : Option Point → Exec ω ρ Pause}
    {rest : Exec ω ρ Pause} (h : ∀ q, Clocked (turn q)) (hr : Clocked rest) (q : Option Point) :
    Clocked (round actor c turn rest q) := by
  cases q with
  | some p => exact clocked_afterTurn (h (some p)) hr
  | none =>
    refine clocked_pay (clocked_evaluate fun b ↦ ?_)
    cases b with
    | true => exact clocked_afterTurn (h none) hr
    | false => exact clocked_pure (by simp)

theorem clocked_rounds {actor : Actor} {c : Expr} {turn : Option Point → Exec ω ρ Pause}
    (h : ∀ q, Clocked (turn q)) (n : Nat) (q : Option Point) : Clocked (rounds actor c turn n q) := by
  induction n generalizing q with
  | zero => exact clocked_pure (by simp)
  | succ n ih => exact clocked_round h (ih none) q

theorem round_congr {actor : Actor} {c : Expr} {turn : Option Point → Exec ω ρ Pause}
    {rest rest' : Exec ω ρ Pause} (h : ∀ q, Clocked (turn q)) {q : Option Point} {m : Machine ω ρ}
    (hm : m.state.depleted = false)
    (hr : ∀ m' : Machine ω ρ, m'.state.depleted = false →
      m'.state.timer + 1 ≤ m.state.timer + q.toList.length → rest m' = rest' m') :
    round actor c turn rest q m = round actor c turn rest' q m := by
  have hturn : ∀ (q' : Option Point) (n : Machine ω ρ), n.state.depleted = false →
      n.state.timer + 1 ≤ m.state.timer + q.toList.length →
      (turn q' >>= afterTurn rest) n = (turn q' >>= afterTurn rest') n := by
    intro q' n hn ht
    have hc := h q' n hn
    rw [bind_apply, bind_apply]
    generalize turn q' n = r at hc
    rcases r with ⟨_ | _ | p, n'⟩ | ⟨e, n'⟩
    · exact hr n' hc.2 (by have := hc.1; omega)
    · rfl
    · rfl
    · rfl
  cases q with
  | some p => exact hturn (some p) m hm (by simp)
  | none =>
    cases ht : m.state.timer with
    | zero => rw [round, round, pay_zero ht, pay_zero ht]
    | succ t =>
      rw [round, round, pay_succ ht, pay_succ ht, bind_apply, bind_apply]
      simp only [evaluate]
      cases (c.evalBoolean ⟨m.world, m.state.env, actor⟩ : Draw ρ Bool) m.source with
      | error e r => rfl
      | ok b r =>
        cases b with
        | false => rfl
        | true => exact hturn none _ hm (by simp [ht])

theorem rounds_congr {actor : Actor} {c : Expr} {turn : Option Point → Exec ω ρ Pause}
    (h : ∀ q, Clocked (turn q)) {n n' : Nat} {q : Option Point} {m : Machine ω ρ}
    (hm : m.state.depleted = false) (hn : m.state.timer + q.toList.length < n)
    (hn' : m.state.timer + q.toList.length < n') :
    rounds actor c turn n q m = rounds actor c turn n' q m := by
  induction n generalizing n' q m with
  | zero => omega
  | succ n ih =>
    cases n' with
    | zero => omega
    | succ n' =>
      refine round_congr h hm fun m' hd ht ↦ ?_
      exact ih hd (by simp only [Option.toList_none, List.length_nil]; omega)
        (by simp only [Option.toList_none, List.length_nil]; omega)

end World

end Exec

namespace Script

open Exec

variable {ω ρ : Type} [World ω] [Chance ρ] {actor : Actor}

theorem clocked_resumeRest {ss : List Script}
    (h : ∀ s ∈ ss, ∀ q, Clocked (s.resume actor q : Exec ω ρ Pause)) (skip index : Nat)
    (q : Option Point) : Clocked (resumeRest actor ss skip index q : Exec ω ρ Pause) := by
  induction ss generalizing skip index q with
  | nil =>
    rw [resumeRest]
    exact clocked_pure (by simp)
  | cons s ss ih =>
    have hss := ih fun t ht ↦ h t (List.mem_cons_of_mem s ht)
    cases skip with
    | zero =>
      rw [resumeRest]
      exact clocked_bind (h s List.mem_cons_self q) (hss 0 (index + 1) none)
        (clocked_pure (by simp)) fun _ ↦ rfl
    | succ skip =>
      rw [resumeRest]
      exact hss skip (index + 1) q

theorem clocked_resume (s : Script) (q : Option Point) :
    Clocked (s.resume actor q : Exec ω ρ Pause) := by
  induction s generalizing q with
  | sequence loc body ih =>
    rw [resume]
    exact clocked_resumeRest ih _ 0 _
  | branch loc c yes no ihy ihn =>
    rw [resume]
    refine clocked_kept fun q ↦ ?_
    split
    · split
      · exact clocked_inside (ihy _) 0
      · exact clocked_inside (ihn _) 1
    · refine clocked_pay (clocked_evaluate fun b ↦ ?_)
      split
      · exact clocked_inside (ihy none) 0
      · exact clocked_inside (ihn none) 1
  | loop loc c body ih =>
    rw [resume]
    intro m hm
    exact clocked_rounds ih (m.state.timer + 2) (Point.childPoint q) m hm
  | leave loc =>
    rw [resume]
    exact clocked_pay (clocked_pure (by simp))
  | assign loc name e =>
    rw [resume]
    refine clocked_pay (clocked_evaluate fun x ↦ ?_)
    exact clocked_modify (clocked_pure (by simp)) (fun _ ↦ rfl) (fun _ ↦ rfl)
  | print loc e =>
    rw [resume]
    refine clocked_pay (clocked_evaluate fun x ↦ ?_)
    refine clocked_modify (clocked_pure (by simp)) (fun m ↦ ?_) (fun m ↦ ?_)
    · simp only [RunState.write]; split <;> rfl
    · simp only [RunState.write]; split <;> rfl
  | void loc =>
    rw [resume]
    exact clocked_pure (by simp)
  | action loc a e =>
    rw [resume]
    split
    · exact clocked_await actor
    · refine clocked_pay (clocked_evaluate fun x ↦ ?_)
      exact clocked_modify (clocked_await actor) (fun _ ↦ rfl) (fun _ ↦ rfl)

theorem resume_loop {loc : Location} {c : Expr} {body : Script} (q : Option Point)
    {m : Machine ω ρ} (hm : m.state.depleted = false) :
    (loop loc c body).resume actor q m =
      round actor c (body.resume actor) ((loop loc c body).resume actor none)
        (Point.childPoint q) m := by
  have h : ∀ q, Clocked (body.resume actor q : Exec ω ρ Pause) := clocked_resume body
  rw [resume]
  change rounds actor c (body.resume actor) (m.state.timer + 2) (Point.childPoint q) m = _
  refine round_congr h hm fun m' hd ht ↦ ?_
  rw [resume]
  change _ = rounds actor c (body.resume actor) (m'.state.timer + 2) none m'
  have hlen : (Point.childPoint q).toList.length ≤ 1 := by cases Point.childPoint q <;> simp
  exact rounds_congr h hd (by simp only [Option.toList_none, List.length_nil]; omega)
    (by simp only [Option.toList_none, List.length_nil]; omega)

end Script

end Errand
