import Errand.Run.Steps

namespace Errand

variable {ω ρ : Type}

namespace Exec

variable {α β : Type}

def look (f : Marks → ω → Nat → α) : Exec ω ρ α := do
  let m ← get
  return f m.marks m.world m.state.timer

def changeMarks (f : Marks → Marks) : Exec ω ρ Unit := modify fun m ↦ { m with marks := f m.marks }

/-- What is true of the steps that a script is made of, evaluations apart. -/
structure Closed [World ω] (P : (α : Type) → Exec ω ρ α → Prop) : Prop where
  pure {α : Type} (a : α) : P α (pure a)
  bind {α β : Type} {x : Exec ω ρ α} {f : α → Exec ω ρ β} (hx : P α x) (hf : ∀ a, P β (f a)) :
    P β (x >>= f)
  malformed {α : Type} (cause : Malformation) : P α (throw (.malformed cause))
  look {α : Type} (f : Marks → ω → Nat → α) : P α (look f)
  changeMarks (f : Marks → Marks) : P Unit (changeMarks f)
  spend : P Bool spend
  assign (name : String) (x : Value) : P Unit (assign name x)
  write (line : String) : P Unit (write line)
  issue (u : UnitId) (c : Command) : P Unit (issue u c)

namespace Closed

variable [World ω] {P : (α : Type) → Exec ω ρ α → Prop} (hP : Closed P)
include hP

theorem mark (id : Nat) : P Mark (mark id) := hP.look fun k _ _ ↦ k.get id

theorem updateMark (id : Nat) (f : Mark → Mark) : P Unit (updateMark id f) :=
  hP.changeMarks (·.update id f)

theorem clearMarks (ids : List Nat) : P Unit (clearMarks ids) := hP.changeMarks (·.clear ids)

theorem look_bind {α β : Type} (f : Marks → ω → Nat → α) {g : α → Exec ω ρ β} (h : ∀ a, P β (g a)) :
    P β (do
      let m ← get
      g (f m.marks m.world m.state.timer)) := by
  have hboth := hP.bind (hP.look f) h
  exact hboth

theorem enter {id : Nat} {x : Exec ω ρ Outcome} (h : P Outcome x) : P Outcome (enter id x) := by
  rw [Exec.enter]
  apply hP.bind (hP.updateMark _ _)
  intro _
  apply hP.bind h
  intro outcome
  by_cases hdone : outcome = .completed
  · simp only [hdone, if_true]
    exact hP.bind (hP.clearMarks _) fun _ ↦ hP.pure _
  · simp only [hdone, if_false]
    exact hP.pure _

theorem charged {x : Exec ω ρ Outcome} (h : P Outcome x) : P Outcome (charged x) := by
  rw [Exec.charged]
  apply hP.bind hP.spend
  intro paid
  cases paid with
  | true => exact h
  | false => exact hP.pure _

theorem releaseBranch (actor : Actor) (id : Nat) (side : Branch → Script × Nat) :
    P Unit (releaseBranch actor id side) := by
  rw [Exec.releaseBranch]
  apply hP.bind (hP.mark id)
  intro own
  cases own.branch with
  | none => exact hP.pure _
  | some b =>
    refine hP.look_bind (fun k w _ ↦ (side b).1.awaits k (side b).2 && World.helpless w actor.unit)
      (g := fun waits ↦ if waits then do
        Exec.clearMarks ((side b).1.descendants (side b).2)
        Exec.updateMark id ({ · with branch := none })
      else return) fun waits ↦ ?_
    cases waits with
    | true => exact hP.bind (hP.clearMarks _) fun _ ↦ hP.updateMark _ _
    | false => exact hP.pure _

theorem leaveLoop (id : Nat) (above : List Ancestor) : P Outcome (leaveLoop id above) := by
  rw [Exec.leaveLoop]
  split
  · exact hP.malformed _
  · exact hP.bind (hP.clearMarks _) fun _ ↦ hP.pure _

theorem childThen (owner index : Nat) {child rest : Exec ω ρ Outcome} (hchild : P Outcome child)
    (hrest : P Outcome rest) : P Outcome (childThen owner index child rest) := by
  rw [Exec.childThen]
  apply hP.bind (hP.mark owner)
  intro own
  split
  · exact hrest
  · apply hP.bind hchild
    intro outcome
    cases outcome with
    | completed => exact hP.bind (hP.updateMark _ _) fun _ ↦ hrest
    | suspended => exact hP.pure _
    | broke l => exact hP.pure _

variable [Chance ρ] {actor : Actor} {c : Expr}

theorem chosenBranch (id : Nat) (h : P Bool (evaluate actor (c.evalBoolean ·))) :
    P (Option Branch) (chosenBranch actor id c) := by
  rw [Exec.chosenBranch]
  apply hP.bind (hP.mark id)
  intro own
  cases own.branch with
  | some b => exact hP.pure _
  | none =>
    apply hP.bind hP.spend
    intro paid
    cases paid with
    | false => exact hP.pure _
    | true =>
      apply hP.bind h
      intro answer
      exact hP.bind (hP.updateMark _ _) fun _ ↦ hP.pure _

theorem branchOn (id : Nat) (side : Branch → Script × Nat) {onYes onNo : Exec ω ρ Outcome}
    (h : P Bool (evaluate actor (c.evalBoolean ·))) (hyes : P Outcome onYes) (hno : P Outcome onNo) :
    P Outcome (branchOn actor id c side onYes onNo) := by
  rw [Exec.branchOn]
  apply hP.bind (hP.releaseBranch _ _ _)
  intro _
  apply hP.bind (hP.chosenBranch id h)
  intro chosen
  rcases chosen with _ | _ | _
  · exact hP.pure _
  · exact hyes
  · exact hno

theorem nextTurn (id : Nat) (h : P Bool (evaluate actor (c.evalBoolean ·))) :
    P (Option Bool) (nextTurn actor id c) := by
  rw [Exec.nextTurn]
  apply hP.bind (hP.mark id)
  intro own
  cases own.owesTurn with
  | true => exact hP.pure _
  | false =>
    apply hP.bind hP.spend
    intro paid
    cases paid with
    | false => exact hP.pure _
    | true =>
      apply hP.bind h
      intro answer
      cases answer with
      | true => exact hP.bind (hP.updateMark _ _) fun _ ↦ hP.pure _
      | false => exact hP.pure _

theorem assignment (name : String) {e : Expr} (h : P Value (evaluate actor (e.eval ·))) :
    P Outcome (assignment actor name e) := by
  rw [Exec.assignment]
  apply hP.charged
  apply hP.bind h
  intro x
  exact hP.bind (hP.assign _ _) fun _ ↦ hP.pure _

theorem printing {e : Expr} (h : P Value (evaluate actor (e.eval ·))) :
    P Outcome (printing actor e) := by
  rw [Exec.printing]
  apply hP.charged
  apply hP.bind h
  intro x
  exact hP.bind (hP.write _) fun _ ↦ hP.pure _

theorem act (id : Nat) {a : Action} {target : Expr}
    (h : P Command (evaluate actor (commandOf · a target))) : P Outcome (act actor id a target) := by
  have hsend : P Bool (sendCommand actor id a target) := by
    rw [sendCommand]
    apply hP.bind (hP.mark id)
    intro own
    cases own.issued with
    | true => exact hP.pure _
    | false =>
      apply hP.bind hP.spend
      intro paid
      cases paid with
      | false => exact hP.pure _
      | true =>
        apply hP.bind h
        intro command
        apply hP.bind (hP.issue _ _)
        intro _
        exact hP.bind (hP.updateMark _ _) fun _ ↦ hP.pure _
  rw [Exec.act]
  apply hP.bind hsend
  intro sent
  cases sent with
  | true =>
    exact hP.look fun _ w _ ↦ if World.busy w actor.unit then Outcome.suspended else .completed
  | false => exact hP.pure _

end Closed

end Exec

end Errand
