import Errand.Proofs.Effect
import Errand.Proofs.Script.Numbering
import Errand.Run.Perform

namespace Errand

variable {ω ρ : Type}

namespace Exec

variable [World ω] [Chance ρ] {actor : Actor} {id : Nat} {c : Expr}

def turnsWithin (actor : Actor) (id : Nat) (condition : Expr) (turn : Exec ω ρ Outcome) :
    Nat → Exec ω ρ Outcome
  | 0 => return .suspended
  | n + 1 => do
    match ← nextTurn actor id condition with
    | none => return .suspended
    | some false => return .completed
    | some true =>
      match ← turn with
      | .completed =>
        updateMark id ({ · with owesTurn := false })
        turnsWithin actor id condition turn n
      | .suspended => return .suspended
      | .broke loop => return if loop = id then .completed else .broke loop

/-- Turns of a loop for as long as there is time. A turn that is still owed costs nothing and every
other one a unit, so they are at most one more than the units left, and then time runs out. -/
def turnsInTime (actor : Actor) (id : Nat) (condition : Expr) (turn : Exec ω ρ Outcome) :
    Exec ω ρ Outcome := do
  turnsWithin actor id condition turn ((← get).state.timer + 2)

theorem turnsWithin_succ_apply (turn : Exec ω ρ Outcome) (n : Nat) (m : Machine ω ρ) :
    turnsWithin actor id c turn (n + 1) m =
      match oneTurn actor id c turn m with
      | .error e m' => .error e m'
      | .ok (some outcome) m' => .ok outcome m'
      | .ok none m' => turnsWithin actor id c turn n m' := by
  rw [turnsWithin, oneTurn, bind_apply, bind_apply]
  rcases nextTurn actor id c m with ⟨_ | _ | _, m₁⟩ | ⟨e, m₁⟩
  · rfl
  · rfl
  · simp only [bind_apply]
    rcases turn m₁ with ⟨_ | _ | l, m₂⟩ | ⟨e, m₂⟩ <;> rfl
  · rfl

theorem turns_eq_turnsWithin (turn : Timed ω ρ Outcome) {n : Nat} {m : Machine ω ρ}
    (hn : turnsLeft id m < n) : turns actor id c turn m = turnsWithin actor id c turn.run n m := by
  induction n generalizing m with
  | zero => omega
  | succ n ih =>
    rw [turns_apply, turnsWithin_succ_apply]
    rcases hm : oneTurn actor id c turn.run m with ⟨_ | outcome, m'⟩ | ⟨e, m'⟩
    · have hless := turnsLeft_oneTurn turn.frugal hm
      exact ih (by omega)
    · rfl
    · rfl

theorem turns_eq_turnsInTime (turn : Timed ω ρ Outcome) :
    turns actor id c turn = turnsInTime actor id c turn.run := by
  funext m
  have howes := Bool.toNat_le (m.marks.get id).owesTurn
  have hn : turnsLeft id m < m.state.timer + 2 := by
    rw [turnsLeft]
    omega
  exact turns_eq_turnsWithin turn hn

end Exec

namespace Script

open Exec

section Equations

variable [World ω] [Chance ρ] (actor : Actor) (loc : Location)

theorem perform_sequence (body : List Script) (id : Nat) (above : List Ancestor) :
    (perform actor (.sequence loc body) id above : Exec ω ρ Outcome) =
      enter id (performRest actor body id 0 (id + 1) (⟨id, false⟩ :: above)) := rfl

theorem perform_branch (c : Expr) (yes no : Script) (id : Nat) (above : List Ancestor) :
    (perform actor (.branch loc c yes no) id above : Exec ω ρ Outcome) =
      enter id (branchOn actor id c
        (fun | .yes => (yes, id + 1) | .no => (no, id + 1 + yes.size))
        (perform actor yes (id + 1) (⟨id, false⟩ :: above))
        (perform actor no (id + 1 + yes.size) (⟨id, false⟩ :: above))) := rfl

theorem perform_loop (c : Expr) (body : Script) (id : Nat) (above : List Ancestor) :
    (perform actor (.loop loc c body) id above : Exec ω ρ Outcome) =
      enter id (turnsInTime actor id c (perform actor body (id + 1) (⟨id, true⟩ :: above))) :=
  congrArg (enter id) (turns_eq_turnsInTime (body.performTimed actor (id + 1) (⟨id, true⟩ :: above)))

theorem perform_leave (id : Nat) (above : List Ancestor) :
    (perform actor (.leave loc) id above : Exec ω ρ Outcome) =
      enter id (charged (leaveLoop id above)) := rfl

theorem perform_assign (name : String) (e : Expr) (id : Nat) (above : List Ancestor) :
    (perform actor (.assign loc name e) id above : Exec ω ρ Outcome) =
      enter id (assignment actor name e) := rfl

theorem perform_print (e : Expr) (id : Nat) (above : List Ancestor) :
    (perform actor (.print loc e) id above : Exec ω ρ Outcome) = enter id (printing actor e) := rfl

theorem perform_void (id : Nat) (above : List Ancestor) :
    (perform actor (.void loc) id above : Exec ω ρ Outcome) = enter id (return .completed) := rfl

theorem perform_action (a : Action) (e : Expr) (id : Nat) (above : List Ancestor) :
    (perform actor (.action loc a e) id above : Exec ω ρ Outcome) = enter id (act actor id a e) := rfl

theorem performRest_cons (s : Script) (ss : List Script) (owner index first : Nat)
    (above : List Ancestor) :
    (performRest actor (s :: ss) owner index first above : Exec ω ρ Outcome) =
      childThen owner index (perform actor s first above)
        (performRest actor ss owner (index + 1) (first + s.size) above) := rfl

end Equations

mutual

/-- Every expression of a script, in the slot where it stands. -/
def Every (P : Expr → Kind → Prop) : Script → Prop
  | sequence _ body => EveryOf P body
  | branch _ c yes no => P c .boolean ∧ Every P yes ∧ Every P no
  | loop _ c body => P c .boolean ∧ Every P body
  | assign _ _ e | print _ e => P e .any
  | action _ a e => P e a.targetKind
  | leave _ | void _ => True

def EveryOf (P : Expr → Kind → Prop) : List Script → Prop
  | [] => True
  | s :: ss => Every P s ∧ EveryOf P ss

end

theorem every_of_forall {P : Expr → Kind → Prop} (h : ∀ e slot, P e slot) (s : Script) : s.Every P := by
  induction s with
  | sequence loc body ih =>
    induction body with
    | nil => trivial
    | cons s ss ihs =>
      obtain ⟨hs, hss⟩ := List.forall_mem_cons.1 ih
      exact ⟨hs, ihs hss⟩
  | branch loc c yes no ihy ihn => exact ⟨h _ _, ihy, ihn⟩
  | loop loc c body ih => exact ⟨h _ _, ih⟩
  | assign | print | action => exact h _ _
  | leave | void => trivial

variable [World ω] [Chance ρ]

/-- The property is true of evaluations, each in a slot where the expression is as it should be. -/
structure Evaluates (P : (α : Type) → Exec ω ρ α → Prop) (actor : Actor) (Q : Expr → Kind → Prop) :
    Prop where
  boolean {e : Expr} : Q e .boolean → P Bool (evaluate actor (e.evalBoolean ·))
  any {e : Expr} : Q e .any → P Value (evaluate actor (e.eval ·))
  command {a : Action} {e : Expr} : Q e a.targetKind → P Command (evaluate actor (commandOf · a e))

variable {P : (α : Type) → Exec ω ρ α → Prop} {actor : Actor} {Q : Expr → Kind → Prop}

theorem closed_performRest (hP : Closed P) {ss : List Script}
    (h : ∀ s ∈ ss, s.Every Q → ∀ id above, P Outcome (s.perform actor id above)) (hss : EveryOf Q ss)
    (owner index first : Nat) (above : List Ancestor) :
    P Outcome (performRest actor ss owner index first above) := by
  induction ss generalizing index first with
  | nil => exact hP.pure _
  | cons s ss ih =>
    obtain ⟨hs, hrest⟩ := List.forall_mem_cons.1 h
    exact hP.childThen owner index (hs hss.1 _ _) (ih hrest hss.2 _ _)

theorem closed_turnsWithin (hP : Closed P) {id : Nat} {c : Expr} {turn : Exec ω ρ Outcome}
    (h : P Bool (evaluate actor (c.evalBoolean ·))) (hturn : P Outcome turn) (n : Nat) :
    P Outcome (turnsWithin actor id c turn n) := by
  induction n with
  | zero => exact hP.pure _
  | succ n ih =>
    rw [turnsWithin]
    apply hP.bind (hP.nextTurn id h)
    intro next
    rcases next with _ | _ | _
    · exact hP.pure _
    · exact hP.pure _
    · apply hP.bind hturn
      intro outcome
      cases outcome with
      | completed => exact hP.bind (hP.updateMark _ _) fun _ ↦ ih
      | suspended => exact hP.pure _
      | broke l => exact hP.pure _

/-- What is true of the steps that a script is made of is true of performing it. -/
theorem closed_perform (hP : Closed P) (hQ : Evaluates P actor Q) (s : Script) (h : s.Every Q)
    (id : Nat) (above : List Ancestor) : P Outcome (s.perform actor id above) := by
  induction s generalizing id above with
  | sequence loc body ih => exact hP.enter (closed_performRest hP ih h _ _ _ _)
  | branch loc c yes no ihy ihn =>
    obtain ⟨hc, hyes, hno⟩ := h
    exact hP.enter (hP.branchOn id _ (hQ.boolean hc) (ihy hyes _ _) (ihn hno _ _))
  | loop loc c body ih =>
    rw [perform_loop, turnsInTime]
    apply hP.enter
    apply hP.look_bind (fun _ _ time ↦ time + 2)
    intro n
    exact closed_turnsWithin hP (hQ.boolean h.1) (ih h.2 _ _) n
  | leave loc => exact hP.enter (hP.charged (hP.leaveLoop id above))
  | assign loc name e => exact hP.enter (hP.assignment name (hQ.any h))
  | print loc e => exact hP.enter (hP.printing (hQ.any h))
  | void loc => exact hP.enter (hP.pure _)
  | action loc a target => exact hP.enter (hP.act id (hQ.command h))

end Script

end Errand
