import Errand.Effect
import Errand.Run.Closed

namespace Errand

namespace Exec

variable {ω ρ α β : Type}

/-- Steps that gain no time, whether they fail or not. -/
def Frugal (x : Exec ω ρ α) : Prop := ∀ m, (after x m).state.timer ≤ m.state.timer

theorem frugal_bind {x : Exec ω ρ α} {f : α → Exec ω ρ β} (hx : Frugal x) (hf : ∀ a, Frugal (f a)) :
    Frugal (x >>= f) := by
  intro m
  have hfirst := hx m
  rw [after] at hfirst ⊢
  rw [bind_apply]
  cases hm : x m with
  | ok a m' =>
    rw [hm] at hfirst
    exact Nat.le_trans (hf a m') hfirst
  | error e m' =>
    rw [hm] at hfirst
    exact hfirst

theorem frugal_spend : Frugal (spend : Exec ω ρ Bool) := by
  rintro ⟨⟨env, timer, depleted, output, capacity⟩, marks, world, source⟩
  cases timer with
  | zero => exact Nat.le_refl 0
  | succ t => exact Nat.le_succ t

theorem frugal_write (line : String) : Frugal (write line : Exec ω ρ Unit) := by
  intro m
  change (m.state.write line).timer ≤ m.state.timer
  rw [RunState.write]
  split <;> exact Nat.le_refl _

theorem frugal_evaluate (actor : Actor) (x : View ω → Draw ρ α) : Frugal (evaluate actor x) := by
  intro m
  rw [after, evaluate]
  cases x ⟨m.world, m.state.env, actor⟩ m.source <;> exact Nat.le_refl _

theorem timer_of_spend {x : Exec ω ρ (Option Bool)} (hx : Frugal x) {m m' : Machine ω ρ}
    (h : (do if ← spend then x else return none : Exec ω ρ (Option Bool)) m = .ok (some true) m') :
    m'.state.timer < m.state.timer := by
  rcases m with ⟨⟨env, timer, depleted, output, capacity⟩, marks, world, source⟩
  cases timer with
  | zero => cases h
  | succ t =>
    have hleft := hx ⟨⟨env, t, depleted, output, capacity⟩, marks, world, source⟩
    change x _ = _ at h
    rw [after, h] at hleft
    exact Nat.lt_succ_of_le hleft

variable [World ω]

theorem closed_frugal : Closed fun α (x : Exec ω ρ α) ↦ Frugal x where
  pure _ _ := Nat.le_refl _
  bind := frugal_bind
  malformed _ _ := Nat.le_refl _
  look _ _ := Nat.le_refl _
  changeMarks _ _ := Nat.le_refl _
  spend := frugal_spend
  assign _ _ _ := Nat.le_refl _
  write := frugal_write
  issue _ _ _ := Nat.le_refl _

variable [Chance ρ]

/-- One turn of a loop. The answer is `none` if the loop goes on. -/
def oneTurn (actor : Actor) (id : Nat) (condition : Expr) (turn : Exec ω ρ Outcome) :
    Exec ω ρ (Option Outcome) := do
  match ← nextTurn actor id condition with
  | none => return some .suspended
  | some false => return some .completed
  | some true =>
    match ← turn with
    | .completed =>
      updateMark id ({ · with owesTurn := false })
      return none
    | .suspended => return some .suspended
    | .broke loop => return some (if loop = id then .completed else .broke loop)

/-- The time that is left, and one more if a turn is owed, which costs nothing. -/
def turnsLeft (id : Nat) (m : Machine ω ρ) : Nat :=
  m.state.timer + (m.marks.get id).owesTurn.toNat

theorem timer_nextTurn {actor : Actor} {id : Nat} {condition : Expr} {m m' : Machine ω ρ}
    (h : nextTurn actor id condition m = .ok (some true) m') : m'.state.timer < turnsLeft id m := by
  rw [turnsLeft]
  change (if (m.marks.get id).owesTurn then pure (some true) else _ : Exec ω ρ (Option Bool)) m = _ at h
  cases howes : (m.marks.get id).owesTurn with
  | true =>
    rw [howes] at h
    cases h
    exact Nat.lt_succ_self _
  | false =>
    rw [howes] at h
    refine timer_of_spend (frugal_bind (frugal_evaluate actor _) fun answer ↦ ?_) h
    cases answer with
    | true => exact frugal_bind (closed_frugal.updateMark _ _) fun _ ↦ closed_frugal.pure _
    | false => exact closed_frugal.pure _

theorem owesTurn_update (k : Marks) (id : Nat) :
    ((k.update id ({ · with owesTurn := false })).get id).owesTurn = false := by
  rw [Marks.get, Marks.update, Array.getElem?_modify, if_pos rfl]
  cases k.table[id]? <;> rfl

theorem turnsLeft_oneTurn {actor : Actor} {id : Nat} {condition : Expr} {turn : Exec ω ρ Outcome}
    (h : Frugal turn) {m m' : Machine ω ρ} (hm : oneTurn actor id condition turn m = .ok none m') :
    turnsLeft id m' < turnsLeft id m := by
  obtain ⟨next, m₁, hnext, hm⟩ := exists_of_bind_eq_ok hm
  rcases next with _ | _ | _
  · cases hm
  · cases hm
  · obtain ⟨outcome, m₂, hturn, hm⟩ := exists_of_bind_eq_ok hm
    have hleft := h m₁
    rw [after, hturn] at hleft
    cases outcome with
    | suspended => cases hm
    | broke l => cases hm
    | completed =>
      cases hm
      change m₂.state.timer + ((m₂.marks.update id _).get id).owesTurn.toNat < _
      rw [owesTurn_update]
      exact Nat.lt_of_le_of_lt hleft (timer_nextTurn hnext)

structure Timed (ω ρ α : Type) where
  run : Exec ω ρ α
  frugal : Frugal run

theorem frugal_oneTurn (actor : Actor) (id : Nat) (condition : Expr) (turn : Timed ω ρ Outcome) :
    Frugal (oneTurn actor id condition turn.run) := by
  refine frugal_bind (closed_frugal.nextTurn id (frugal_evaluate actor _)) fun next ↦ ?_
  rcases next with _ | _ | _
  · exact closed_frugal.pure _
  · exact closed_frugal.pure _
  · refine frugal_bind turn.frugal fun outcome ↦ ?_
    cases outcome with
    | completed => exact frugal_bind (closed_frugal.updateMark _ _) fun _ ↦ closed_frugal.pure _
    | suspended => exact closed_frugal.pure _
    | broke l => exact closed_frugal.pure _

/-- Turns of a loop, until one ends it. -/
def turns (actor : Actor) (id : Nat) (condition : Expr) (turn : Timed ω ρ Outcome) :
    Exec ω ρ Outcome := fun m ↦
  match _hm : oneTurn actor id condition turn.run m with
  | .error e m' => .error e m'
  | .ok (some outcome) m' => .ok outcome m'
  | .ok none m' => turns actor id condition turn m'
termination_by m => turnsLeft id m
decreasing_by exact turnsLeft_oneTurn turn.frugal _hm

theorem turns_apply (actor : Actor) (id : Nat) (condition : Expr) (turn : Timed ω ρ Outcome)
    (m : Machine ω ρ) :
    turns actor id condition turn m =
      match oneTurn actor id condition turn.run m with
      | .error e m' => .error e m'
      | .ok (some outcome) m' => .ok outcome m'
      | .ok none m' => turns actor id condition turn m' := by
  rw [turns]
  split <;> simp_all only

theorem frugal_turns (actor : Actor) (id : Nat) (condition : Expr) (turn : Timed ω ρ Outcome) :
    Frugal (turns actor id condition turn) := by
  intro m
  induction hn : turnsLeft id m using Nat.strongRecOn generalizing m with
  | ind n ih =>
    subst hn
    have hleft := frugal_oneTurn actor id condition turn m
    rw [after] at hleft ⊢
    rw [turns_apply]
    rcases hm : oneTurn actor id condition turn.run m with ⟨_ | outcome, m'⟩ | ⟨e, m'⟩
    · rw [hm] at hleft
      exact Nat.le_trans (ih _ (turnsLeft_oneTurn turn.frugal hm) m' rfl) hleft
    · rwa [hm] at hleft
    · rwa [hm] at hleft

namespace Timed

def enter (id : Nat) (x : Timed ω ρ Outcome) : Timed ω ρ Outcome :=
  ⟨Exec.enter id x.run, closed_frugal.enter x.frugal⟩

def branchOn (actor : Actor) (id : Nat) (condition : Expr) (side : Branch → Script × Nat)
    (onYes onNo : Timed ω ρ Outcome) : Timed ω ρ Outcome :=
  ⟨Exec.branchOn actor id condition side onYes.run onNo.run,
    closed_frugal.branchOn id side (frugal_evaluate actor _) onYes.frugal onNo.frugal⟩

def turns (actor : Actor) (id : Nat) (condition : Expr) (turn : Timed ω ρ Outcome) :
    Timed ω ρ Outcome :=
  ⟨Exec.turns actor id condition turn, frugal_turns actor id condition turn⟩

def leaveLoop (id : Nat) (above : List Ancestor) : Timed ω ρ Outcome :=
  ⟨charged (Exec.leaveLoop id above), closed_frugal.charged (closed_frugal.leaveLoop id above)⟩

def assignment (actor : Actor) (name : String) (e : Expr) : Timed ω ρ Outcome :=
  ⟨Exec.assignment actor name e, closed_frugal.assignment name (frugal_evaluate actor _)⟩

def printing (actor : Actor) (e : Expr) : Timed ω ρ Outcome :=
  ⟨Exec.printing actor e, closed_frugal.printing (frugal_evaluate actor _)⟩

def completed : Timed ω ρ Outcome := ⟨return .completed, closed_frugal.pure _⟩

def act (actor : Actor) (id : Nat) (a : Action) (target : Expr) : Timed ω ρ Outcome :=
  ⟨Exec.act actor id a target, closed_frugal.act id (frugal_evaluate actor _)⟩

def childThen (owner index : Nat) (child rest : Timed ω ρ Outcome) : Timed ω ρ Outcome :=
  ⟨Exec.childThen owner index child.run rest.run,
    closed_frugal.childThen owner index child.frugal rest.frugal⟩

end Timed

end Exec

end Errand
