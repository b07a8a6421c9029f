import Errand.Proofs.Run.Steps
import Errand.Proofs.Script.Faults

namespace Errand

section Steps

variable {ε σ α β : Type} {Q : ε → Prop}

structure FailsOnly (Q : ε → Prop) (x : EStateM ε σ α) : Prop where
  of_error : ∀ s e s', x s = .error e s' → Q e

theorem FailsOnly.mono {R : ε → Prop} {x : EStateM ε σ α} (h : FailsOnly Q x) (hQ : ∀ e, Q e → R e) :
    FailsOnly R x := ⟨fun s e s' he ↦ hQ e (h.of_error s e s' he)⟩

theorem FailsOnly.bind_of_ok {x : EStateM ε σ α} {f : α → EStateM ε σ β} (hx : FailsOnly Q x)
    (hf : ∀ s a s', x s = .ok a s' → FailsOnly Q (f a)) : FailsOnly Q (x >>= f) := by
  refine ⟨fun s e s' h ↦ ?_⟩
  rw [bind_apply] at h
  cases hs : x s with
  | ok a s₁ =>
    rw [hs] at h
    exact (hf s a s₁ hs).of_error s₁ e s' h
  | error e₁ s₁ =>
    rw [hs] at h
    cases h
    exact hx.of_error s e s' hs

theorem FailsOnly.bind {x : EStateM ε σ α} {f : α → EStateM ε σ β} (hx : FailsOnly Q x)
    (hf : ∀ a, FailsOnly Q (f a)) : FailsOnly Q (x >>= f) :=
  hx.bind_of_ok fun _ a _ _ ↦ hf a

theorem failsOnly_pure (a : α) : FailsOnly Q (pure a : EStateM ε σ α) := ⟨fun _ _ _ h ↦ nomatch h⟩

theorem failsOnly_throw {e : ε} (he : Q e) : FailsOnly Q (throw e : EStateM ε σ α) := by
  refine ⟨fun s e' s' h ↦ ?_⟩
  cases h
  exact he

theorem failsOnly_get : FailsOnly Q (get : EStateM ε σ σ) := ⟨fun _ _ _ h ↦ nomatch h⟩

theorem failsOnly_modify (f : σ → σ) : FailsOnly Q (modify f : EStateM ε σ Unit) :=
  ⟨fun _ _ _ h ↦ nomatch h⟩

theorem failsOnly_modifyGet (f : σ → α × σ) : FailsOnly Q (modifyGet f : EStateM ε σ α) :=
  ⟨fun _ _ _ h ↦ nomatch h⟩

end Steps

/-- Something that is not there: a unit, a target or a variable. -/
def EvalError.isAbsence : EvalError → Bool
  | deadReference _ | missingTarget _ | undefinedVariable _ => true
  | kindMismatch _ _ | malformed _ => false

variable {ω ρ α : Type} {Q : EvalError → Prop}

theorem failsOnly_ofExcept {x : Except EvalError α} (h : ∀ e, x = .error e → Q e) :
    FailsOnly Q (Draw.ofExcept x : Draw ρ α) := by
  cases x with
  | ok a => exact failsOnly_pure a
  | error e => exact failsOnly_throw (h e rfl)

theorem failsOnly_choose [Chance ρ] (candidates : List α) {e : EvalError} (he : Q e) :
    FailsOnly Q (Draw.choose candidates e : Draw ρ α) := by
  refine ⟨fun r e' r' h ↦ ?_⟩
  rw [Draw.choose] at h
  split at h <;> cases h
  exact he

namespace View

variable [World ω] (v : View ω) {e : EvalError}

theorem isAbsence_of_here (h : v.here = .error e) : e.isAbsence = true := by
  rw [here] at h
  split at h <;> cases h
  rfl

theorem isAbsence_of_live {u : UnitId} (h : v.live u = .error e) : e.isAbsence = true := by
  rw [live] at h
  split at h <;> cases h
  rfl

theorem isAbsence_of_positionOf {u : UnitId} (h : v.positionOf u = .error e) : e.isAbsence = true := by
  rw [positionOf] at h
  split at h <;> cases h
  rfl

theorem isAbsence_of_relation {u : UnitId} (h : v.relation u = .error e) : e.isAbsence = true := by
  rw [relation] at h
  split at h
  · cases h
    rfl
  · split at h <;> cases h
    rfl

theorem isAbsence_of_closestUnit {r : Relation} (h : v.closestUnit r = .error e) :
    e.isAbsence = true := by
  rw [closestUnit] at h
  cases hp : v.here with
  | error e' =>
    rw [hp] at h
    cases h
    exact v.isAbsence_of_here hp
  | ok p =>
    simp only [hp, bind, Except.bind] at h
    split at h <;> cases h
    rfl

theorem isAbsence_of_closestResource {r : Resource} (h : v.closestResource r = .error e) :
    e.isAbsence = true := by
  rw [closestResource] at h
  cases hp : v.here with
  | error e' =>
    rw [hp] at h
    cases h
    exact v.isAbsence_of_here hp
  | ok p =>
    simp only [hp, bind, Except.bind] at h
    split at h <;> cases h
    rfl

end View

namespace Expr

variable [World ω] [Chance ρ] {v : View ω}

variable (ρ Q v) in
def FailsOnlyIn (e : Expr) : (slot : Kind) → Prop
  | .boolean => FailsOnly Q (e.evalBoolean v : Draw ρ Bool)
  | .position => FailsOnly Q (e.evalPosition v : Draw ρ Position)
  | .unit => FailsOnly Q (e.evalUnit v : Draw ρ UnitId)
  | .any => FailsOnly Q (e.eval v : Draw ρ Value)

theorem evalLiveUnit_eq (v : View ω) (e : Expr) :
    (e.evalLiveUnit v : Draw ρ UnitId) = (do Draw.ofExcept (v.live (← e.evalUnit v))) := by
  rw [evalLiveUnit, evalUnit, bind_assoc]
  congr 1
  funext x
  cases x <;> rfl

theorem FailsOnlyIn.evalLiveUnit {e : Expr} (h : e.FailsOnlyIn ρ Q v .unit)
    (hQ : ∀ err, err.isAbsence = true → Q err) : FailsOnly Q (e.evalLiveUnit v : Draw ρ UnitId) := by
  rw [evalLiveUnit_eq]
  apply FailsOnly.bind h
  intro u
  apply failsOnly_ofExcept
  intro err herr
  exact hQ err (v.isAbsence_of_live herr)

theorem failsOnly_eval (hQ : ∀ err, err.isAbsence = true → Q err) (e : Expr)
    (h : ∀ o ∈ e.operands, o.1.FailsOnlyIn ρ Q v o.2) : FailsOnly Q (e.eval v : Draw ρ Value) := by
  cases e with
  | boolean b | position p => exact failsOnly_pure _
  | not a =>
    rw [eval, ← bind_assoc]
    exact FailsOnly.bind (h (a, .boolean) List.mem_cons_self) fun _ ↦ failsOnly_pure _
  | and a b =>
    have hb : FailsOnly Q (b.evalBoolean v : Draw ρ Bool) := h (b, .boolean) (by simp [operands])
    rw [eval, ← bind_assoc]
    apply FailsOnly.bind (h (a, .boolean) List.mem_cons_self)
    intro c
    cases c with
    | true =>
      rw [if_pos rfl, ← bind_assoc]
      exact FailsOnly.bind hb fun _ ↦ failsOnly_pure _
    | false => exact failsOnly_pure _
  | or a b =>
    have hb : FailsOnly Q (b.evalBoolean v : Draw ρ Bool) := h (b, .boolean) (by simp [operands])
    rw [eval, ← bind_assoc]
    apply FailsOnly.bind (h (a, .boolean) List.mem_cons_self)
    intro c
    cases c with
    | true => exact failsOnly_pure _
    | false =>
      rw [if_neg Bool.false_ne_true, ← bind_assoc]
      exact FailsOnly.bind hb fun _ ↦ failsOnly_pure _
  | isPassable a | isSolid a =>
    rw [eval, ← bind_assoc]
    exact FailsOnly.bind (h (a, .position) List.mem_cons_self) fun _ ↦ failsOnly_pure _
  | isAlive a =>
    rw [eval, ← bind_assoc]
    exact FailsOnly.bind (h (a, .unit) List.mem_cons_self) fun _ ↦ failsOnly_pure _
  | isFriend a | isEnemy a =>
    have ha : a.FailsOnlyIn ρ Q v .unit := h (a, .unit) List.mem_cons_self
    rw [eval, ← bind_assoc]
    apply FailsOnly.bind (ha.evalLiveUnit hQ)
    intro u
    apply FailsOnly.bind (failsOnly_ofExcept fun err herr ↦ hQ err (v.isAbsence_of_relation herr))
    exact fun _ ↦ failsOnly_pure _
  | carriesItem a =>
    have ha : a.FailsOnlyIn ρ Q v .unit := h (a, .unit) List.mem_cons_self
    rw [eval, ← bind_assoc]
    exact FailsOnly.bind (ha.evalLiveUnit hQ) fun _ ↦ failsOnly_pure _
  | here =>
    apply FailsOnly.bind (failsOnly_ofExcept fun err herr ↦ hQ err (v.isAbsence_of_here herr))
    exact fun _ ↦ failsOnly_pure _
  | resource r =>
    apply FailsOnly.bind
      (failsOnly_ofExcept fun err herr ↦ hQ err (v.isAbsence_of_closestResource herr))
    exact fun _ ↦ failsOnly_pure _
  | nextTo a =>
    rw [eval, ← bind_assoc]
    apply FailsOnly.bind (h (a, .position) List.mem_cons_self)
    intro p
    exact FailsOnly.bind (failsOnly_choose _ (hQ _ rfl)) fun _ ↦ failsOnly_pure _
  | positionOf a =>
    have ha : a.FailsOnlyIn ρ Q v .unit := h (a, .unit) List.mem_cons_self
    rw [eval, ← bind_assoc]
    apply FailsOnly.bind (ha.evalLiveUnit hQ)
    intro u
    apply FailsOnly.bind (failsOnly_ofExcept fun err herr ↦ hQ err (v.isAbsence_of_positionOf herr))
    exact fun _ ↦ failsOnly_pure _
  | selected =>
    rw [eval]
    split
    · exact failsOnly_pure _
    · exact failsOnly_throw (hQ _ rfl)
  | self =>
    apply FailsOnly.bind (failsOnly_ofExcept fun err herr ↦ hQ err (v.isAbsence_of_live herr))
    exact fun _ ↦ failsOnly_pure _
  | friend | enemy =>
    apply FailsOnly.bind (failsOnly_ofExcept fun err herr ↦ hQ err (v.isAbsence_of_closestUnit herr))
    exact fun _ ↦ failsOnly_pure _
  | any => exact FailsOnly.bind (failsOnly_choose _ (hQ _ rfl)) fun _ ↦ failsOnly_pure _
  | var name =>
    rw [eval]
    split
    · exact failsOnly_pure _
    · exact failsOnly_throw (hQ _ rfl)

theorem failsOnlyIn_of_eval {e : Expr} {slot : Kind} (h : FailsOnly Q (e.eval v : Draw ρ Value))
    (hkind : ∀ r x r', e.eval v (r : ρ) = .ok x r' → slot ≠ .any → x.kind ≠ slot →
      Q (.kindMismatch slot x.kind)) : e.FailsOnlyIn ρ Q v slot := by
  cases slot with
  | any => exact h
  | boolean | position | unit =>
    apply h.bind_of_ok
    intro r x r' hx
    apply failsOnly_ofExcept
    intro err herr
    have hx := hkind r x r' hx nofun
    cases x <;> cases herr <;> exact hx nofun

end Expr

namespace Exec

theorem failsOnly_evaluate {actor : Actor} {x : View ω → Draw ρ α} (h : ∀ v, FailsOnly Q (x v)) :
    FailsOnly Q (evaluate actor x) := by
  refine ⟨fun m e m' he ↦ ?_⟩
  rw [evaluate] at he
  split at he
  · cases he
  · next hx =>
    cases he
    exact (h _).of_error _ _ _ hx

variable [World ω]

theorem closed_failsOnly (hmalformed : ∀ cause, Q (.malformed cause)) :
    Closed fun (α : Type) (x : Exec ω ρ α) ↦ FailsOnly Q x where
  pure := failsOnly_pure
  bind := FailsOnly.bind
  malformed cause := failsOnly_throw (hmalformed cause)
  look _ := FailsOnly.bind failsOnly_get fun _ ↦ failsOnly_pure _
  changeMarks _ := failsOnly_modify _
  spend := failsOnly_modifyGet _
  assign _ _ := failsOnly_modify _
  write _ := failsOnly_modify _
  issue _ _ := failsOnly_modify _

theorem failsOnly_commandOf [Chance ρ] {v : View ω} {a : Action} {target : Expr}
    (hQ : ∀ err, err.isAbsence = true → Q err) (h : target.FailsOnlyIn ρ Q v a.targetKind) :
    FailsOnly Q (commandOf v a target : Draw ρ Command) := by
  cases a with
  | moveTo | work => exact FailsOnly.bind h fun _ ↦ failsOnly_pure _
  | follow | attack => exact FailsOnly.bind (h.evalLiveUnit hQ) fun _ ↦ failsOnly_pure _

end Exec

namespace Script

open Exec

variable [World ω] [Chance ρ] {actor : Actor}

theorem failsOnly_perform (hQ : ∀ err, err.isAbsence = true → Q err)
    (hmalformed : ∀ cause, Q (.malformed cause)) (s : Script)
    (h : s.Every fun e slot ↦ ∀ v : View ω, e.FailsOnlyIn ρ Q v slot) (id : Nat)
    (above : List Ancestor) : FailsOnly Q (s.perform actor id above : Exec ω ρ Outcome) := by
  apply closed_perform (closed_failsOnly hmalformed) _ s h
  constructor
  · exact failsOnly_evaluate
  · exact failsOnly_evaluate
  · intro a e he
    apply failsOnly_evaluate
    intro v
    exact failsOnly_commandOf hQ (he v)

end Script

end Errand
