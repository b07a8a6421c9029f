import Errand.Run.Perform
import Mathlib.Tactic.Common

namespace Errand

inductive Ending where
  | done
  | broke
  | failed (e : EvalError)
  /-- A step was due, and no time was left for it. -/
  | late
  deriving DecidableEq, Repr

structure Scene (ω ρ : Type) where
  env : Environment
  world : ω
  source : ρ
  left : Nat
  printed : List String := []

namespace Scene

variable {ω ρ α : Type}

def step (c : Scene ω ρ) (actor : Actor) (x : View ω → Draw ρ α) : Except Ending α × Scene ω ρ :=
  match c.left with
  | 0 => (.error .late, c)
  | n + 1 =>
    match x ⟨c.world, c.env, actor⟩ c.source with
    | .ok a source => (.ok a, { c with left := n, source })
    | .error e source => (.error (.failed e), { c with left := n, source })

theorem step_left_le {c c₁ : Scene ω ρ} {actor : Actor} {x : View ω → Draw ρ α} {a : Except Ending α}
    (h : c.step actor x = (a, c₁)) : c₁.left ≤ c.left := by
  rw [step] at h
  split at h
  · cases h
    exact Nat.le_refl c.left
  · split at h <;> (cases h; simp [*])

theorem step_left_lt {c c₁ : Scene ω ρ} {actor : Actor} {x : View ω → Draw ρ α} {a : α}
    (h : c.step actor x = (.ok a, c₁)) : c₁.left < c.left := by
  rw [step] at h
  split at h
  · cases h
  · split at h
    · cases h
      simp [*]
    · cases h

theorem step_world {c c₁ : Scene ω ρ} {actor : Actor} {x : View ω → Draw ρ α} {a : Except Ending α}
    (h : c.step actor x = (a, c₁)) : c₁.world = c.world := by
  rw [step] at h
  split at h
  · cases h
    rfl
  · split at h <;> (cases h; rfl)

end Scene

namespace Statement

variable {ω ρ : Type} [World ω] [Chance ρ]

/-- What a written statement means, by its form: an assignment, a print, a `break`, the check of a
condition and the sending of a command each take one time unit first, and a run is late when there is
none left. A command is carried out at once. -/
inductive Runs (actor : Actor) : Statement → Scene ω ρ → Ending → Scene ω ρ → Prop
  | void {l c} : Runs actor (.void l) c .done c
  | nil {l c} : Runs actor (.sequence l []) c .done c
  | next {l s ss c c₁ e c₂} : Runs actor s c .done c₁ → Runs actor (.sequence l ss) c₁ e c₂ →
      Runs actor (.sequence l (s :: ss)) c e c₂
  | stop {l s ss c e c₁} : Runs actor s c e c₁ → e ≠ .done →
      Runs actor (.sequence l (s :: ss)) c e c₁
  | leave {l c c₁} : c.step actor (fun _ ↦ pure ()) = (.ok (), c₁) →
      Runs actor (.leave l) c .broke c₁
  | leaveStops {l c e c₁} : c.step actor (fun _ ↦ pure ()) = (.error e, c₁) →
      Runs actor (.leave l) c e c₁
  | assign {l name x c v c₁} : c.step actor (x.eval ·) = (.ok v, c₁) →
      Runs actor (.assign l name x) c .done { c₁ with env := c₁.env.insert name v }
  | assignStops {l name x c e c₁} : c.step actor (x.eval ·) = (.error e, c₁) →
      Runs actor (.assign l name x) c e c₁
  | print {l x c v c₁} : c.step actor (x.eval ·) = (.ok v, c₁) →
      Runs actor (.print l x) c .done { c₁ with printed := c₁.printed ++ [v.text] }
  | printStops {l x c e c₁} : c.step actor (x.eval ·) = (.error e, c₁) →
      Runs actor (.print l x) c e c₁
  | action {l a x c command c₁} : c.step actor (Exec.commandOf · a x) = (.ok command, c₁) →
      Runs actor (.action l a x) c .done { c₁ with world := World.issue c₁.world actor.unit command }
  | actionStops {l a x c e c₁} : c.step actor (Exec.commandOf · a x) = (.error e, c₁) →
      Runs actor (.action l a x) c e c₁
  | yes {l x yes no c c₁ e c₂} : c.step actor (x.evalBoolean ·) = (.ok true, c₁) →
      Runs actor yes c₁ e c₂ → Runs actor (.branch l x yes no) c e c₂
  | no {l x yes no c c₁ e c₂} : c.step actor (x.evalBoolean ·) = (.ok false, c₁) →
      Runs actor no c₁ e c₂ → Runs actor (.branch l x yes (some no)) c e c₂
  | skip {l x yes c c₁} : c.step actor (x.evalBoolean ·) = (.ok false, c₁) →
      Runs actor (.branch l x yes none) c .done c₁
  | branchStops {l x yes no c e c₁} : c.step actor (x.evalBoolean ·) = (.error e, c₁) →
      Runs actor (.branch l x yes no) c e c₁
  | turn {l x body c c₁ c₂ e c₃} : c.step actor (x.evalBoolean ·) = (.ok true, c₁) →
      Runs actor body c₁ .done c₂ → Runs actor (.loop l x body) c₂ e c₃ →
      Runs actor (.loop l x body) c e c₃
  | broken {l x body c c₁ c₂} : c.step actor (x.evalBoolean ·) = (.ok true, c₁) →
      Runs actor body c₁ .broke c₂ → Runs actor (.loop l x body) c .done c₂
  | cut {l x body c c₁ e c₂} : c.step actor (x.evalBoolean ·) = (.ok true, c₁) →
      Runs actor body c₁ e c₂ → e ≠ .done → e ≠ .broke → Runs actor (.loop l x body) c e c₂
  | exit {l x body c c₁} : c.step actor (x.evalBoolean ·) = (.ok false, c₁) →
      Runs actor (.loop l x body) c .done c₁
  | loopStops {l x body c e c₁} : c.step actor (x.evalBoolean ·) = (.error e, c₁) →
      Runs actor (.loop l x body) c e c₁

theorem Runs.left_le {actor : Actor} {s : Statement} {c c' : Scene ω ρ} {e : Ending}
    (h : s.Runs actor c e c') : c'.left ≤ c.left := by
  induction h with
  | void | nil => exact Nat.le_refl _
  | next _ _ ih₁ ih₂ => exact Nat.le_trans ih₂ ih₁
  | stop _ _ ih => exact ih
  | leave h | leaveStops h | assign h | assignStops h | print h | printStops h | action h
  | actionStops h | skip h | branchStops h | exit h | loopStops h =>
    have hle := Scene.step_left_le h
    exact hle
  | yes h _ ih | no h _ ih | broken h _ ih | cut h _ _ _ ih =>
    exact Nat.le_trans ih (Scene.step_left_le h)
  | turn h _ _ ih₁ ih₂ => exact Nat.le_trans ih₂ (Nat.le_trans ih₁ (Scene.step_left_le h))

/-- The rules bring every run to an end. A loop ends because each of its turns takes time. -/
theorem exists_runs (actor : Actor) (s : Statement) (c : Scene ω ρ) :
    ∃ e c', s.Runs actor c e c' := by
  induction s generalizing c with
  | sequence loc body ih =>
    induction body generalizing c with
    | nil => exact ⟨_, _, .nil⟩
    | cons s ss ihs =>
      obtain ⟨e, c₁, hs⟩ := ih s List.mem_cons_self c
      by_cases he : e = .done
      · subst he
        obtain ⟨e', c₂, hss⟩ := ihs (fun t ht ↦ ih t (List.mem_cons_of_mem s ht)) c₁
        exact ⟨e', c₂, .next hs hss⟩
      · exact ⟨e, c₁, .stop hs he⟩
  | branch loc x yes no ihy ihn =>
    rcases h : c.step actor (x.evalBoolean ·) with ⟨e | _ | _, c₁⟩
    · exact ⟨_, _, .branchStops h⟩
    · cases no with
      | none => exact ⟨_, _, .skip h⟩
      | some no =>
        obtain ⟨e, c₂, hno⟩ := ihn no rfl c₁
        exact ⟨e, c₂, .no h hno⟩
    · obtain ⟨e, c₂, hyes⟩ := ihy c₁
      exact ⟨e, c₂, .yes h hyes⟩
  | loop loc x body ih =>
    induction hn : c.left using Nat.strongRecOn generalizing c with
    | ind n ihn =>
      rcases h : c.step actor (x.evalBoolean ·) with ⟨e | _ | _, c₁⟩
      · exact ⟨_, _, .loopStops h⟩
      · exact ⟨_, _, .exit h⟩
      · obtain ⟨e, c₂, hbody⟩ := ih c₁
        have hleft : c₂.left < n := by
          rw [← hn]
          exact Nat.lt_of_le_of_lt hbody.left_le (Scene.step_left_lt h)
        by_cases hdone : e = .done
        · subst hdone
          obtain ⟨e, c₃, hloop⟩ := ihn c₂.left hleft c₂ rfl
          exact ⟨e, c₃, .turn h hbody hloop⟩
        · by_cases hbroke : e = .broke
          · subst hbroke
            exact ⟨_, _, .broken h hbody⟩
          · exact ⟨e, c₂, .cut h hbody hdone hbroke⟩
  | leave loc =>
    rcases h : c.step actor (fun _ ↦ pure ()) with ⟨e | _, c₁⟩
    · exact ⟨_, _, .leaveStops h⟩
    · exact ⟨_, _, .leave h⟩
  | assign loc name x =>
    rcases h : c.step actor (x.eval ·) with ⟨e | v, c₁⟩
    · exact ⟨_, _, .assignStops h⟩
    · exact ⟨_, _, .assign h⟩
  | print loc x =>
    rcases h : c.step actor (x.eval ·) with ⟨e | v, c₁⟩
    · exact ⟨_, _, .printStops h⟩
    · exact ⟨_, _, .print h⟩
  | void loc => exact ⟨_, _, .void⟩
  | action loc a x =>
    rcases h : c.step actor (Exec.commandOf · a x) with ⟨e | command, c₁⟩
    · exact ⟨_, _, .actionStops h⟩
    · exact ⟨_, _, .action h⟩

end Statement

end Errand
