import Errand.Proofs.Run.Reach
import Errand.Proofs.Run.Rules
import Errand.World.Canned

namespace Errand

/-- The unit is not busy, and will not be after any commands. -/
def World.AlwaysIdle {ω : Type} [World ω] (u : UnitId) (w : ω) : Prop :=
  ∀ commands : List Command, World.busy (commands.foldl (World.issue · u ·) w) u = false

theorem World.AlwaysIdle.issue {ω : Type} [World ω] {u : UnitId} {w : ω} (h : AlwaysIdle u w)
    (command : Command) : AlwaysIdle u (World.issue w u command) :=
  fun commands ↦ h (command :: commands)

theorem Canned.alwaysIdle {w : Canned} {u : UnitId} (h : World.busy w u = false) :
    World.AlwaysIdle u w := by
  intro commands
  induction commands generalizing w with
  | nil => exact h
  | cons command commands ih => exact ih h

namespace Statement

mutual

def actionFree : Statement → Bool
  | sequence _ body => actionFreeAll body
  | branch _ _ yes no => yes.actionFree && actionFreeElse no
  | loop _ _ body => body.actionFree
  | action _ _ _ => false
  | leave _ | assign _ _ _ | print _ _ | void _ => true

def actionFreeAll : List Statement → Bool
  | [] => true
  | s :: ss => s.actionFree && actionFreeAll ss

def actionFreeElse : Option Statement → Bool
  | none => true
  | some s => s.actionFree

end

end Statement

variable {ω ρ α : Type}

namespace Scene

def machine (c : Scene ω ρ) (capacity : Nat) (marks : Marks) : Machine ω ρ where
  state := {
    env := c.env
    timer := c.left
    output := c.printed.drop (c.printed.length - capacity)
    capacity }
  marks := marks
  world := c.world
  source := c.source

end Scene

theorem RunState.write_last (s : RunState) (lines : List String) (line : String)
    (h : s.output = lines.drop (lines.length - s.capacity)) :
    s.write line = { s with
      output := (lines ++ [line]).drop ((lines ++ [line]).length - s.capacity) } := by
  rw [write]
  split
  next h0 => simp [h0] at h ⊢; cases s; simp_all
  next h0 =>
    congr 1
    rw [h, List.drop_drop, List.length_drop, List.length_append, List.length_singleton,
      List.drop_append_of_le_length (by omega)]
    congr 2
    omega

def Ending.Ends (m : Machine ω ρ) (r : EStateM.Result EvalError (Machine ω ρ) Pause) : Ending → Prop
  | done => r = .ok .done m
  | broke => r = .ok .broke m
  | failed e => r = .error e m
  | late => ∃ p, r = .ok (.paused p) { m with state := { m.state with depleted := true } }

theorem Ending.Ends.unique {e e' : Ending} {c c' : Scene ω ρ} {capacity : Nat} {k : Marks}
    {r : EStateM.Result EvalError (Machine ω ρ) Pause} (h : e.Ends (c.machine capacity k) r)
    (h' : e'.Ends (c'.machine capacity k) r) (hc : c.printed.length ≤ capacity)
    (hc' : c'.printed.length ≤ capacity) : e = e' ∧ c = c' := by
  obtain ⟨env, world, source, left, printed⟩ := c
  obtain ⟨env', world', source', left', printed'⟩ := c'
  have hdrop : printed.drop (printed.length - capacity) = printed := by
    rw [Nat.sub_eq_zero_of_le hc, List.drop_zero]
  have hdrop' : printed'.drop (printed'.length - capacity) = printed' := by
    rw [Nat.sub_eq_zero_of_le hc', List.drop_zero]
  simp only [Scene.machine, hdrop, hdrop'] at h h'
  cases e with
  | done | broke | failed =>
    cases h
    cases e' <;> simp_all [Ends]
  | late =>
    obtain ⟨p, rfl⟩ := h
    cases e' <;> simp_all [Ends]

namespace Exec

variable {c c₁ : Scene ω ρ} {capacity : Nat} {k : Marks} {actor : Actor}

theorem pay_step {x : View ω → Draw ρ α} {f : α → Exec ω ρ Pause} {a : α}
    (h : c.step actor x = (.ok a, c₁)) :
    pay (evaluate actor x >>= f) (c.machine capacity k) = f a (c₁.machine capacity k) := by
  rw [Scene.step] at h
  split at h
  · cases h
  next n hn =>
    rw [pay_succ (show (c.machine capacity k).state.timer = n + 1 from hn), bind_apply, evaluate]
    split at h
    next a' r hx =>
      cases h
      simp only [Scene.machine, hx]
    · cases h

theorem pay_stops {x : View ω → Draw ρ α} {f : α → Exec ω ρ Pause} {e : Ending}
    (h : c.step actor x = (.error e, c₁)) :
    e.Ends (c₁.machine capacity k) (pay (evaluate actor x >>= f) (c.machine capacity k)) := by
  rw [Scene.step] at h
  split at h
  next hn =>
    cases h
    exact ⟨.step, pay_zero hn _⟩
  next n hn =>
    rw [pay_succ (show (c.machine capacity k).state.timer = n + 1 from hn), bind_apply, evaluate]
    split at h
    · cases h
    next e' r hx =>
      cases h
      simp only [Scene.machine, hx]
      rfl

theorem bind_ends {x : Exec ω ρ Pause} {f : Pause → Exec ω ρ Pause} {i : Nat} {e : Ending}
    {m m' : Machine ω ρ} (h : e.Ends m' (x m)) (hdone : e ≠ .done)
    (hbroke : e = .broke → f .broke = pure .broke)
    (hpaused : ∀ p, f (.paused p) = pure (.paused (.inside i p))) : e.Ends m' ((x >>= f) m) := by
  rw [bind_apply]
  cases e with
  | done => exact absurd rfl hdone
  | broke => rw [h]; exact congrFun (hbroke rfl) m'
  | failed e => rw [h]; rfl
  | late =>
    obtain ⟨p, hp⟩ := h
    rw [hp]
    exact ⟨.inside i p, congrFun (hpaused p) _⟩

theorem bind_done {x : Exec ω ρ Pause} {f : Pause → Exec ω ρ Pause} {m m' : Machine ω ρ}
    (h : Ending.done.Ends m' (x m)) : (x >>= f) m = f .done m' := by
  rw [bind_apply, h]

theorem inside_ends {x : Exec ω ρ Pause} {e : Ending} {m m' : Machine ω ρ} (h : e.Ends m' (x m))
    (i : Nat) : e.Ends m' ((do return (← x).inside i : Exec ω ρ Pause) m) := by
  by_cases he : e = .done
  · subst he
    exact bind_done h
  · exact bind_ends h he (fun _ ↦ rfl) fun _ ↦ rfl

end Exec

namespace Statement

open Script Exec

variable [World ω] [Chance ρ] {actor : Actor} {c c' : Scene ω ρ} {e : Ending}

theorem Runs.alwaysIdle {s : Statement} (h : s.Runs actor c e c')
    (hidle : World.AlwaysIdle actor.unit c.world) : World.AlwaysIdle actor.unit c'.world := by
  induction h with
  | void | nil => exact hidle
  | next _ _ ih₁ ih₂ => exact ih₂ (ih₁ hidle)
  | stop _ _ ih => exact ih hidle
  | leave h | leaveStops h | assignStops h | printStops h | actionStops h | skip h | branchStops h
  | exit h | loopStops h => rwa [Scene.step_world h]
  | assign h | print h =>
    rw [← Scene.step_world h] at hidle
    exact hidle
  | action h =>
    rw [← Scene.step_world h] at hidle
    exact hidle.issue _
  | yes h _ ih | no h _ ih | broken h _ ih | cut h _ _ _ ih => exact ih (by rwa [Scene.step_world h])
  | turn h _ _ ih₁ ih₂ => exact ih₂ (ih₁ (by rwa [Scene.step_world h]))

def NeverWaits (actor : Actor) (w : ω) (s : Statement) : Prop :=
  s.actionFree = true ∨ World.AlwaysIdle actor.unit w

omit [Chance ρ] in
theorem NeverWaits.step {s t : Statement} {x : View ω → Draw ρ α} {a : Except Ending α}
    {c₁ : Scene ω ρ} (hw : s.NeverWaits actor c.world) (h : c.step actor x = (a, c₁))
    (hfree : s.actionFree = true → t.actionFree = true) : t.NeverWaits actor c₁.world := by
  rw [NeverWaits, Scene.step_world h]
  exact hw.imp_left hfree

/-- The run of a statement from its beginning. The statements of a sequence are counted from `index`
on. -/
def begun (actor : Actor) (index : Nat) : Statement → Exec ω ρ Pause
  | sequence _ body => resumeRest actor (ofStatements body) 0 index none
  | s => (ofStatement s).resume actor none

theorem begun_zero (actor : Actor) (s : Statement) :
    (s.begun actor 0 : Exec ω ρ Pause) = (ofStatement s).resume actor none := by
  cases s with
  | sequence loc body => rw [ofStatement, resume]; rfl
  | branch | loop | leave | assign | print | void | action => rfl

theorem begun_branch (l : Location) (x : Expr) (yes : Statement) (no : Option Statement) (index : Nat)
    (m : Machine ω ρ) :
    (branch l x yes no).begun actor index m = pay (do
      if ← evaluate actor (x.evalBoolean ·) then return (← yes.begun actor 0).inside 0
      else return (← (ofBranch l no).resume actor none).inside 1) m := by
  rw [begun_zero]
  change (ofStatement (branch l x yes no)).resume actor none m = _
  rw [ofStatement, resume, kept_of_not_awaits rfl]
  rfl

theorem begun_loop (l : Location) (x : Expr) (body : Statement) (index : Nat) {m : Machine ω ρ}
    (hm : m.state.depleted = false) :
    (loop l x body).begun actor index m = pay (do
      if ← evaluate actor (x.evalBoolean ·) then
        body.begun actor 0 >>= afterTurn ((loop l x body).begun actor index)
      else return .done) m := by
  rw [begun_zero]
  change (Script.loop l x (ofStatement body)).resume actor none m = _
  rw [resume_loop none hm]
  rfl

theorem Runs.ends {s : Statement} (h : s.Runs actor c e c') (hw : s.NeverWaits actor c.world)
    (capacity : Nat) (k : Marks) (index : Nat) :
    e.Ends (c'.machine capacity k) (s.begun actor index (c.machine capacity k)) := by
  induction h generalizing index with
  | void | nil => rfl
  | @next l s ss c c₁ e c₂ hs hss ihs ihss =>
    have hs' : s.NeverWaits actor c.world := hw.imp_left fun h ↦ (Bool.and_eq_true_iff.mp h).1
    have hss' : (sequence l ss).NeverWaits actor c₁.world :=
      hw.imp (fun h ↦ (Bool.and_eq_true_iff.mp h).2) hs.alwaysIdle
    rw [begun, ofStatements, resumeRest, ← begun_zero, bind_done (ihs hs' 0)]
    exact ihss hss' (index + 1)
  | @stop l s ss c e c₁ hs he ih =>
    have hs' : s.NeverWaits actor c.world := hw.imp_left fun h ↦ (Bool.and_eq_true_iff.mp h).1
    rw [begun, ofStatements, resumeRest, ← begun_zero]
    exact bind_ends (ih hs' 0) he (fun _ ↦ rfl) fun _ ↦ rfl
  | leave h => exact pay_step (f := fun _ ↦ pure .broke) h
  | leaveStops h => exact pay_stops (f := fun _ ↦ pure .broke) h
  | assign h => exact pay_step h
  | print h =>
    refine (pay_step h).trans ?_
    exact congrArg (fun state ↦ EStateM.Result.ok Pause.done (Machine.mk state k _ _))
      (RunState.write_last _ _ _ rfl)
  | @action l a x c command c₁ h =>
    have hidle : World.busy (World.issue c₁.world actor.unit command) actor.unit = false := by
      rw [Scene.step_world h]
      exact hw.resolve_left Bool.false_ne_true [command]
    refine (pay_step h).trans ?_
    change EStateM.Result.ok (if World.busy (World.issue c₁.world actor.unit command) actor.unit then
      Pause.paused .sent else .done) _ = _
    rw [if_neg (by rw [hidle]; exact Bool.false_ne_true)]
    rfl
  | assignStops h | printStops h | actionStops h => exact pay_stops h
  | yes h _ ih =>
    rw [begun_branch, pay_step h]
    exact inside_ends (ih (hw.step h fun h ↦ (Bool.and_eq_true_iff.mp h).1) 0) 0
  | no h _ ih =>
    rw [begun_branch, pay_step h, ofBranch, ← begun_zero]
    exact inside_ends (ih (hw.step h fun h ↦ (Bool.and_eq_true_iff.mp h).2) 0) 1
  | skip h =>
    rw [begun_branch, pay_step h]
    rfl
  | branchStops h =>
    rw [begun_branch]
    exact pay_stops h
  | @turn l x body c c₁ c₂ e c₃ h hbody hloop ihbody ihloop =>
    have hb : body.NeverWaits actor c₁.world := hw.step h id
    rw [begun_loop _ _ _ _ rfl, pay_step h]
    simp only [if_true]
    rw [bind_done (ihbody hb 0)]
    exact ihloop (hw.imp_right fun h' ↦ hbody.alwaysIdle (by rwa [Scene.step_world h])) index
  | broken h hbody ih =>
    rw [begun_loop _ _ _ _ rfl, pay_step h]
    simp only [if_true]
    have hbroke := ih (hw.step h id) 0
    rw [Ending.Ends, bind_apply, hbroke]
    rfl
  | cut h hbody hdone hbroke ih =>
    rw [begun_loop _ _ _ _ rfl, pay_step h]
    exact bind_ends (ih (hw.step h id) 0) hdone (fun he ↦ absurd he hbroke) fun _ ↦ rfl
  | exit h =>
    rw [begun_loop _ _ _ _ rfl, pay_step h]
    rfl
  | loopStops h =>
    rw [begun_loop _ _ _ _ rfl]
    exact pay_stops h

end Statement

namespace Program

open Script

variable [World ω] [Chance ρ]

/-- The first tick of a program, in a world where its unit is never busy or need not be waited for,
does what the rules say of its definition, which is one thing. -/
theorem advance_start_runs {d : Statement} {s : Script} (hs : Script.build d = .ok s)
    (capacity budget : Nat) (env : Environment) (actor : Actor) (world : ω) (source : ρ)
    (hw : d.actionFree = true ∨ World.AlwaysIdle actor.unit world) :
    let p := { start s capacity with state.env := env }
    let step := p.advance budget actor world source
    ∃ e c, (∀ e' c', d.Runs actor ⟨env, world, source, budget, []⟩ e' c' ↔ e' = e ∧ c' = c) ∧
      (step.result = .ok .finished ↔ e = .done) ∧
      (∀ cause, step.result = .error (.interrupted cause) ↔ e = .failed cause) ∧
      (step.result = .ok (.suspended .timeDepleted) ↔ e = .late) ∧ e ≠ .broke ∧
      step.program.state.env = c.env ∧ step.world = c.world ∧ step.source = c.source ∧
      step.program.state.timer = c.left ∧
      step.program.state.output = c.printed.drop (c.printed.length - capacity) := by
  intro p step
  obtain ⟨e, c, hrun⟩ := d.exists_runs actor (⟨env, world, source, budget, []⟩ : Scene ω ρ)
  obtain ⟨hd, -⟩ := check_of_build hs
  let m : Machine ω ρ := (⟨env, world, source, budget, []⟩ : Scene ω ρ).machine capacity p.marks
  have hm : m.state = p.state.grant budget := by
    simp [m, p, Scene.machine, RunState.grant, start]
  have hleaves := advance_leaves (placed_of_build hs) (standsAt_blank rfl rfl : p.StandsAt s none) rfl
    budget actor m hm
  have hends := hrun.ends hw capacity p.marks 0
  rw [Statement.begun_zero, hd] at hends
  change p.Leaves s step _ at hleaves
  refine ⟨e, c, fun e' c' ↦ ⟨fun h ↦ ?_, ?_⟩, ?_⟩
  · have h₁ := hrun.ends hw (c.printed.length + c'.printed.length) p.marks 0
    have h₂ := h.ends hw (c.printed.length + c'.printed.length) p.marks 0
    exact h₂.unique h₁ (by omega) (by omega)
  · rintro ⟨rfl, rfl⟩
    exact hrun
  · generalize s.resume actor none m = r at hends hleaves
    cases e with
    | done =>
      cases hends
      rw [hleaves]
      simp [Scene.machine]
    | broke =>
      cases hends
      exact hleaves.elim
    | failed e =>
      cases hends
      rw [hleaves]
      simp [Scene.machine, eq_comm]
    | late =>
      obtain ⟨q, rfl⟩ := hends
      obtain ⟨k, hk, -⟩ := hleaves
      rw [hk]
      simp [Scene.machine]

def report : Statement :=
  .sequence {} [
    .loop {} (.not (.carriesItem .self)) (.sequence {} [.action {} .moveTo .selected, .leave {}]),
    .assign {} "place" .here]

/-- By the rules it takes four time units. -/
theorem advance_start_runs_report :
    ∃ c, report.Runs ⟨⟨1⟩, some ⟨2, 0, 0⟩⟩
      (⟨∅, { rows := [{ id := ⟨1⟩, position := some ⟨0, 0, 0⟩ }] }, {}, 6, []⟩ :
        Scene Canned WordSource) .done c ∧
      c.left = 2 ∧ c.world.log = [(⟨1⟩, .moveTo ⟨2, 0, 0⟩)] := by
  obtain ⟨e, c, hruns, hdone, -, -, -, -, hworld, -, hleft, -⟩ :=
    advance_start_runs (show build report = .ok (ofStatement report) from rfl) 8 6 ∅
      ⟨⟨1⟩, some ⟨2, 0, 0⟩⟩ ({ rows := [{ id := ⟨1⟩, position := some ⟨0, 0, 0⟩ }] } : Canned)
      ({} : WordSource) (.inr (Canned.alwaysIdle rfl))
  have he : e = .done := hdone.mp (by decide +kernel)
  refine ⟨c, (hruns .done c).mpr ⟨he.symm, rfl⟩, ?_, ?_⟩
  · rw [← hleft]
    decide +kernel
  · rw [← hworld]
    decide +kernel

end Program

end Errand
