import Errand.Console
import Errand.Proofs.Board.Setup
import Errand.Proofs.Board.Staffing

namespace Errand

theorem Grid.faction?_of_living {g : Grid} {f : FactionId} {u : UnitId} (h : u ∈ g.living f) :
    World.faction? g u = some f := by
  obtain ⟨⟨v, body⟩, hmem, rfl⟩ := List.mem_map.1 h
  obtain ⟨hunit, hbody⟩ := List.mem_filter.1 hmem
  have hf : body.faction = f := by
    simp only [Bool.and_eq_true, decide_eq_true_eq] at hbody
    exact hbody.1
  change g.units[v]?.map (·.faction) = some f
  rw [Std.TreeMap.mem_toList_iff_getElem?_eq_some.1 hunit, ← hf]
  rfl

namespace Board

variable {b : Board} {s : PoolId} {t : TaskId} {u : UnitId}

theorem poolFaction?_of_mem_poolIds {f : FactionId} (h : (s, f) ∈ b.poolIds) :
    b.poolFaction? s = some f := by
  obtain ⟨⟨p, i⟩, hmem, he⟩ := List.mem_map.1 h
  cases he
  have hp : b.pool? ⟨i⟩ = some p := List.mem_zipIdx_iff_getElem?.1 hmem
  rw [poolFaction?, hp]
  rfl

def ExecutedBy (b : Board) (t : TaskId) (u : UnitId) : Prop :=
  ∃ x, b.tasks[t]? = some x ∧ x.executor = some u

/-- How units and tasks are matched at the end of a tick. -/
structure Staffed (b : Board) (side : UnitId → Option FactionId) : Prop where
  executed : ∀ s t, t ∈ b.assignedIn s → ∃! u, b.ExecutedBy t u
  exclusive : ∀ t t' u, b.ExecutedBy t u → b.ExecutedBy t' u → t = t'
  held : ∀ t u, b.ExecutedBy t u → b.holders t = 1
  sided : ∀ s t u, t ∈ b.assignedIn s → b.ExecutedBy t u →
    ∃ f, b.poolFaction? s = some f ∧ side u = some f

theorem Manned.evolves {g g' : Grid} (h : b.Manned (World.faction? g)) (hg : g.Evolves g') :
    b.Manned (World.faction? g') :=
  fun s t x u hmem hx hu ↦ (hg.faction u).trans (h s t x u hmem hx hu)

theorem Manned.staffed {side : UnitId → Option FactionId} (h : b.Manned side) (hb : b.Linked) :
    b.Staffed side where
  executed s t ht := by
    obtain ⟨x, u, q, hc⟩ := hb.exists_carries ht
    refine ⟨u, ⟨x, hc.task, hc.executor⟩, fun v hv ↦ ?_⟩
    obtain ⟨y, hy, hv⟩ := hv
    cases hc.task.symm.trans hy
    cases hc.executor.symm.trans hv
    rfl
  exclusive t t' u := fun ⟨x, hx, hu⟩ ⟨x', hx', hu'⟩ ↦ hb.exclusive t t' x x' u hx hx' hu hu'
  held t u := fun ⟨x, hx, hu⟩ ↦ (hb.holders_iff hx).1 (by rw [hu]; rfl)
  sided s t u ht := fun ⟨x, hx, hu⟩ ↦ by
    obtain ⟨p, hp, -⟩ := exists_pool_of_assigned ht
    have hfaction : b.poolFaction? s = some p.faction := by
      rw [poolFaction?, hp]
      rfl
    exact ⟨p.faction, hfaction, (h s t x u ht hx hu).trans hfaction⟩

end Board

namespace Simulation

open Board

variable {ρ : Type} {sim : Simulation Grid ρ}

structure Orderly (sim : Simulation Grid ρ) : Prop where
  reached : ReachedByAccepted sim.board
  manned : sim.board.Manned (World.faction? sim.world)

namespace Orderly

theorem staffed (h : sim.Orderly) : sim.board.Staffed (World.faction? sim.world) :=
  h.manned.staffed h.reached.sound.toLinked

theorem of_posted {b : Board} (h : Posted [] b) (g : Grid) (source : ρ) : Orderly ⟨b, g, source⟩ where
  reached := h.reached
  manned s t x u _ hx hu := by
    rw [h.idle t x hx] at hu
    cases hu

theorem dispatch (h : sim.Orderly) {s : PoolId} {f : FactionId} (hf : sim.board.poolFaction? s = some f) :
    ∃ taken sim', (do onBoard (Board.dispatch s ((← get).world.living f)) : SimM Grid ρ _) sim =
        .ok taken sim' ∧ sim'.Orderly ∧
      ∀ s', sim'.board.poolFaction? s' = sim.board.poolFaction? s' := by
  obtain ⟨p, hp, -⟩ := Option.map_eq_some_iff.1 hf
  obtain ⟨taken, b', hok⟩ := dispatch_of_pool (sim.world.living f) hp
  have hafter : after (Board.dispatch s (sim.world.living f)) sim.board = b' := by rw [after, hok]
  have hsteady : Steady (World.faction? sim.world) sim.board b' :=
    hafter ▸ dispatch_steady h.reached.sound h.manned fun u hu ↦ (Grid.faction?_of_living hu).trans hf.symm
  refine ⟨taken, { sim with board := b' }, ?_, ⟨?_, hsteady.manned⟩, hsteady.faction⟩
  · rw [bind_apply, get_apply]
    exact onBoard_of_ok hok
  · exact hafter ▸ h.reached.move (.dispatch _ s _)

theorem dispatchPools (h : sim.Orderly) {l : List (PoolId × FactionId)}
    (hl : ∀ e ∈ l, sim.board.poolFaction? e.1 = some e.2) :
    ∃ taken sim', (l.mapM fun (s, f) ↦ do onBoard (Board.dispatch s ((← get).world.living f)) :
        SimM Grid ρ _) sim = .ok taken sim' ∧ sim'.Orderly := by
  induction l generalizing sim with
  | nil => exact ⟨[], sim, rfl, h⟩
  | cons e l ih =>
    obtain ⟨he, hl⟩ := List.forall_mem_cons.1 hl
    obtain ⟨taken, sim₁, hok, h₁, hfaction⟩ := h.dispatch he
    -- the pools after it are still for the factions that were read off at the start
    obtain ⟨rest, sim', hrest, h'⟩ := ih h₁ fun e' he' ↦ (hfaction e'.1).trans (hl e' he')
    refine ⟨taken :: rest, sim', ?_, h'⟩
    rw [List.mapM_cons, bind_of_ok hok, bind_of_ok hrest]
    rfl

theorem sweep (h : sim.Orderly) :
    ∃ ended sim', Simulation.sweep sim = .ok ended sim' ∧ sim'.Orderly :=
  ⟨sim.board.removeEnded.1, { sim with board := sim.board.removeEnded.2 }, rfl,
    h.reached.move (.removeEnded _), h.manned.removeEnded⟩

theorem audit (h : sim.Orderly) : Simulation.audit sim = .ok () sim := by
  rw [Simulation.audit, bind_apply, get_apply]
  simp only [h.reached.sound.toLinked.audit]
  rfl

theorem dispatchAll (h : sim.Orderly) :
    ∃ taken sim', Simulation.dispatchAll sim = .ok taken sim' ∧ sim'.Orderly := by
  obtain ⟨taken, sim', hok, h'⟩ := h.dispatchPools fun _ ↦ poolFaction?_of_mem_poolIds
  refine ⟨taken.flatten, sim', ?_, h'⟩
  rw [Simulation.dispatchAll, bind_apply, get_apply]
  exact bind_of_ok hok _

variable [Chance ρ]

theorem tick (h : sim.Orderly) :
    ∃ report sim', Simulation.tick sim = .ok report sim' ∧ sim'.Orderly := by
  obtain ⟨report, sim', hok, hturns⟩ := exists_tick h.reached.sound
  have hboard : (after Simulation.tick sim).board = sim'.board := by rw [after, hok]
  have hreached : ReachedByAccepted sim'.board := hboard ▸ h.reached.move (.tick sim)
  -- the turns are staffed by the sides at their start, and sides do not change
  have hmanned : sim'.board.Manned (World.faction? sim.world) := hturns.manned h.manned
  exact ⟨report, sim', hok, hreached, hmanned.evolves (hturns.evolves h.reached.scripted)⟩

theorem turn (h : sim.Orderly) :
    ∃ outcome sim', Simulation.turn sim = .ok outcome sim' ∧ sim'.Orderly := by
  obtain ⟨taken, sim₁, hdispatch, h₁⟩ := h.dispatchAll
  obtain ⟨report, sim₂, htick, h₂⟩ := h₁.tick
  refine ⟨(taken, report), { sim₂ with world := sim₂.world.step }, ?_, h₂.reached,
    h₂.manned.evolves (Grid.evolves_step _)⟩
  rw [Simulation.turn, bind_of_ok hdispatch, bind_of_ok htick]
  rfl

theorem round (h : sim.Orderly) :
    ∃ r sim', Simulation.round sim = .ok r sim' ∧ sim'.Orderly := by
  obtain ⟨⟨taken, report⟩, sim₁, hturn, h₁⟩ := h.turn
  obtain ⟨ended, sim₂, hsweep, h₂⟩ := h₁.sweep
  refine ⟨{ taken, report, ended }, sim₂, ?_, h₂⟩
  rw [Simulation.round, bind_of_ok hturn]
  simp only [bind_of_ok hsweep, bind_of_ok h₂.audit]
  rfl

end Orderly

variable [Chance ρ]

/-- That many rounds, also when no task is left. -/
def rounds : Nat → SimM Grid ρ Unit
  | 0 => return
  | n + 1 => do
    discard round
    rounds n

theorem rounds_succ_of_round {r : Round} {sim' : Simulation Grid ρ} (h : round sim = .ok r sim') (n : Nat) :
    rounds (n + 1) sim = rounds n sim' := by
  rw [rounds, bind_of_ok (discard_of_ok h)]

theorem Orderly.rounds (h : sim.Orderly) (n : Nat) :
    ∃ sim', Simulation.rounds n sim = .ok () sim' ∧ sim'.Orderly := by
  induction n generalizing sim with
  | zero => exact ⟨sim, rfl, h⟩
  | succ n ih =>
    obtain ⟨r, sim₁, hround, h₁⟩ := h.round
    rw [rounds_succ_of_round hround]
    exact ih h₁

end Simulation

namespace Console

open Board Simulation

variable {ρ : Type} [Chance ρ]

theorem forM_print (f : String → String) (lines printed : List String) :
    lines.forM (fun line ↦ print (f line)) printed = .ok () (printed ++ lines.map f) := by
  induction lines generalizing printed with
  | nil => simp [pure_apply]
  | cons line lines ih =>
    have hc : (line :: lines).forM (fun line ↦ print (f line)) =
        (do print (f line); lines.forM fun line ↦ print (f line)) := rfl
    rw [hc, bind_apply, print, modify_apply]
    simpa using ih (printed ++ [f line])

theorem rounds_of_orderly {sim : Simulation Grid ρ} (h : sim.Orderly) (left tick : Nat)
    (printed : List String) :
    ∃ n sim' lines, n ≤ left ∧ (n = left ∨ sim'.board.tasks.isEmpty = true) ∧
      Simulation.rounds n sim = .ok () sim' ∧
      rounds left tick sim printed = .ok sim' (printed ++ lines) := by
  induction left generalizing tick sim printed with
  | zero => exact ⟨0, sim, [], le_rfl, .inl rfl, rfl, by rw [List.append_nil]; rfl⟩
  | succ left ih =>
    obtain ⟨r, sim₁, hround, h₁⟩ := h.round
    have hlines := forM_print (stamped tick) (roundLines sim.board sim₁.board r) printed
    generalize (roundLines sim.board sim₁.board r).map (stamped tick) = lines₁ at hlines
    by_cases hempty : sim₁.board.tasks.isEmpty = true
    · refine ⟨1, sim₁, lines₁ ++ ["all tasks finished after " ++ toString tick ++ " tick(s)"],
        Nat.le_add_left 1 left, .inr hempty, rounds_succ_of_round hround 0, ?_⟩
      simp only [rounds, hround]
      rw [bind_of_ok hlines, if_pos hempty, ← List.append_assoc]
      rfl
    · obtain ⟨n, sim', lines₂, hn, hstop, hrounds, hloop⟩ := ih h₁ (tick + 1) (printed ++ lines₁)
      refine ⟨n + 1, sim', lines₁ ++ lines₂, Nat.succ_le_succ hn,
        hstop.imp_left (congrArg (· + 1)), (rounds_succ_of_round hround n).trans hrounds, ?_⟩
      simp only [rounds, hround]
      rw [bind_of_ok hlines, if_neg hempty, hloop, List.append_assoc]

/-- Once a scenario is on the board, under numbers that differ, nothing fails any more, whatever the
source of chance says: not a round, not the loop that makes up to `ticks` of them, and not a command
that has read the scenario. After every round the assigned tasks are matched with units of the
factions that they are assigned for. -/
theorem rounds_never_fail {settings : Settings} {sc : Scenario} {g : Grid} {b₀ b : Board}
    {number : Nat → TaskId} {ids : List TaskId} (hgrid : Grid.ofScenario sc settings.sandbox = .ok g)
    (hboard : Board.ofSettings settings = .ok b₀) (hids : b₀.Fresh (sc.numbers number))
    (hpost : sc.post g number b₀ = .ok ids b) (source : ρ) :
    (∀ n, ∃ sim, Simulation.rounds n ⟨b, g, source⟩ = .ok () sim ∧
      sim.board.Staffed (World.faction? sim.world)) ∧
    (∀ ticks tick printed, ∃ n sim lines, n ≤ ticks ∧ (n = ticks ∨ sim.board.tasks.isEmpty = true) ∧
      Simulation.rounds n ⟨b, g, source⟩ = .ok () sim ∧
      rounds ticks tick ⟨b, g, source⟩ printed = .ok sim (printed ++ lines)) ∧
    ∀ (seeded : UInt64 → ρ) given ticks budget file printed,
      withBudget given budget printed = .ok settings printed →
      readFile Scenario.ofJson? file printed = .ok sc printed →
      ∃ lines, run seeded number given ticks budget file printed = .ok () (printed ++ lines) := by
  have hposted : Posted [] b := Scenario.post_posted (posted_of_ofSettings hboard hids) hpost
  refine ⟨fun n ↦ ?_, rounds_of_orderly (.of_posted hposted g source), ?_⟩
  · obtain ⟨sim, hrounds, h⟩ := (Orderly.of_posted hposted g source).rounds n
    exact ⟨sim, hrounds, h.staffed⟩
  · intro seeded given ticks budget file printed hgiven hfile
    obtain ⟨n, sim, lines, -, -, -, hloop⟩ := rounds_of_orderly
      (.of_posted hposted g (seeded settings.sandbox.seed)) ticks 1 printed
    have hlines := forM_print id (poolLines sim.board) (printed ++ lines)
    refine ⟨lines ++ (poolLines sim.board).map id, ?_⟩
    rw [run, bind_of_ok hgiven, bind_of_ok hfile, hgrid, hboard]
    simp only [orFail, pure_bind, hpost]
    rw [bind_of_ok hloop, ← List.append_assoc]
    exact hlines

/-- Two units face each other, and both factions offer two tasks. In the second round unit 2 is dead and
its task goes back; in the third unit 1 takes it and finds no enemy. -/
def frontier : Scenario where
  units := [{ id := ⟨1⟩, position := ⟨0, 0, 0⟩ },
    { id := ⟨2⟩, faction := ⟨1⟩, position := ⟨1, 0, 0⟩, health := 1 }]
  tasks := [{ task := { name := "duel", activities := .action {} .attack .enemy } },
    { task := { name := "raid", priority := some 4, activities := .action {} .attack .enemy } }]

theorem rounds_never_fail_frontier :
    let number (i : Nat) : TaskId := ⟨8 - i⟩
    ∃ g ids b, Grid.ofScenario frontier {} = .ok g ∧ frontier.post g number {} = .ok ids b ∧
      (∃ sim, Simulation.rounds 1 ⟨b, g, ({} : WordSource)⟩ = .ok () sim ∧
        sim.board.assignments = [(⟨0⟩, ⟨7⟩), (⟨1⟩, ⟨8⟩)] ∧
        sim.board.Staffed (World.faction? sim.world)) ∧
      ∃ n sim lines, n ≤ 3 ∧ Simulation.rounds n ⟨b, g, ({} : WordSource)⟩ = .ok () sim ∧
        rounds 3 1 ⟨b, g, ({} : WordSource)⟩ [] = .ok sim lines := by
  intro number
  have hids : ({} : Board).Fresh (frontier.numbers number) := ⟨by decide, fun _ _ ↦ rfl⟩
  have hfirst : (match Grid.ofScenario frontier {} with
      | .ok g =>
        match frontier.post g number {} with
        | .ok _ b =>
          match Simulation.rounds 1 ⟨b, g, ({} : WordSource)⟩ with
          | .ok () sim => decide (sim.board.assignments = [(⟨0⟩, ⟨7⟩), (⟨1⟩, ⟨8⟩)])
          | .error _ _ => false
        | .error _ _ => false
      | .error _ => false) = true := by decide +kernel
  split at hfirst
  · next g hgrid =>
    split at hfirst
    · next ids b hpost =>
      obtain ⟨hrounds, hloop, -⟩ :=
        @rounds_never_fail WordSource _ {} frontier g {} b number ids hgrid rfl hids hpost {}
      obtain ⟨sim, hsim, hstaffed⟩ := hrounds 1
      rw [hsim] at hfirst
      obtain ⟨n, sim', lines, hn, -, hrounds', hlines⟩ := hloop 3 1 []
      exact ⟨g, ids, b, hgrid, hpost, ⟨sim, hsim, of_decide_eq_true hfirst, hstaffed⟩,
        n, sim', lines, hn, hrounds', hlines⟩
    · cases hfirst
  · cases hfirst

end Console

end Errand
