import Errand.Proofs.Run.Moves
import Errand.Proofs.World.OpenGround

namespace Errand

namespace Position

def legs : Position → List Position → List (Position × Position)
  | _, [] => []
  | p, q :: qs => (p, q) :: q.legs qs

/-- Ticks from the first command to the end of the last move. -/
def travelTime : Position → List Position → Nat
  | _, [] => 0
  | p, q :: qs => max 1 (p.chebyshev q) + q.travelTime qs

end Position

structure Outing (ρ : Type) where
  program : Program
  grid : Grid
  source : ρ

namespace Outing

variable {ρ : Type} [Chance ρ]

def execute (o : Outing ρ) (budget : Nat) (actor : Actor) : Program.Step Grid ρ :=
  o.program.advance budget actor o.grid o.source

/-- A whole tick: the program runs, then the grid takes a step. -/
def tick (o : Outing ρ) (budget : Nat) (actor : Actor) : Outing ρ :=
  let step := o.execute budget actor
  ⟨step.program, step.world.step, step.source⟩

def ticks (o : Outing ρ) (budget : Nat) (actor : Actor) : Nat → Outing ρ
  | 0 => o
  | n + 1 => (o.tick budget actor).ticks budget actor n

end Outing

/-- All stops lie in the grid, and no leg is so long that its distance is cut off. -/
structure Grid.Route (g : Grid) (p : Position) (stops : List Position) : Prop where
  start : g.holds p = true
  inside : ∀ q ∈ stops, g.holds q = true
  short : ∀ leg ∈ p.legs stops, leg.1.distanceSq leg.2 < Position.maxDistanceSq

theorem nonnegative_of_holds {g : Grid} {p : Position} (h : g.holds p = true) :
    p.nonnegative = true := by
  simp only [Grid.holds, Bool.and_eq_true] at h
  simp only [Position.nonnegative, Bool.and_eq_true]
  exact ⟨⟨h.1.1.1.1.1, h.1.1.1.2⟩, h.1.2⟩

namespace Grid.Route

variable {g g' : Grid} {p q : Position} {qs : List Position}

theorem congr (h : g.Route p qs) (hholds : ∀ p, g'.holds p = g.holds p) : g'.Route p qs :=
  ⟨(hholds p).trans h.start, fun q hq ↦ (hholds q).trans (h.inside q hq), h.short⟩

theorem tail (h : g.Route p (q :: qs)) : g.Route q qs :=
  ⟨h.inside q List.mem_cons_self, fun r hr ↦ h.inside r (List.mem_cons_of_mem q hr),
    fun leg hleg ↦ h.short leg (List.mem_cons_of_mem _ hleg)⟩

theorem clear (h : g.Route p (q :: qs)) (hbare : ∀ p, g.solid.contains p = false) : g.Clear p q :=
  ⟨hbare, h.start, h.inside q List.mem_cons_self, h.short (p, q) List.mem_cons_self⟩

end Grid.Route

namespace Grid

/-- No cube is solid, and every unit but `u` is idle. -/
structure Still (g : Grid) (u : UnitId) : Prop where
  bare : ∀ p, g.solid.contains p = false
  others : ∀ (v : UnitId) (c : Body), v ≠ u → g.units[v]? = some c → c.activity = .idle

structure Solo (g : Grid) (u : UnitId) (b : Body) : Prop extends g.Still u where
  here : g.units[u]? = some b
  alive : b.alive = true

variable {g : Grid} {u : UnitId} {b : Body} {s t : Position} {n : Nat}

theorem Still.act (h : g.Still u) (w : UnitId) : (g.act w).Still u := by
  refine ⟨fun p ↦ ?_, fun v c hv hc ↦ ?_⟩
  · rw [← Bool.not_eq_true]
    intro hp
    have hsolid := (erodes_act g w).solid p hp
    rw [h.bare] at hsolid
    cases hsolid
  · by_cases hvw : v = w
    · subst hvw
      rcases act_eq_or_turned g v with hsame | ⟨b, hb, -, b', e, hdeed, hleaves⟩
      · rw [hsame] at hc
        exact h.others v c hv hc
      · have hidle := h.others v b hv hb
        rw [hleaves.own, hdeed.of_idle hidle, Option.some.injEq] at hc
        rwa [← hc]
    · obtain ⟨d, hd, hweathers⟩ := weathered_of_act hvw hc
      rcases hweathers.fate with ⟨-, hact⟩ | ⟨-, hidle⟩
      · rw [hact, h.others v d hv hd]
      · exact hidle

theorem Still.step (h : g.Still u) : g.step.Still u :=
  step_induction (P := fun m ↦ m.Still u) (fun _ w hm ↦ hm.act w) ⟨h.bare, h.others⟩

namespace Solo

theorem issue_moveTo (h : g.Solo u b) (goal : Position) :
    (World.issue g u (.moveTo goal)).Solo u { b with activity := .moving goal, stuck := false } := by
  have hengaged := leaves_engage h.here h.alive (.moving goal)
  refine ⟨⟨h.bare, fun v c hv hc ↦ h.others v c hv ?_⟩, hengaged.own, h.alive⟩
  have hother := hengaged.others v hv
  rw [if_neg (by simp)] at hother
  exact hother.symm.trans hc

theorem busy (h : g.Solo u b) (hmoves : b.MovesFor s t n) :
    World.busy g u = decide (n < max 1 (s.chebyshev t)) := by
  rw [busy_eq h.here, h.alive, hmoves.activity, Bool.true_and]
  split <;> simp_all

theorem undisturbed (h : g.Solo u b) (hmoves : b.MovesFor s t n) : g.Undisturbed u [.step] := by
  have hown : b.activity ≠ .attacking u := by
    rw [hmoves.activity]
    split <;> simp
  have halone : g.LeftAlone u [.step] := by
    refine ⟨fun before after hsplit p ↦ ?_, by simp, by simp, by simp, fun v c hc ↦ ?_⟩
    · rcases List.append_eq_singleton_iff.1 hsplit.symm with ⟨rfl, -⟩ | ⟨rfl, -⟩
      · rfl
      · exact (h.toStill.step.bare p).trans (h.bare p).symm
    · by_cases hv : v = u
      · rw [hv, h.here, Option.some.injEq] at hc
        rwa [← hc]
      · simp [h.others v c hv hc]
  exact halone.undisturbed h.here h.alive

theorem step (h : g.Solo u b) (hclear : g.Clear s t) (hmoves : b.MovesFor s t n) :
    ∃ b', g.step.Solo u b' ∧ b'.MovesFor s t (n + 1) := by
  have hcalls := h.undisturbed hmoves
  obtain ⟨b', hb', hmoves'⟩ := hcalls.movesFor hclear h.here hmoves
  have halive := hcalls.alive
  rw [terminated_eq hb', Bool.not_eq_false'] at halive
  rw [List.count_singleton_self] at hmoves'
  exact ⟨b', ⟨h.toStill.step, hb', halive⟩, hmoves'⟩

end Solo

end Grid

namespace Outing

variable {ρ : Type} {budget : Nat} {actor : Actor} {loc : Location}

/-- The unit has been sent from `s` to a stop, with nothing in its way, and `n` ticks have passed. -/
structure Underway (loc : Location) (actor : Actor) (before : List (Location × Position))
    (stop : Location × Position) (rest : List (Location × Position)) (s : Position) (n : Nat)
    (o : Outing ρ) : Prop where
  running : o.program.stopped = false
  stands : o.program.StandsAt (.sequence loc (Script.moves (before ++ stop :: rest)))
    (some (.inside before.length .sent))
  unit : ∃ b, o.grid.Solo actor.unit b ∧ b.MovesFor s stop.2 n
  route : o.grid.Route s (stop.2 :: rest.map (·.2))

variable [Chance ρ] {before rest : List (Location × Position)} {stop next : Location × Position}
  {s : Position} {n : Nat} {b : Body} {o : Outing ρ}

theorem underway_tick {g : Grid}
    (hwaits : (o.execute budget actor).Waits (.sequence loc (Script.moves (before ++ stop :: rest)))
      before.length g)
    (hsolo : g.Solo actor.unit b) (hmoves : b.MovesFor s stop.2 n)
    (hroute : g.Route s (stop.2 :: rest.map (·.2))) :
    Underway loc actor before stop rest s (n + 1) (o.tick budget actor) where
  running := hwaits.running
  stands := hwaits.stands
  unit := by
    change ∃ b, (o.execute budget actor).world.step.Solo actor.unit b ∧ _
    rw [hwaits.world_eq]
    exact hsolo.step (hroute.clear hsolo.bare) hmoves
  route := by
    change (o.execute budget actor).world.step.Route _ _
    rw [hwaits.world_eq]
    exact hroute.congr (Grid.evolves_step g).holds

theorem Underway.walk (h : Underway loc actor before stop rest s n o)
    (hn : n < max 1 (s.chebyshev stop.2)) (budget : Nat) :
    (o.execute budget actor).result = .ok (.suspended .awaitingAction) ∧
      Underway loc actor before stop rest s (n + 1) (o.tick budget actor) := by
  obtain ⟨b, hsolo, hmoves⟩ := h.unit
  have hbusy : World.busy o.grid actor.unit = true := by
    rw [hsolo.busy hmoves, decide_eq_true hn]
  have hwaits := Program.advance_moves_busy h.stands h.running hbusy budget o.source
  exact ⟨hwaits.result, underway_tick hwaits hsolo hmoves h.route⟩

omit [Chance ρ] in
theorem Underway.there (h : Underway loc actor before stop rest s n o)
    (hn : max 1 (s.chebyshev stop.2) ≤ n) :
    ∃ b, o.grid.Solo actor.unit b ∧ b.position = stop.2 ∧ b.activity = .idle ∧
      World.busy o.grid actor.unit = false := by
  obtain ⟨b, hsolo, hmoves⟩ := h.unit
  refine ⟨b, hsolo, ?_, ?_, ?_⟩
  · rw [hmoves.position, Position.along_eq_iff]
    omega
  · rw [hmoves.activity, if_neg (by omega)]
  · rw [hsolo.busy hmoves, decide_eq_false (by omega)]

theorem depart {q : Option Point}
    (hcomes : Program.ComesTo loc (before ++ stop :: rest) actor o.grid ρ q before.length (stop :: rest))
    (hstands : o.program.StandsAt (.sequence loc (Script.moves (before ++ stop :: rest))) q)
    (hrun : o.program.stopped = false) (hbudget : 1 ≤ budget) (hsolo : o.grid.Solo actor.unit b)
    (hroute : o.grid.Route b.position (stop.2 :: rest.map (·.2))) :
    (o.execute budget actor).result = .ok (.suspended .awaitingAction) ∧
      Underway loc actor before stop rest b.position 1 (o.tick budget actor) := by
  have hsent := hsolo.issue_moveTo stop.2
  have hmoves : Body.MovesFor b.position stop.2 0
      { b with activity := .moving stop.2, stuck := false } := ⟨rfl, (if_pos (by omega)).symm⟩
  have hbusy : World.busy (World.issue o.grid actor.unit (.moveTo stop.2)) actor.unit = true := by
    rw [hsent.busy hmoves, decide_eq_true (by omega)]
  have hwaits := hcomes.advance_next hstands hrun hbudget hbusy o.source
  have hholds := (Grid.evolves_issue o.grid actor.unit (.moveTo stop.2)).holds
  exact ⟨hwaits.result, underway_tick hwaits hsent hmoves (hroute.congr hholds)⟩

structure Arrives (actor : Actor) (budget : Nat) (goal : Position) (o : Outing ρ) : Prop where
  result : (o.execute budget actor).result = .ok .finished
  unit : ∃ b, (o.execute budget actor).world.units[actor.unit]? = some b ∧ b.position = goal ∧
    b.activity = .idle

theorem Underway.arrives (h : Underway loc actor before stop [] s n o)
    (hn : max 1 (s.chebyshev stop.2) ≤ n) (budget : Nat) : Arrives actor budget stop.2 o := by
  obtain ⟨b, hsolo, hat, hidle, hbusy⟩ := h.there hn
  have hcomes := @Program.comesTo_of_idle Grid ρ _ _ loc before [] stop actor o.grid hbusy
  obtain ⟨hresult, hworld⟩ := hcomes.advance_last h.stands h.running budget o.source
  refine ⟨hresult, b, ?_, hat, hidle⟩
  change (o.program.advance budget actor o.grid o.source).world.units[actor.unit]? = some b
  rw [hworld, hsolo.here]

theorem Underway.turn (h : Underway loc actor before stop (next :: rest) s n o)
    (hn : max 1 (s.chebyshev stop.2) ≤ n) (hbudget : 1 ≤ budget) :
    (o.execute budget actor).result = .ok (.suspended .awaitingAction) ∧
      Underway loc actor (before ++ [stop]) next rest stop.2 1 (o.tick budget actor) := by
  obtain ⟨b, hsolo, hat, -, hbusy⟩ := h.there hn
  have hsplit : before ++ stop :: next :: rest = (before ++ [stop]) ++ next :: rest := by simp
  have hlen : (before ++ [stop]).length = before.length + 1 := by simp
  have hcomes := @Program.comesTo_of_idle Grid ρ _ _ loc before (next :: rest) stop actor o.grid hbusy
  have hstands := h.stands
  rw [hsplit] at hcomes hstands
  rw [← hlen] at hcomes
  have hroute : o.grid.Route b.position (next.2 :: rest.map (·.2)) := by
    rw [hat]
    exact h.route.tail
  rw [← hat]
  exact depart hcomes hstands h.running hbudget hsolo hroute

theorem ticks_of_tick {P : Outing ρ → Prop} {t : Nat}
    (hresult : (o.execute budget actor).result = .ok (.suspended .awaitingAction))
    (h : (∀ n < t, (((o.tick budget actor).ticks budget actor n).execute budget actor).result =
        .ok (.suspended .awaitingAction)) ∧ P ((o.tick budget actor).ticks budget actor t)) :
    (∀ n < t + 1, ((o.ticks budget actor n).execute budget actor).result =
      .ok (.suspended .awaitingAction)) ∧ P (o.ticks budget actor (t + 1)) := by
  refine ⟨fun n hn ↦ ?_, h.2⟩
  cases n with
  | zero => exact hresult
  | succ n => exact h.1 n (by omega)

-- The induction is on the time that is left. A tick on the way to a stop and the tick that turns to
-- the next stop each use up one of it.
theorem Underway.run {t : Nat} (hbudget : 1 ≤ budget) (h : Underway loc actor before stop rest s n o)
    (ht : t = max 1 (s.chebyshev stop.2) - n + stop.2.travelTime (rest.map (·.2))) :
    (∀ n < t, ((o.ticks budget actor n).execute budget actor).result =
        .ok (.suspended .awaitingAction)) ∧
      Arrives actor budget ((rest.map (·.2)).getLastD stop.2) (o.ticks budget actor t) := by
  induction t generalizing before stop rest s n o with
  | zero =>
    have hn : max 1 (s.chebyshev stop.2) ≤ n := by omega
    cases rest with
    | nil => exact ⟨fun n hn ↦ absurd hn (Nat.not_lt_zero n), h.arrives hn budget⟩
    | cons next rest =>
      rw [List.map_cons, Position.travelTime] at ht
      omega
  | succ t ih =>
    by_cases hn : n < max 1 (s.chebyshev stop.2)
    · obtain ⟨hresult, hnext⟩ := h.walk hn budget
      exact ticks_of_tick hresult (ih hnext (by omega))
    · cases rest with
      | nil =>
        rw [List.map_nil, Position.travelTime] at ht
        omega
      | cons next rest =>
        obtain ⟨hresult, hnext⟩ := h.turn (by omega) hbudget
        rw [List.map_cons, Position.travelTime] at ht
        rw [List.map_cons, List.getLastD_cons]
        exact ticks_of_tick hresult (ih hnext (by omega))

/-- In a grid without solid cubes, where every other unit is idle, a living unit is sent from stop to
stop. Tick `n + 1` is the execution after `n` whole ticks. The program waits for the unit in each of
the `travelTime` ticks, and finishes in the one after them, with the unit at the last stop. By then
it has come to rest there, unless there were no stops: then it is as it was. -/
theorem itinerary_finishes {g : Grid} (hg : g.Reached) (hbare : g.solid.isEmpty = true)
    {actor : Actor} {b : Body} (hb : g.units[actor.unit]? = some b) (halive : b.alive = true)
    (hothers : ∀ (v : UnitId) (c : Body), v ≠ actor.unit → g.units[v]? = some c → c.activity = .idle)
    (loc : Location) {stops : List (Location × Position)} (hstops : ∀ s ∈ stops, g.holds s.2 = true)
    (hlegs : ∀ leg ∈ b.position.legs (stops.map (·.2)),
      leg.1.distanceSq leg.2 < Position.maxDistanceSq)
    {budget : Nat} (hbudget : 1 ≤ budget) (capacity : Nat) (source : ρ) :
    ∃ s, Script.build (.itinerary loc stops) = .ok s ∧
      let o : Outing ρ := ⟨.start s capacity, g, source⟩
      let t := b.position.travelTime (stops.map (·.2))
      (∀ n < t, ((o.ticks budget actor n).execute budget actor).result =
        .ok (.suspended .awaitingAction)) ∧
      ((o.ticks budget actor t).execute budget actor).result = .ok .finished ∧
      ∃ b', ((o.ticks budget actor t).execute budget actor).world.units[actor.unit]? = some b' ∧
        b'.position = (stops.map (·.2)).getLastD b.position ∧
        b'.activity = if stops.isEmpty then b.activity else .idle := by
  have hsolo : g.Solo actor.unit b :=
    ⟨⟨fun p ↦ Std.TreeSet.contains_of_isEmpty hbare, hothers⟩, hb, halive⟩
  have hroute : g.Route b.position (stops.map (·.2)) :=
    ⟨(hg.sound.units actor.unit b hb).1, List.forall_mem_map.2 hstops, hlegs⟩
  have hnonneg : ∀ s ∈ stops, s.2.nonnegative = true := fun s hs ↦ nonnegative_of_holds (hstops s hs)
  refine ⟨_, Script.build_itinerary hnonneg, ?_⟩
  intro o t
  have hstands : o.program.StandsAt (.sequence loc (Script.moves stops)) none :=
    Program.standsAt_blank rfl rfl
  have hcomes : Program.ComesTo loc stops actor g ρ none 0 stops :=
    Program.comesTo_start loc stops actor g
  cases stops with
  | nil =>
    obtain ⟨hresult, hworld⟩ := hcomes.advance_last hstands rfl budget source
    refine ⟨fun n hn ↦ absurd hn (Nat.not_lt_zero n), hresult, b, ?_, rfl, rfl⟩
    change (o.program.advance budget actor g source).world.units[actor.unit]? = some b
    rw [hworld, hb]
  | cons stop rest =>
    obtain ⟨hresult, hnext⟩ :=
      @depart ρ budget actor loc _ [] rest stop b o none hcomes hstands rfl hbudget hsolo hroute
    have htime : t = max 1 (b.position.chebyshev stop.2) - 1 +
        stop.2.travelTime (rest.map (·.2)) + 1 := by
      change b.position.travelTime (stop.2 :: rest.map (·.2)) = _
      rw [Position.travelTime]
      omega
    obtain ⟨hwaits, harrives⟩ := ticks_of_tick hresult (hnext.run hbudget rfl)
    rw [← htime] at hwaits harrives
    obtain ⟨b'', hunit, hposition, hidle⟩ := harrives.unit
    refine ⟨hwaits, harrives.result, b'', hunit, ?_, hidle⟩
    rw [hposition, List.map_cons, List.getLastD_cons]

def corner : Grid :=
  { Grid.ofSettings {} with
    units := (∅ : Std.TreeMap UnitId Body).insert ⟨1⟩ { faction := ⟨0⟩, position := ⟨0, 0, 0⟩ } }

theorem corner_reached : corner.Reached :=
  .station (.ofSettings {}) (u := ⟨1⟩) (f := ⟨0⟩) (p := ⟨0, 0, 0⟩) rfl

theorem corner_others {v : UnitId} (h : v ≠ ⟨1⟩) : corner.units[v]? = none := by
  have hne : ¬ (⟨1⟩ : UnitId) = v := fun heq ↦ h heq.symm
  simp [corner, hne]

/-- Without stops no command is given, and a unit that was on its way somewhere is not idle when the
program finishes. -/
theorem itinerary_leaves_unit_moving :
    let g := World.issue corner ⟨1⟩ (.moveTo ⟨3, 0, 0⟩)
    let o : Outing WordSource := ⟨.start (.sequence {} []) 4, g, {}⟩
    g.Reached ∧ g.solid.isEmpty = true ∧ (∀ v : UnitId, v ≠ ⟨1⟩ → g.units[v]? = none) ∧
      (∃ b, g.units[(⟨1⟩ : UnitId)]? = some b ∧ b.alive = true ∧ b.position.travelTime [] = 0) ∧
      Script.build (.itinerary {} []) = .ok (.sequence {} []) ∧
      (o.execute 1 ⟨⟨1⟩, none⟩).result = .ok .finished ∧
      (o.execute 1 ⟨⟨1⟩, none⟩).world.units[(⟨1⟩ : UnitId)]?.map (·.activity) =
        some (.moving ⟨3, 0, 0⟩) := by
  refine ⟨.issue _ _ corner_reached, rfl, fun v hv ↦ ?_, ?_, rfl, rfl, rfl⟩
  · change (corner.engage ⟨1⟩ (.moving ⟨3, 0, 0⟩)).units[v]? = none
    rw [Grid.engage, Grid.units_modifyUnit, if_neg hv, corner_others hv]
  · exact ⟨_, rfl, rfl, rfl⟩

/-- There and back with a stop on the way that is no way at all. -/
theorem itinerary_finishes_corner :
    ∃ s, Script.build (.itinerary {} [({}, ⟨3, 1, 0⟩), ({}, ⟨3, 1, 0⟩), ({}, ⟨0, 0, 0⟩)]) = .ok s ∧
      let o : Outing WordSource := ⟨.start s 4, corner, {}⟩
      (∀ n < 7, ((o.ticks 1 ⟨⟨1⟩, none⟩ n).execute 1 ⟨⟨1⟩, none⟩).result =
        .ok (.suspended .awaitingAction)) ∧
      ((o.ticks 1 ⟨⟨1⟩, none⟩ 7).execute 1 ⟨⟨1⟩, none⟩).result = .ok .finished ∧
      ∃ b, ((o.ticks 1 ⟨⟨1⟩, none⟩ 7).execute 1 ⟨⟨1⟩, none⟩).world.units[(⟨1⟩ : UnitId)]? = some b ∧
        b.position = ⟨0, 0, 0⟩ ∧ b.activity = .idle :=
  @itinerary_finishes WordSource _ corner corner_reached rfl ⟨⟨1⟩, none⟩
    { faction := ⟨0⟩, position := ⟨0, 0, 0⟩ } rfl rfl
    (fun v c hv hc ↦ by rw [corner_others hv] at hc; cases hc) {}
    [({}, ⟨3, 1, 0⟩), ({}, ⟨3, 1, 0⟩), ({}, ⟨0, 0, 0⟩)] (by decide) (by decide) 1 (by decide) 4 {}

end Outing

end Errand
