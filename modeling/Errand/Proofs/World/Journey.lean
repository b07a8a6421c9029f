import Errand.Proofs.World.Calls

namespace Errand

namespace Grid

variable {g g' m : Grid} {u : UnitId} {b b' c c' : Body} {e : Effect} {target : Position}
  {calls more : List Call}

theorem holds_iff {p : Position} :
    g.holds p = true ↔ (0 ≤ p.x.toInt ∧ p.x.toInt < g.width.toInt) ∧
      (0 ≤ p.y.toInt ∧ p.y.toInt < g.depth.toInt) ∧
      (0 ≤ p.z.toInt ∧ p.z.toInt < g.height.toInt) := by
  simp only [holds, Bool.and_eq_true, decide_eq_true_eq, Int32.le_iff_toInt_le,
    Int32.lt_iff_toInt_lt, Int32.toInt_zero]
  tauto

theorem approach_within {a c : Int32} {n : Int} (ha : 0 ≤ a.toInt ∧ a.toInt < n)
    (hc : 0 ≤ c.toInt ∧ c.toInt < n) :
    0 ≤ (Position.approach a c).toInt ∧ (Position.approach a c).toInt < n := by
  rw [Position.toInt_approach]
  split
  · omega
  · split <;> omega

theorem holds_towards {p q : Position} (hp : g.holds p = true) (hq : g.holds q = true) :
    g.holds (p.towards q) = true := by
  rw [holds_iff] at hp hq ⊢
  exact ⟨approach_within hp.1 hq.1, approach_within hp.2.1 hq.2.1, approach_within hp.2.2 hq.2.2⟩

theorem nextCube?_of_bare (hbare : ∀ p, g.solid.contains p = false) {here : Position}
    (hhere : g.holds here = true) (hgoal : g.holds goal = true) (hne : here ≠ goal)
    (hdist : here.distanceSq goal < Position.maxDistanceSq) :
    g.nextCube? here goal = some (here.towards goal) := by
  have hcloser := Position.exactDistanceSq_towards_lt_self hne
  have hpassable : g.isPassable (here.towards goal) = true := by
    simp [isPassable, hbare, holds_towards hhere hgoal]
  simp only [Position.distanceSq] at hdist
  refine nearest?_eq_of_forall_lt ?_ fun p hp hnp ↦ ?_
  · rw [List.mem_filter]
    refine ⟨Position.towards_mem_around hne, ?_⟩
    rw [hpassable, Bool.true_and, decide_eq_true_eq, Position.distanceSq, Position.distanceSq]
    omega
  · have hnear := (Position.adjacent_iff.1 (Position.mem_around.1 (List.mem_filter.1 hp).1)).2
    have hfarther : (here.towards goal).exactDistanceSq goal < p.exactDistanceSq goal :=
      Position.exactDistanceSq_towards_lt hnear hnp
    simp only [Position.distanceSq]
    omega

/-- The cube `p` is one that a unit in the state `b` may go to. -/
structure Closes (g : Grid) (b : Body) (goal p : Position) : Prop where
  heads : g.goal? b.activity = some goal
  adjacent : b.position.adjacent p = true
  passable : g.isPassable p = true
  closer : p.distanceSq goal < b.position.distanceSq goal

theorem closes_of_nextCube? {goal p : Position} (hgoal : g.goal? b.activity = some goal)
    (h : g.nextCube? b.position goal = some p) : g.Closes b goal p := by
  have hmem := (nearest?_spec h).1
  rw [List.mem_filter, Bool.and_eq_true, decide_eq_true_eq] at hmem
  exact ⟨hgoal, Position.mem_around.1 hmem.1, hmem.2.1, hmem.2.2⟩

theorem Deed.motion (h : g.Deed u b b' e) :
    b'.position = b.position ∨ ∃ goal, g.Closes b goal b'.position := by
  have hblow : ∀ v : UnitId, (if v = u then b.struck else b).position = b.position := by
    intro v
    split <;> simp
  cases h with
  | advance hgoal _ hnext => exact .inr ⟨_, closes_of_nextCube? hgoal hnext⟩
  | arrive hact _ hnext => exact .inr ⟨_, closes_of_nextCube? (by rw [hact, goal?]) hnext⟩
  | hit => exact .inl (hblow _)
  | fell => exact .inl (hblow _)
  | _ => exact .inl rfl

theorem step_motion (hb : g.units[u]? = some b) :
    ∃ b', g.step.units[u]? = some b' ∧
      (b'.position = b.position ∨
        ∃ m c goal, (m, u) ∈ g.moments ∧ m.units[u]? = some c ∧ c.position = b.position ∧
          c.activity = b.activity ∧ m.Closes c goal b'.position) := by
  obtain ⟨m, hm⟩ := exists_moment hb
  have hstep := meanwhile_of_mem hm
  obtain ⟨c, hc, hbefore⟩ := hstep.found b hb
  have hstays : c.position = b.position := by rw [hbefore.rest]
  rcases act_eq_or_turned m u with hsame | ⟨c₁, hc₁, halive, c', e, hdeed, hleaves⟩
  · obtain ⟨b', hb', hafter⟩ := hstep.left c (by rw [hsame, hc])
    refine ⟨b', hb', .inl ?_⟩
    rw [hafter.rest, hstays]
  · rw [hc, Option.some.injEq] at hc₁
    subst hc₁
    obtain ⟨b', hb', hafter⟩ := hstep.left c' hleaves.own
    have hposition : b'.position = c'.position := by rw [hafter.rest]
    refine ⟨b', hb', ?_⟩
    rw [hposition]
    rcases hdeed.motion with hkept | ⟨goal, hcloses⟩
    · exact .inl (hkept.trans hstays)
    · exact .inr ⟨m, c, goal, hm, hc, hstays, (hbefore.of_alive halive).2.activity, hcloses⟩

/-- A step that unit `u` survives: others may hurt it, and its own turn, in the grid `m`, takes it
from the state `c` to `c'`. -/
structure Survives (g : Grid) (u : UnitId) (b : Body) (m : Grid) (c c' b' : Body) : Prop where
  moment : (m, u) ∈ g.moments
  found : m.units[u]? = some c
  alive : c.alive = true
  before : b.Alike c
  deed : ∃ e, m.Deed u c c' e
  after : c'.Alike b'
  left : g.step.units[u]? = some b'

theorem survives_of_mem (hm : (m, u) ∈ g.moments) (hb : g.units[u]? = some b)
    (hlive : World.terminated g.step u = false) : ∃ c c' b', g.Survives u b m c c' b' := by
  have hstep := meanwhile_of_mem hm
  obtain ⟨c, hc, hbefore⟩ := hstep.found b hb
  obtain ⟨b', hb', halive⟩ := exists_of_not_terminated hlive
  obtain ⟨c', hc', hages⟩ := ages_act m u u c hc
  obtain ⟨b'', hb'', hafter⟩ := hstep.left c' hc'
  rw [hb', Option.some.injEq] at hb''
  subst hb''
  obtain ⟨halive', halike⟩ := hafter.of_alive halive
  have hcalive : c.alive = true := by
    by_contra hdead
    rw [Body.dead_of_health_le hages.health (Bool.not_eq_true _ ▸ hdead)] at halive'
    cases halive'
  obtain ⟨c₁, e, hdeed, hleaves⟩ := turned_act hc hcalive
  rw [hleaves.own, Option.some.injEq] at hc'
  subst hc'
  exact ⟨c, c₁, b', hm, hc, hcalive, (hbefore.of_alive hcalive).2, ⟨e, hdeed⟩, halike, hb'⟩

/-- The grids have the same cubes, and the same of them are solid. -/
structure SameGround (g g' : Grid) : Prop where
  holds : ∀ p, g'.holds p = g.holds p
  solid : ∀ p, g'.solid.contains p = g.solid.contains p

theorem SameGround.trans (h : SameGround g g') (h' : SameGround g' m) : SameGround g m :=
  ⟨fun p ↦ (h'.holds p).trans (h.holds p), fun p ↦ (h'.solid p).trans (h.solid p)⟩

theorem SameGround.nextCube?_eq (h : SameGround g g') (here goal : Position) :
    g'.nextCube? here goal = g.nextCube? here goal := by
  simp only [nextCube?, isPassable, h.holds, h.solid]

theorem Meanwhile.sameGround (h : g.Meanwhile u m)
    (hsolid : ∀ p, g.step.solid.contains p = g.solid.contains p) : SameGround g m := by
  refine ⟨h.before.holds, fun p ↦ ?_⟩
  rw [Bool.eq_iff_iff]
  refine ⟨h.before.solid p, fun hp ↦ (erodes_act m u).solid p (h.after.solid p ?_)⟩
  rw [hsolid, hp]

theorem Deed.of_moving (h : g.Deed u b b' e) (hact : b.activity = .moving target) :
    b.position = target ∧ b' = b.resting ∨
      b.position ≠ target ∧
        ((∃ p, g.nextCube? b.position target = some p ∧
            b' = if p = target then { b with position := p }.resting
              else { b with position := p, stuck := false }) ∨
          g.nextCube? b.position target = none ∧ b' = { b with stuck := true }) := by
  have hgoal : ∀ goal, g.goal? b.activity = some goal ↔ target = goal := by simp [hact, goal?]
  have harrived : ∀ goal, b.arrived goal = decide (b.position = goal) := by simp [Body.arrived, hact]
  have hnowork : b.completes? = none := by rw [Body.completes?, hact]
  cases h with
  | idle hidle => rw [hact] at hidle; cases hidle
  | rest _ _ hrest =>
    have hat := hrest target ((hgoal target).2 rfl)
    rw [harrived, decide_eq_true_eq] at hat
    exact .inl ⟨hat, rfl⟩
  | @advance goal p hg haway hnext hne =>
    obtain rfl := (hgoal goal).1 hg
    rw [harrived, decide_eq_false_iff_not] at haway
    have hp : p ≠ target := fun heq ↦ hne (by rw [hact, heq])
    exact .inr ⟨haway, .inl ⟨p, hnext, (if_neg hp).symm⟩⟩
  | @arrive p hmoving hne hnext =>
    rw [hact, Activity.moving.injEq] at hmoving
    subst hmoving
    exact .inr ⟨hne, .inl ⟨_, hnext, (if_pos rfl).symm⟩⟩
  | @block goal hg haway hnext =>
    obtain rfl := (hgoal goal).1 hg
    rw [harrived, decide_eq_false_iff_not] at haway
    exact .inr ⟨haway, .inr ⟨hnext, rfl⟩⟩
  | toil hworking => rw [hact] at hworking; cases hworking
  | finish hdone => rw [hnowork] at hdone; cases hdone
  | hit hattack => rw [hact] at hattack; cases hattack
  | fell hattack => rw [hact] at hattack; cases hattack

theorem Deed.of_idle (h : g.Deed u b b' e) (hact : b.activity = .idle) : b' = b := by
  have hnogoal : g.goal? b.activity = none := by rw [hact, goal?]
  have hnowork : b.completes? = none := by rw [Body.completes?, hact]
  cases h with
  | idle => rfl
  | rest hbusy => exact absurd hact hbusy
  | advance hg => rw [hnogoal] at hg; cases hg
  | arrive hmoving => rw [hact] at hmoving; cases hmoving
  | block hg => rw [hnogoal] at hg; cases hg
  | toil hworking => rw [hact] at hworking; cases hworking
  | finish hdone => rw [hnowork] at hdone; cases hdone
  | hit hattack => rw [hact] at hattack; cases hattack
  | fell hattack => rw [hact] at hattack; cases hattack

end Grid

def Body.Settled (b : Body) : Prop := b.activity = .idle ∨ b.stuck = true

/-- What becomes of a unit on its way to `target` in `n` steps. -/
structure Body.Nears (target : Position) (n : Nat) (b b' : Body) : Prop where
  closer : b'.position = b.position ∨
    b'.position.distanceSq target < b.position.distanceSq target
  settled : b.Settled → b'.Settled ∧ b'.position = b.position
  pace : b'.Settled ∨ b'.position.distanceSq target + n ≤ b.position.distanceSq target

namespace Body.Nears

variable {target : Position} {n n' : Nat} {b b' b'' : Body}

theorem refl (b : Body) : Nears target 0 b b :=
  ⟨.inl rfl, fun h ↦ ⟨h, rfl⟩, .inr (Nat.le_refl _)⟩

theorem of_alike (h : b.Alike b') : Nears target 0 b b' := by
  have hsettled : b'.Settled ↔ b.Settled := by rw [Settled, Settled, h.activity, h.stuck]
  refine ⟨.inl h.position, fun hb ↦ ⟨hsettled.2 hb, h.position⟩, .inr (Nat.le_of_eq ?_)⟩
  rw [h.position, Nat.add_zero]

theorem le (h : Nears target n b b') :
    b'.position.distanceSq target ≤ b.position.distanceSq target := by
  rcases h.closer with hsame | hlt
  · exact Nat.le_of_eq (by rw [hsame])
  · exact Nat.le_of_lt hlt

theorem trans (h : Nears target n b b') (h' : Nears target n' b' b'') :
    Nears target (n + n') b b'' where
  closer := by
    rcases h'.closer with hsame | hlt
    · rw [hsame]
      exact h.closer
    · exact .inr (Nat.lt_of_lt_of_le hlt h.le)
  settled hb := by
    obtain ⟨hb', hposition⟩ := h.settled hb
    obtain ⟨hb'', hposition'⟩ := h'.settled hb'
    exact ⟨hb'', hposition'.trans hposition⟩
  pace := by
    rcases h'.pace with hsettled | hpace'
    · exact .inl hsettled
    · rcases h.pace with hsettled | hpace
      · exact .inl (h'.settled hsettled).1
      · exact .inr (by omega)

end Body.Nears

namespace Grid

variable {g : Grid} {u : UnitId} {b : Body} {target : Position} {c : Call}
  {calls before after more : List Call}

/-- The unit is on its way to `target`, or has come to rest there. Where it is stuck there is no way
forward as the solid cubes of the grid are. -/
def Heads (g : Grid) (target : Position) (b : Body) : Prop :=
  b.activity = .moving target ∧
      (b.stuck = true → b.position ≠ target ∧ g.nextCube? b.position target = none) ∨
    b.activity = .idle ∧ b.position = target

theorem Deed.heads {b' : Body} {e : Effect} (hdeed : g.Deed u b b' e) (h : g.Heads target b) :
    g.Heads target b' ∧ Body.Nears target 1 b b' := by
  rcases h with ⟨hact, hstuck⟩ | ⟨hact, hat⟩
  · have hblocked : b.Settled → g.nextCube? b.position target = none := by
      rintro (hidle | hb)
      · rw [hact] at hidle
        cases hidle
      · exact (hstuck hb).2
    rcases hdeed.of_moving hact with ⟨hat, rfl⟩ | ⟨haway, ⟨p, hnext, hb'⟩ | ⟨hnext, rfl⟩⟩
    · exact ⟨.inr ⟨rfl, hat⟩, .inl rfl, fun _ ↦ ⟨.inl rfl, rfl⟩, .inl (.inl rfl)⟩
    · have hcloser : p.distanceSq target < b.position.distanceSq target :=
        (closes_of_nextCube? (by rw [hact, goal?]) hnext).closer
      have hfree : ¬ b.Settled := by
        intro hb
        rw [hblocked hb] at hnext
        cases hnext
      by_cases hp : p = target
      · rw [if_pos hp] at hb'
        subst hb'
        exact ⟨.inr ⟨rfl, hp⟩, .inr hcloser, fun hb ↦ absurd hb hfree, .inl (.inl rfl)⟩
      · rw [if_neg hp] at hb'
        subst hb'
        refine ⟨.inl ⟨hact, fun h ↦ ?_⟩, .inr hcloser, fun hb ↦ absurd hb hfree, .inr hcloser⟩
        cases h
    · exact ⟨.inl ⟨hact, fun _ ↦ ⟨haway, hnext⟩⟩, .inl rfl, fun _ ↦ ⟨.inr rfl, rfl⟩, .inl (.inr rfl)⟩
  · rw [hdeed.of_idle hact]
    exact ⟨.inr ⟨hact, hat⟩, .inl rfl, fun h ↦ ⟨h, rfl⟩, .inl (.inl hact)⟩

/-- Nobody touches the solid cubes while the calls are obeyed, and unit `u` gets no command and lives. -/
structure Undisturbed (g : Grid) (u : UnitId) (calls : List Call) : Prop where
  solid : ∀ before after, calls = before ++ after →
    ∀ p, (g.run before).solid.contains p = g.solid.contains p
  commands : ∀ c, Call.issue u c ∉ calls
  alive : World.terminated (g.run calls) u = false

theorem not_terminated_of_run (h : World.terminated (g.run calls) u = false)
    (hb : g.units[u]? = some b) : World.terminated g u = false := by
  obtain ⟨b', hb', hages⟩ := ages_run g calls u b hb
  rw [terminated_eq hb', Bool.not_eq_false'] at h
  rw [terminated_eq hb, Bool.not_eq_false']
  by_contra hdead
  rw [Body.dead_of_health_le hages.health (Bool.not_eq_true _ ▸ hdead)] at h
  cases h

theorem Undisturbed.append_left (h : g.Undisturbed u (calls ++ more)) (hb : g.units[u]? = some b) :
    g.Undisturbed u calls where
  solid before after hsplit := h.solid before (after ++ more) (by rw [hsplit, List.append_assoc])
  commands c hc := h.commands c (List.mem_append_left more hc)
  alive := by
    obtain ⟨b', hb', -⟩ := ages_run g calls u b hb
    have halive := h.alive
    rw [run_append] at halive
    exact not_terminated_of_run halive hb'

theorem Undisturbed.append_right (h : g.Undisturbed u (calls ++ more)) :
    (g.run calls).Undisturbed u more where
  solid before after hsplit p := by
    rw [← run_append, h.solid (calls ++ before) after (by rw [hsplit, List.append_assoc]),
      h.solid calls more rfl]
  commands c hc := h.commands c (List.mem_append_right calls hc)
  alive := by
    rw [← run_append]
    exact h.alive

theorem holds_obey (g : Grid) (c : Call) (p : Position) : (g.obey c).holds p = g.holds p := by
  refine obey_induction (P := fun g' ↦ g'.holds p = g.holds p) rfl fun g' hg' ↦ ?_
  cases c with
  | fill q =>
    obtain ⟨-, rfl⟩ := fill_eq_ok.1 hg'
    rfl
  | deposit r q =>
    obtain ⟨-, rfl⟩ := deposit_eq_ok.1 hg'
    rfl
  | station v f q =>
    obtain ⟨-, -, rfl⟩ := station_eq_ok.1 hg'
    rfl
  | kill v =>
    cases hg'
    rfl
  | step =>
    cases hg'
    exact (evolves_step g).holds p
  | issue v k =>
    cases hg'
    rfl

theorem Undisturbed.sameGround (h : g.Undisturbed u calls) : SameGround g (g.run calls) := by
  refine ⟨fun p ↦ ?_, h.solid calls [] (List.append_nil _).symm⟩
  clear h
  induction calls generalizing g with
  | nil => rfl
  | cons c calls ih => exact ih.trans (holds_obey g c p)

theorem Undisturbed.obey {P : Nat → Body → Prop} (halike : ∀ n b b', b.Alike b' → P n b → P n b')
    (hturn : ∀ m b b' e n, SameGround g m → m.Deed u b b' e → P n b → P (n + 1) b') {n : Nat}
    (hc : g.Undisturbed u [c]) (hb : g.units[u]? = some b) (h : P n b) :
    ∃ b', (g.obey c).units[u]? = some b' ∧ P (n + [c].count .step) b' := by
  by_cases hstep : c = .step
  · subst hstep
    obtain ⟨m, hm⟩ := exists_moment hb
    obtain ⟨c, c', b', hsurvives⟩ := survives_of_mem hm hb hc.alive
    obtain ⟨e, hdeed⟩ := hsurvives.deed
    have hground := (meanwhile_of_mem hm).sameGround hc.sameGround.solid
    refine ⟨b', hsurvives.left, halike _ c' b' hsurvives.after ?_⟩
    exact hturn m c c' e n hground hdeed (halike n b c hsurvives.before h)
  · refine ⟨b, ?_, ?_⟩
    · rcases units_obey hstep u with hsame | ⟨f, p, hnew, -⟩ | ⟨-, hkilled⟩ | ⟨k, hk, -⟩
      · exact hsame.trans hb
      · rw [hnew] at hb
        cases hb
      · have hlive : World.terminated (g.obey c) u = false := hc.alive
        rw [hb, Option.map_some] at hkilled
        rw [terminated_eq hkilled] at hlive
        cases hlive
      · exact absurd (hk ▸ List.mem_singleton_self _) (hc.commands k)
    · rw [List.count_singleton, if_neg (by simpa using hstep)]
      exact h

/-- The rule for runs that do not disturb a unit. What its turns in `n` steps make of it, whatever
its health, is what becomes of it. -/
theorem Undisturbed.induction {P : Nat → Body → Prop}
    (halike : ∀ n b b', b.Alike b' → P n b → P n b')
    (hturn : ∀ m b b' e n, SameGround g m → m.Deed u b b' e → P n b → P (n + 1) b') {n : Nat}
    (hcalls : g.Undisturbed u calls) (hb : g.units[u]? = some b) (h : P n b) :
    ∃ b', (g.run calls).units[u]? = some b' ∧ P (n + calls.count .step) b' := by
  induction calls generalizing g b n with
  | nil => exact ⟨b, hb, h⟩
  | cons c calls ih =>
    have hcalls : g.Undisturbed u ([c] ++ calls) := hcalls
    have hfirst := hcalls.append_left hb
    have hcount : n + (c :: calls).count .step = n + [c].count .step + calls.count .step := by
      rw [Nat.add_assoc, ← List.count_append, List.singleton_append]
    obtain ⟨b₁, hb₁, h₁⟩ := hfirst.obey halike hturn hb h
    rw [hcount]
    exact ih (fun m b b' e n hm ↦ hturn m b b' e n (hfirst.sameGround.trans hm))
      hcalls.append_right hb₁ h₁

theorem Heads.run (h : g.Heads target b) (hb : g.units[u]? = some b) (hcalls : g.Undisturbed u calls) :
    ∃ b', (g.run calls).units[u]? = some b' ∧ (g.run calls).Heads target b' ∧
      Body.Nears target (calls.count .step) b b' := by
  have halike : ∀ n c c', Body.Alike c c' → g.Heads target c ∧ Body.Nears target n b c →
      g.Heads target c' ∧ Body.Nears target n b c' := by
    intro n c c' hc hheads
    refine ⟨?_, hheads.2.trans (.of_alike hc)⟩
    rw [Heads, hc.activity, hc.stuck, hc.position]
    exact hheads.1
  have hturn : ∀ m c c' e n, SameGround g m → m.Deed u c c' e →
      g.Heads target c ∧ Body.Nears target n b c →
      g.Heads target c' ∧ Body.Nears target (n + 1) b c' := by
    intro m c c' e n hm hdeed hheads
    have hsame : ∀ d, m.Heads target d ↔ g.Heads target d := fun d ↦ by
      rw [Heads, Heads, hm.nextCube?_eq]
    obtain ⟨hheads', hnears⟩ := hdeed.heads ((hsame c).2 hheads.1)
    exact ⟨(hsame c').1 hheads', hheads.2.trans hnears⟩
  obtain ⟨b', hb', hheads, hnears⟩ := hcalls.induction halike hturn hb ⟨h, .refl b⟩
  rw [Nat.zero_add] at hnears
  refine ⟨b', hb', ?_, hnears⟩
  rw [Heads, hcalls.sameGround.nextCube?_eq]
  exact hheads

theorem position?_eq (hb : g.units[u]? = some b) : World.position? g u = some b.position := by
  change g.units[u]?.map (·.position) = _
  rw [hb, Option.map_some]

theorem Heads.of_issue (hb : g.units[u]? = some b) (halive : b.alive = true) (target : Position) :
    ∃ b', (World.issue g u (.moveTo target)).units[u]? = some b' ∧ b'.position = b.position ∧
      (World.issue g u (.moveTo target)).Heads target b' := by
  refine ⟨_, (leaves_engage hb halive (.moving target)).own, rfl, .inl ⟨rfl, fun h ↦ ?_⟩⟩
  cases h

theorem Heads.never_returns (h : g.Heads target b) (hb : g.units[u]? = some b)
    (hcalls : g.Undisturbed u (calls ++ more))
    (hback : World.position? (g.run (calls ++ more)) u = World.position? g u) :
    World.position? (g.run calls) u = World.position? g u := by
  obtain ⟨b₁, hb₁, h₁, hnears⟩ := h.run hb (hcalls.append_left hb)
  obtain ⟨b₂, hb₂, -, hnears'⟩ := h₁.run hb₁ hcalls.append_right
  rw [← run_append] at hb₂
  rw [position?_eq hb₂, position?_eq hb, Option.some.injEq] at hback
  rw [position?_eq hb₁, position?_eq hb, Option.some.injEq]
  rcases hnears.closer with hsame | hlt
  · exact hsame
  · have hle := hnears'.le
    rw [hback] at hle
    omega

theorem Heads.rests (h : g.Heads target b) (hb : g.units[u]? = some b) (hsettled : b.Settled) :
    World.position? g u = some target ∧ World.busy g u = false ∨
      ∀ calls, g.Undisturbed u calls → World.busy (g.run calls) u = true ∧
        World.helpless (g.run calls) u = true ∧
        World.position? (g.run calls) u = World.position? g u := by
  rcases h with ⟨hact, hstuck⟩ | ⟨hact, hat⟩
  · right
    intro calls hcalls
    have hbstuck : b.stuck = true := hsettled.resolve_left (by simp [hact])
    obtain ⟨b', hb', h', hnears⟩ := Heads.run (.inl ⟨hact, hstuck⟩) hb hcalls
    obtain ⟨hsettled', hposition⟩ := hnears.settled hsettled
    have halive := hcalls.alive
    rw [terminated_eq hb', Bool.not_eq_false'] at halive
    rw [busy_eq hb', helpless_eq hb', position?_eq hb', position?_eq hb, hposition, halive]
    rcases h' with ⟨hact', -⟩ | ⟨-, hat⟩
    · simp [hact', hsettled'.resolve_left (by simp [hact'])]
    · exact absurd (hposition.symm.trans hat) (hstuck hbstuck).1
  · left
    rw [position?_eq hb, busy_eq hb, hact, hat]
    simp

/-- In every step each unit stays where it is, or its turn takes it to a passable cube beside it that
is closer to its goal. While nobody touches the solid cubes, a living unit that is sent to any cube
and gets no other command does not come back to a cube that it has left; and after more steps than
the square of its distance it is idle there, or cannot act and stays so, and stays where it is. -/
theorem motion_law (g : Grid) (u : UnitId) {b : Body} (hb : g.units[u]? = some b) :
    (∃ b', g.step.units[u]? = some b' ∧
      (b'.position = b.position ∨
        ∃ m c goal, (m, u) ∈ g.moments ∧ m.units[u]? = some c ∧ c.position = b.position ∧
          c.activity = b.activity ∧ m.Closes c goal b'.position)) ∧
    ∀ (target : Position) (calls : List Call), b.alive = true →
      let g' := World.issue g u (.moveTo target)
      g'.Undisturbed u calls →
        (∀ before between after later, calls = before ++ between ++ after ++ later →
          World.position? (g'.run (before ++ between ++ after)) u = World.position? (g'.run before) u →
          World.position? (g'.run (before ++ between)) u = World.position? (g'.run before) u) ∧
        (b.position.distanceSq target + 1 ≤ calls.count .step →
          World.position? (g'.run calls) u = some target ∧ World.busy (g'.run calls) u = false ∨
          ∀ more, g'.Undisturbed u (calls ++ more) →
            World.busy (g'.run (calls ++ more)) u = true ∧
            World.helpless (g'.run (calls ++ more)) u = true ∧
            World.position? (g'.run (calls ++ more)) u = World.position? (g'.run calls) u) := by
  refine ⟨step_motion hb, fun target calls halive ↦ ?_⟩
  intro g' hcalls
  obtain ⟨b₀, hb₀, hposition, h₀⟩ := Heads.of_issue hb halive target
  refine ⟨fun before between after later hsplit hback ↦ ?_, fun hsteps ↦ ?_⟩
  · rw [hsplit] at hcalls
    have hvisit := hcalls.append_left hb₀
    rw [List.append_assoc] at hvisit hback
    obtain ⟨b₁, hb₁, h₁, -⟩ := h₀.run hb₀ (hvisit.append_left hb₀)
    rw [run_append] at hback ⊢
    exact h₁.never_returns hb₁ hvisit.append_right hback
  · obtain ⟨b₁, hb₁, h₁, hnears⟩ := h₀.run hb₀ hcalls
    have hsettled : b₁.Settled := by
      rcases hnears.pace with hsettled | hpace
      · exact hsettled
      · rw [hposition] at hpace
        omega
    refine (h₁.rests hb₁ hsettled).imp id fun hrests more hmore ↦ ?_
    rw [run_append]
    exact hrests more hmore.append_right

theorem solid_of_take
    (h : ∀ n ≤ calls.length, (g.run (calls.take n)).solid.toList = g.solid.toList) :
    ∀ before after, calls = before ++ after →
      ∀ p, (g.run before).solid.contains p = g.solid.contains p := by
  intro before after hsplit p
  have hlist := h before.length (by rw [hsplit, List.length_append]; omega)
  rw [hsplit, List.take_left] at hlist
  rw [Bool.eq_iff_iff, ← Std.TreeSet.mem_iff_contains, ← Std.TreeSet.mem_iff_contains,
    ← Std.TreeSet.mem_toList, hlist, Std.TreeSet.mem_toList]

def blockedRow : Grid :=
  (ofSettings { width := 8, depth := 1, height := 1 }).run
    [.station ⟨1⟩ ⟨0⟩ ⟨0, 0, 0⟩, .fill ⟨2, 0, 0⟩]

/-- The unit is sent into the solid cube, and a log turns up on the way. -/
theorem motion_law_blockedRow :
    let g := World.issue blockedRow ⟨1⟩ (.moveTo ⟨2, 0, 0⟩)
    let calls : List Call := [.step, .deposit .log ⟨1, 0, 0⟩, .step, .step, .step, .step]
    g.Undisturbed ⟨1⟩ calls ∧
      ∀ more, g.Undisturbed ⟨1⟩ (calls ++ more) →
        World.busy (g.run (calls ++ more)) ⟨1⟩ = true ∧
        World.helpless (g.run (calls ++ more)) ⟨1⟩ = true ∧
        World.position? (g.run (calls ++ more)) ⟨1⟩ = some ⟨1, 0, 0⟩ := by
  intro g calls
  have hcalls : g.Undisturbed ⟨1⟩ calls :=
    ⟨solid_of_take (by decide +kernel), fun c hc ↦ by simp [calls] at hc, by decide +kernel⟩
  have hlaw := (motion_law blockedRow ⟨1⟩ (b := { faction := ⟨0⟩, position := ⟨0, 0, 0⟩ })
    (by decide +kernel)).2 ⟨2, 0, 0⟩ calls rfl hcalls
  refine ⟨hcalls, (hlaw.2 (by decide)).resolve_left ?_⟩
  rintro ⟨-, hidle⟩
  revert hidle
  decide +kernel

end Grid

end Errand
