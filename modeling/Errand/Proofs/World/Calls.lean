import Errand.Proofs.Effect
import Errand.Proofs.World.Evolution
import Errand.Scenario

namespace Errand

/-- What a unit's state is like at any time, in a grid where work takes `workTicks`. -/
structure Body.Sound (workTicks : Nat) (b : Body) : Prop where
  dead : b.alive = false → b.activity = .idle
  stuck : b.alive = true → b.stuck = true → b.activity ≠ .idle
  working : ∀ target n, b.activity = .working target n → 1 ≤ n ∧ n ≤ workTicks

structure Body.Ages (b b' : Body) : Prop where
  health : b'.health ≤ b.health
  dead : b.alive = false → b'.position = b.position ∧ b'.carried = b.carried

namespace Body

variable {b b' b'' : Body} {w : Nat}

theorem dead_of_health_le (h : b'.health ≤ b.health) (hdead : b.alive = false) :
    b'.alive = false := by
  rw [← Bool.not_eq_true, alive_iff] at hdead ⊢
  omega

theorem Ages.refl (b : Body) : Ages b b := ⟨Nat.le_refl _, fun _ ↦ ⟨rfl, rfl⟩⟩

theorem Ages.trans (h : Ages b b') (h' : Ages b' b'') : Ages b b'' := by
  refine ⟨Nat.le_trans h'.health h.health, fun hdead ↦ ?_⟩
  obtain ⟨hposition, hcarried⟩ := h.dead hdead
  obtain ⟨hposition', hcarried'⟩ := h'.dead (dead_of_health_le h.health hdead)
  exact ⟨hposition'.trans hposition, hcarried'.trans hcarried⟩

theorem Ages.of_alive (hhealth : b'.health ≤ b.health) (halive : b.alive = true) : Ages b b' :=
  ⟨hhealth, fun hdead ↦ by rw [halive] at hdead; cases hdead⟩

theorem Weathers.ages (h : Weathers b b') : Ages b b' := by
  refine ⟨h.health, fun _ ↦ ?_⟩
  rw [h.rest]
  exact ⟨rfl, rfl⟩

theorem Weathers.sound (h : Weathers b b') (hb : b.Sound w) : b'.Sound w := by
  have hstuck : b'.stuck = b.stuck := by rw [h.rest]
  rcases h.fate with ⟨halive, hact⟩ | ⟨hdead, hidle⟩
  · refine ⟨?_, ?_, ?_⟩
    · rw [halive, hact]
      exact hb.dead
    · rw [halive, hact, hstuck]
      exact hb.stuck
    · rw [hact]
      exact hb.working
  · refine ⟨fun _ ↦ hidle, fun halive ↦ ?_, fun target n hact ↦ ?_⟩
    · rw [hdead] at halive
      cases halive
    · rw [hidle] at hact
      cases hact

theorem sound_of_idle (hact : b.activity = .idle) (hstuck : b.stuck = false) : b.Sound w := by
  refine ⟨fun _ ↦ hact, fun _ h ↦ ?_, fun target n h ↦ ?_⟩
  · rw [hstuck] at h
    cases h
  · rw [hact] at h
    cases h

theorem sound_of_busy (halive : b.alive = true) (hact : b.activity ≠ .idle)
    (hworking : ∀ target n, b.activity = .working target n → 1 ≤ n ∧ n ≤ w) : b.Sound w := by
  refine ⟨fun hdead ↦ ?_, fun _ _ ↦ hact, hworking⟩
  rw [halive] at hdead
  cases hdead

end Body

namespace Grid

variable {g g' g'' : Grid} {u v : UnitId} {b b' : Body} {e : Effect}

theorem ne_idle_of_goal? {a : Activity} {goal : Position} (h : g.goal? a = some goal) :
    a ≠ .idle := by
  rintro rfl
  cases h

theorem Deed.health (h : g.Deed u b b' e) : b'.health ≤ b.health := by
  have hblow : ∀ v : UnitId, (if v = u then b.struck else b).health ≤ b.health := by
    intro v
    split
    · exact b.weathers_struck.health
    · exact Nat.le_refl _
  cases h with
  | hit => exact hblow _
  | fell => exact hblow _
  | _ => exact Nat.le_refl _

theorem Deed.sound (h : g.Deed u b b' e) (halive : b.alive = true)
    (hb : b.Sound g.workTicks) : b'.Sound g.workTicks := by
  cases h with
  | idle => exact hb
  | advance hgoal => exact Body.sound_of_busy halive (ne_idle_of_goal? hgoal) hb.working
  | block hgoal => exact Body.sound_of_busy halive (ne_idle_of_goal? hgoal) hb.working
  | @toil target n hact _ hn =>
    have hbound := hb.working target n hact
    refine Body.sound_of_busy halive (by simp) fun target' n' hact' ↦ ?_
    cases hact'
    omega
  | hit =>
    split
    · exact b.weathers_struck.sound hb
    · exact hb
  | _ => exact Body.sound_of_idle rfl rfl

structure Sound (g : Grid) : Prop where
  workTicks : 1 ≤ g.workTicks
  units : ∀ (v : UnitId) (b : Body), g.units[v]? = some b →
    g.holds b.position = true ∧ b.Sound g.workTicks
  solid : ∀ p, g.solid.contains p = true → g.holds p = true
  resources : ∀ p, g.resources.contains p = true → g.holds p = true

def Ages (g g' : Grid) : Prop :=
  ∀ (v : UnitId) (b : Body), g.units[v]? = some b → ∃ b', g'.units[v]? = some b' ∧ b.Ages b'

theorem Ages.of_units (h : ∀ v : UnitId, g'.units[v]? = g.units[v]?) : Ages g g' :=
  fun v b hb ↦ ⟨b, (h v).trans hb, .refl b⟩

theorem Ages.refl (g : Grid) : Ages g g := .of_units fun _ ↦ rfl

theorem Ages.trans (h : Ages g g') (h' : Ages g' g'') : Ages g g'' := by
  intro v b hb
  obtain ⟨b', hb', hages⟩ := h v b hb
  obtain ⟨b'', hb'', hages'⟩ := h' v b' hb'
  exact ⟨b'', hb'', hages.trans hages'⟩

theorem Sound.modifyUnit (hg : g.Sound) {f : Body → Body}
    (hf : ∀ b, b.Sound g.workTicks → (f b).position = b.position ∧ (f b).Sound g.workTicks) :
    (g.modifyUnit u f).Sound where
  workTicks := hg.workTicks
  units v b' hb' := by
    rw [units_modifyUnit] at hb'
    split at hb'
    · obtain ⟨b, hb, rfl⟩ := Option.map_eq_some_iff.1 hb'
      obtain ⟨hin, hsound⟩ := hg.units u b hb
      obtain ⟨hposition, hsound'⟩ := hf b hsound
      rw [hposition]
      exact ⟨hin, hsound'⟩
    · exact hg.units v b' hb'
  solid := hg.solid
  resources := hg.resources

section Turns

theorem Sound.act (hg : g.Sound) (u : UnitId) : (g.act u).Sound := by
  have herodes := erodes_act g u
  have hinside := (evolves_act g u).inside fun v b hb ↦ (hg.units v b hb).1
  refine ⟨herodes.workTicks ▸ hg.workTicks, fun v b' hb' ↦ ⟨hinside v b' hb', ?_⟩, fun p hp ↦ ?_,
    fun p hp ↦ ?_⟩
  · rw [herodes.workTicks]
    rcases act_eq_or_turned g u with hsame | ⟨b, hb, halive, c, e, hdeed, hleaves⟩
    · rw [hsame] at hb'
      exact (hg.units v b' hb').2
    · by_cases hv : v = u
      · rw [hv, hleaves.own, Option.some.injEq] at hb'
        subst hb'
        exact hdeed.sound halive (hg.units u b hb).2
      · rw [hleaves.others v hv] at hb'
        split at hb'
        · obtain ⟨c, hc, rfl⟩ := Option.map_eq_some_iff.1 hb'
          exact c.weathers_struck.sound (hg.units v c hc).2
        · exact (hg.units v b' hb').2
  · rw [herodes.holds]
    exact hg.solid p (herodes.solid p hp)
  · rw [herodes.holds]
    exact hg.resources p (herodes.resources p hp)

theorem ages_act (g : Grid) (u : UnitId) : Ages g (g.act u) := by
  intro v b hb
  by_cases hv : v = u
  · rcases act_eq_or_turned g u with hsame | ⟨c, hc, halive, b', e, hdeed, hleaves⟩
    · rw [hsame]
      exact ⟨b, hb, .refl b⟩
    · rw [hv, hc, Option.some.injEq] at hb
      subst hb
      exact ⟨b', hv ▸ hleaves.own, .of_alive hdeed.health halive⟩
  · obtain ⟨b', hb', hweathers⟩ := weathers_act hv hb
    exact ⟨b', hb', hweathers.ages⟩

theorem Sound.step (hg : g.Sound) : g.step.Sound :=
  step_induction (P := Sound) (fun _ u hm ↦ hm.act u) ⟨hg.workTicks, hg.units, hg.solid, hg.resources⟩

theorem ages_step (g : Grid) : Ages g g.step :=
  step_induction (P := Ages g) (fun m u hm ↦ hm.trans (ages_act m u)) (.of_units fun _ ↦ rfl)

end Turns

section Orders

theorem Sound.kill (hg : g.Sound) (u : UnitId) : (g.kill u).Sound := by
  refine hg.modifyUnit fun _ _ ↦ ⟨rfl, fun _ ↦ rfl, fun halive ↦ ?_, fun target n hact ↦ ?_⟩
  · cases halive
  · cases hact

theorem activityOf_ne_idle (g : Grid) (c : Command) : g.activityOf c ≠ .idle := by
  cases c <;> simp [activityOf]

theorem Sound.issue (hg : g.Sound) (u : UnitId) (c : Command) : (World.issue g u c).Sound := by
  refine hg.modifyUnit fun b hb ↦ ?_
  split
  · next halive =>
    refine ⟨rfl, Body.sound_of_busy halive (g.activityOf_ne_idle c) fun target n hact ↦ ?_⟩
    cases c with
    | work p =>
      cases hact
      exact ⟨hg.workTicks, Nat.le_refl _⟩
    | _ => cases hact
  · exact ⟨rfl, hb⟩

end Orders

section Furnishing

variable {p : Position} {r : Resource} {f : FactionId}

theorem fill_eq_ok :
    g.fill p = .ok g' ↔ g.holds p = true ∧ g' = { g with solid := g.solid.insert p } := by
  by_cases hp : g.holds p = true <;>
    simp [fill, requireCube, hp, bind, Except.bind, pure, Except.pure, eq_comm]

theorem deposit_eq_ok :
    g.deposit r p = .ok g' ↔ g.holds p = true ∧ g' = { g with resources := g.resources.insert p r } := by
  by_cases hp : g.holds p = true <;>
    simp [deposit, requireCube, hp, bind, Except.bind, pure, Except.pure, eq_comm]

theorem station_eq_ok :
    g.station u f p = .ok g' ↔ g.holds p = true ∧ g.units[u]? = none ∧
      g' = { g with units := g.units.insert u { faction := f, position := p } } := by
  have hcontains : g.units.contains u = false ↔ g.units[u]? = none := by
    rw [Std.TreeMap.contains_eq_isSome_getElem?, Option.isSome_eq_false_iff, Option.isNone_iff_eq_none]
  rw [← hcontains]
  by_cases hp : g.holds p = true
  · by_cases hu : g.units.contains u = true
    · simp [station, requireCube, hp, hu, bind, Except.bind, throw, throwThe, MonadExceptOf.throw]
    · simp [station, requireCube, hp, hu, bind, Except.bind, pure, Except.pure, eq_comm]
  · simp [station, requireCube, hp, bind, Except.bind]

theorem Sound.ofSettings (s : SandboxSettings) : (Grid.ofSettings s).Sound where
  workTicks := Nat.le_max_right _ _
  units v b hb := by simp [Grid.ofSettings] at hb
  solid p hp := by simp [Grid.ofSettings] at hp
  resources p hp := by simp [Grid.ofSettings] at hp

theorem Sound.fill (hg : g.Sound) (h : g.fill p = .ok g') : g'.Sound := by
  obtain ⟨hp, rfl⟩ := fill_eq_ok.1 h
  refine ⟨hg.workTicks, hg.units, fun q hq ↦ ?_, hg.resources⟩
  simp only [Std.TreeSet.contains_insert, Bool.or_eq_true, Std.LawfulEqOrd.compare_eq_iff_eq,
    beq_iff_eq] at hq
  rcases hq with rfl | hq
  · exact hp
  · exact hg.solid q hq

theorem Sound.deposit (hg : g.Sound) (h : g.deposit r p = .ok g') : g'.Sound := by
  obtain ⟨hp, rfl⟩ := deposit_eq_ok.1 h
  refine ⟨hg.workTicks, hg.units, hg.solid, fun q hq ↦ ?_⟩
  simp only [Std.TreeMap.contains_insert, Bool.or_eq_true, Std.LawfulEqOrd.compare_eq_iff_eq,
    beq_iff_eq] at hq
  rcases hq with rfl | hq
  · exact hp
  · exact hg.resources q hq

theorem units_insert (units : Std.TreeMap UnitId Body) (u v : UnitId) (b : Body) :
    (units.insert u b)[v]? = if v = u then some b else units[v]? := by
  rw [Std.TreeMap.getElem?_insert]
  simp only [Std.LawfulEqOrd.compare_eq_iff_eq, eq_comm (a := u)]

theorem Sound.welcome (hg : g.Sound) {units : Std.TreeMap UnitId Body}
    (hunits : ∀ v : UnitId, units[v]? = if v = u then some b else g.units[v]?)
    (hin : g.holds b.position = true) (hact : b.activity = .idle) (hstuck : b.stuck = false) :
    { g with units }.Sound := by
  refine ⟨hg.workTicks, fun v c hc ↦ ?_, hg.solid, hg.resources⟩
  have hc : units[v]? = some c := hc
  rw [hunits] at hc
  split at hc
  · cases hc
    exact ⟨hin, Body.sound_of_idle hact hstuck⟩
  · exact hg.units v c hc

theorem Sound.station (hg : g.Sound) (h : g.station u f p = .ok g') : g'.Sound := by
  obtain ⟨hp, -, rfl⟩ := station_eq_ok.1 h
  exact hg.welcome (fun v ↦ units_insert g.units u v _) hp rfl rfl

theorem Sound.recruit (hg : g.Sound) {r : Recruit} (h : g.recruit r = .ok g') : g'.Sound := by
  cases hs : g.station r.id r.faction r.position with
  | error e => simp [Grid.recruit, hs, bind, Except.bind] at h
  | ok g₁ =>
    simp only [Grid.recruit, hs, bind, Except.bind, pure, Except.pure, Except.ok.injEq] at h
    obtain ⟨hp, -, rfl⟩ := station_eq_ok.1 hs
    subst h
    refine hg.welcome (fun v ↦ ?_) (u := r.id)
      (b := { faction := r.faction, position := r.position, carried := r.carries,
              health := r.health.toNat }) hp rfl rfl
    have hunits := units_modifyUnit
      { g with units := g.units.insert r.id { faction := r.faction, position := r.position } }
      r.id v ({ · with carried := r.carries, health := r.health.toNat })
    rw [units_insert, units_insert, if_pos rfl, Option.map_some] at hunits
    exact hunits.trans (by split <;> rfl)

theorem ofScenario_induction {P : Grid → Prop} (hfill : ∀ g p g', P g → g.fill p = .ok g' → P g')
    (hdeposit : ∀ g r p g', P g → g.deposit r p = .ok g' → P g')
    (hrecruit : ∀ g r g', P g → g.recruit r = .ok g' → P g') {s : Scenario}
    {settings : SandboxSettings} (hnew : P (.ofSettings settings))
    (h : Grid.ofScenario s settings = .ok g) : P g := by
  rw [Grid.ofScenario] at h
  cases hsolid : s.solid.foldlM Grid.fill (.ofSettings settings) with
  | error e => simp [hsolid, bind, Except.bind] at h
  | ok g₁ =>
    cases hres : s.resources.foldlM (fun g r ↦ g.deposit r.kind r.position) g₁ with
    | error e => simp [hsolid, hres, bind, Except.bind] at h
    | ok g₂ =>
      simp only [hsolid, hres, bind, Except.bind] at h
      have h₁ : P g₁ := foldlM_induction hfill hnew hsolid
      have h₂ : P g₂ :=
        foldlM_induction (fun _ _ _ hg hr ↦ hdeposit _ _ _ _ hg hr) h₁ hres
      exact foldlM_induction hrecruit h₂ h

theorem Sound.ofScenario {s : Scenario} {settings : SandboxSettings}
    (h : Grid.ofScenario s settings = .ok g) : g.Sound :=
  ofScenario_induction (P := Sound) (fun _ _ _ hg h ↦ hg.fill h) (fun _ _ _ _ hg h ↦ hg.deposit h)
    (fun _ _ _ hg h ↦ hg.recruit h) (.ofSettings settings) h

end Furnishing

/-- The grids that can be made and come about. -/
inductive Reached : Grid → Prop
  | ofSettings (s : SandboxSettings) : Reached (.ofSettings s)
  | ofScenario {s : Scenario} {settings : SandboxSettings} {g : Grid} :
      Grid.ofScenario s settings = .ok g → Reached g
  | fill {g g' : Grid} {p : Position} : Reached g → g.fill p = .ok g' → Reached g'
  | deposit {g g' : Grid} {r : Resource} {p : Position} : Reached g → g.deposit r p = .ok g' →
      Reached g'
  | station {g g' : Grid} {u : UnitId} {f : FactionId} {p : Position} : Reached g →
      g.station u f p = .ok g' → Reached g'
  | kill {g : Grid} (u : UnitId) : Reached g → Reached (g.kill u)
  | step {g : Grid} : Reached g → Reached g.step
  | issue {g : Grid} (u : UnitId) (c : Command) : Reached g → Reached (World.issue g u c)

theorem Reached.sound (h : Reached g) : g.Sound := by
  induction h with
  | ofSettings s => exact .ofSettings s
  | ofScenario h => exact .ofScenario h
  | fill _ h ih => exact ih.fill h
  | deposit _ h ih => exact ih.deposit h
  | station _ h ih => exact ih.station h
  | kill u _ ih => exact ih.kill u
  | step _ ih => exact ih.step
  | issue u c _ ih => exact ih.issue u c

end Grid

inductive Call where
  | fill (p : Position)
  | deposit (r : Resource) (p : Position)
  | station (u : UnitId) (f : FactionId) (p : Position)
  | kill (u : UnitId)
  | step
  | issue (u : UnitId) (c : Command)
  deriving DecidableEq

namespace Grid

variable {g g' : Grid} {u : UnitId} {b : Body}

def attempt (g : Grid) : Call → Except GridError Grid
  | .fill p => g.fill p
  | .deposit r p => g.deposit r p
  | .station u f p => g.station u f p
  | .kill u => .ok (g.kill u)
  | .step => .ok g.step
  | .issue u c => .ok (World.issue g u c)

/-- The grid after a call. One that fails leaves it as it is. -/
def obey (g : Grid) (c : Call) : Grid :=
  match g.attempt c with
  | .error _ => g
  | .ok g' => g'

def run (g : Grid) (calls : List Call) : Grid := calls.foldl obey g

theorem run_append (g : Grid) (calls more : List Call) :
    g.run (calls ++ more) = (g.run calls).run more := List.foldl_append

theorem obey_induction {P : Grid → Prop} {c : Call} (hg : P g)
    (h : ∀ g', g.attempt c = .ok g' → P g') : P (g.obey c) := by
  rw [obey]
  split
  · exact hg
  · next g' hg' => exact h g' hg'

theorem units_obey {c : Call} (hstep : c ≠ .step) (v : UnitId) :
    (g.obey c).units[v]? = g.units[v]? ∨
      (∃ f p, g.units[v]? = none ∧ (g.obey c).units[v]? = some { faction := f, position := p }) ∨
      (c = .kill v ∧
        (g.obey c).units[v]? = g.units[v]?.map ({ · with health := 0, activity := .idle })) ∨
      ∃ k, c = .issue v k ∧ (g.obey c).units[v]? = g.units[v]?.map fun b ↦
        if b.alive then { b with activity := g.activityOf k, stuck := false } else b := by
  have hmodify : ∀ (u : UnitId) (f : Body → Body),
      v ≠ u ∧ (g.modifyUnit u f).units[v]? = g.units[v]? ∨
        u = v ∧ (g.modifyUnit u f).units[v]? = g.units[v]?.map f := by
    intro u f
    rw [units_modifyUnit]
    by_cases hv : v = u
    · exact .inr ⟨hv.symm, by rw [if_pos hv, hv]⟩
    · exact .inl ⟨hv, if_neg hv⟩
  rw [obey]
  split
  · exact .inl rfl
  · next g' hg' =>
    cases c with
    | fill p =>
      obtain ⟨-, rfl⟩ := fill_eq_ok.1 hg'
      exact .inl rfl
    | deposit r p =>
      obtain ⟨-, rfl⟩ := deposit_eq_ok.1 hg'
      exact .inl rfl
    | station u f p =>
      obtain ⟨-, hnew, rfl⟩ := station_eq_ok.1 hg'
      have hunits := units_insert g.units u v { faction := f, position := p }
      by_cases hv : v = u
      · rw [if_pos hv] at hunits
        exact .inr (.inl ⟨f, p, hv ▸ hnew, hunits⟩)
      · rw [if_neg hv] at hunits
        exact .inl hunits
    | kill u =>
      cases hg'
      rcases hmodify u ({ · with health := 0, activity := .idle }) with ⟨-, hsame⟩ | ⟨rfl, hkilled⟩
      · exact .inl hsame
      · exact .inr (.inr (.inl ⟨rfl, hkilled⟩))
    | step => exact absurd rfl hstep
    | issue u k =>
      cases hg'
      rcases hmodify u fun b ↦
        if b.alive then { b with activity := g.activityOf k, stuck := false } else b with
        ⟨-, hsame⟩ | ⟨rfl, hengaged⟩
      · exact .inl hsame
      · exact .inr (.inr (.inr ⟨k, rfl, hengaged⟩))

theorem ages_obey (g : Grid) (c : Call) : Ages g (g.obey c) := by
  by_cases hstep : c = .step
  · rw [hstep]
    exact ages_step g
  · intro v b hb
    rcases units_obey hstep v with hsame | ⟨f, p, hnew, -⟩ | ⟨-, hkilled⟩ | ⟨k, -, hengaged⟩
    · exact ⟨b, hsame.trans hb, .refl b⟩
    · rw [hnew] at hb
      cases hb
    · rw [hb, Option.map_some] at hkilled
      exact ⟨_, hkilled, Nat.zero_le _, fun _ ↦ ⟨rfl, rfl⟩⟩
    · rw [hb, Option.map_some] at hengaged
      refine ⟨_, hengaged, ?_⟩
      split
      · next halive => exact .of_alive (Nat.le_refl _) halive
      · exact .refl b

theorem ages_run (g : Grid) (calls : List Call) : Ages g (g.run calls) := by
  induction calls generalizing g with
  | nil => exact .refl g
  | cons c calls ih => exact (ages_obey g c).trans (ih (g.obey c))

theorem Reached.obey (hg : g.Reached) (c : Call) : (g.obey c).Reached := by
  refine obey_induction hg fun g' hg' ↦ ?_
  cases c with
  | fill p => exact hg.fill hg'
  | deposit r p => exact hg.deposit hg'
  | station u f p => exact hg.station hg'
  | kill u =>
    cases hg'
    exact hg.kill u
  | step =>
    cases hg'
    exact hg.step
  | issue u c =>
    cases hg'
    exact hg.issue u c

theorem Reached.run (hg : g.Reached) (calls : List Call) : (g.run calls).Reached := by
  induction calls generalizing g with
  | nil => exact hg
  | cons c calls ih => exact ih (hg.obey c)

theorem terminated_eq (hb : g.units[u]? = some b) : World.terminated g u = !b.alive := by
  change (!g.units[u]?.any (·.alive)) = _
  rw [hb, Option.any_some]

theorem exists_of_not_terminated (h : World.terminated g u = false) :
    ∃ b, g.units[u]? = some b ∧ b.alive = true := by
  have h : (!g.units[u]?.any (·.alive)) = false := h
  rw [Bool.not_eq_false', Option.any_eq_true_iff_get] at h
  obtain ⟨hsome, halive⟩ := h
  exact ⟨_, Option.eq_some_of_isSome hsome, halive⟩

theorem busy_eq (hb : g.units[u]? = some b) :
    World.busy g u = (b.alive && decide (b.activity ≠ .idle)) := by
  change (g.units[u]?.any fun b ↦ b.alive && b.activity ≠ .idle) = _
  rw [hb, Option.any_some]

theorem helpless_eq (hb : g.units[u]? = some b) : World.helpless g u = (!b.alive || b.stuck) := by
  change (g.units[u]?.all fun b ↦ !b.alive || b.stuck) = _
  rw [hb, Option.all_some]

theorem Sound.busy_of_helpless (hg : g.Sound) (hlive : World.terminated g u = false)
    (hstuck : World.helpless g u = true) : World.busy g u = true := by
  obtain ⟨b, hb, halive⟩ := exists_of_not_terminated hlive
  rw [helpless_eq hb, halive, Bool.not_true, Bool.false_or] at hstuck
  rw [busy_eq hb, halive, Bool.true_and, decide_eq_true_eq]
  exact (hg.units u b hb).2.stuck halive hstuck

/-- Any calls, failing ones too, leave a grid sound, so a living unit that cannot act is busy. And
whatever is called, no unit gains health, and a dead one stays dead, where and as it is. -/
theorem Reached.run_sound (hg : g.Reached) (calls : List Call) :
    (g.run calls).Sound ∧
      (∀ u, World.terminated (g.run calls) u = false → World.helpless (g.run calls) u = true →
        World.busy (g.run calls) u = true) ∧
      ∀ (u : UnitId) (b : Body), g.units[u]? = some b →
        ∃ b', (g.run calls).units[u]? = some b' ∧ b'.health ≤ b.health ∧
          (b.alive = false → b'.alive = false ∧ World.busy (g.run calls) u = false ∧
            b'.position = b.position ∧ b'.carried = b.carried) := by
  have hsound := (hg.run calls).sound
  refine ⟨hsound, fun u ↦ hsound.busy_of_helpless, fun u b hb ↦ ?_⟩
  obtain ⟨b', hb', hages⟩ := ages_run g calls u b hb
  refine ⟨b', hb', hages.health, fun hdead ↦ ?_⟩
  have hdead' := Body.dead_of_health_le hages.health hdead
  refine ⟨hdead', ?_, hages.dead hdead⟩
  rw [busy_eq hb', hdead', Bool.false_and]

def brawl : Grid :=
  (ofSettings {}).run
    [.station ⟨1⟩ ⟨0⟩ ⟨0, 0, 0⟩, .station ⟨2⟩ ⟨1⟩ ⟨1, 0, 0⟩, .station ⟨2⟩ ⟨1⟩ ⟨3, 3, 0⟩,
      .issue ⟨1⟩ (.attack ⟨2⟩), .step, .step, .step]

/-- The dead unit is told to work, and the other one attacks itself and tries to leave the grid. -/
theorem run_sound_brawl :
    let calls : List Call := [.issue ⟨2⟩ (.work ⟨0, 0, 0⟩), .issue ⟨1⟩ (.attack ⟨1⟩), .step,
      .issue ⟨1⟩ (.moveTo ⟨-1, 0, 0⟩), .step]
    brawl.Reached ∧ (brawl.run calls).Sound ∧ World.busy (brawl.run calls) ⟨1⟩ = true ∧
      ∃ b, (brawl.run calls).units[(⟨2⟩ : UnitId)]? = some b ∧ b.alive = false ∧
        World.busy (brawl.run calls) ⟨2⟩ = false ∧ b.position = ⟨1, 0, 0⟩ ∧ b.carried = none := by
  intro calls
  have hbrawl : brawl.Reached := (Reached.ofSettings {}).run _
  obtain ⟨hsound, hbusy, haged⟩ := hbrawl.run_sound calls
  obtain ⟨b, hb, -, hdead⟩ := haged ⟨2⟩
    { faction := ⟨1⟩, position := ⟨1, 0, 0⟩, health := 0 } (by decide +kernel)
  exact ⟨hbrawl, hsound, hbusy ⟨1⟩ (by decide +kernel) (by decide +kernel), b, hb, hdead rfl⟩

end Grid

end Errand
