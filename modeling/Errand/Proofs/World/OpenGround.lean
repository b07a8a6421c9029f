import Errand.Proofs.World.Journey
import Mathlib.Logic.Function.Iterate

namespace Errand

namespace Position

variable {s t : Position}

/-- Where the straight way from `s` to `t` has led after `n` steps. -/
def along (s t : Position) (n : Nat) : Position := (fun p : Position ↦ p.towards t)^[n] s

theorem along_succ (s t : Position) (n : Nat) : s.along t (n + 1) = (s.along t n).towards t :=
  Function.iterate_succ_apply' _ _ _

theorem chebyshev_along (s t : Position) (n : Nat) :
    (s.along t n).chebyshev t = s.chebyshev t - n := by
  induction n with
  | zero => rfl
  | succ n ih =>
    rw [along_succ, chebyshev_towards, ih]
    omega

theorem along_eq_iff {n : Nat} : s.along t n = t ↔ s.chebyshev t ≤ n := by
  rw [← chebyshev_eq_zero, chebyshev_along]
  omega

theorem distanceSq_along_lt (h : s.distanceSq t < maxDistanceSq) (n : Nat) :
    (s.along t n).distanceSq t < maxDistanceSq := by
  induction n with
  | zero => exact h
  | succ n ih =>
    rw [along_succ]
    by_cases hat : s.along t n = t
    · rw [hat, towards_self]
      rwa [hat] at ih
    · have hcloser := exactDistanceSq_towards_lt_self hat
      simp only [distanceSq] at ih ⊢
      omega

theorem adjacent_or_eq_iff {p q : Position} :
    (decide (p = q) || p.adjacent q) = true ↔ p.chebyshev q ≤ 1 := by
  rw [Bool.or_eq_true, decide_eq_true_eq, adjacent_iff, chebyshev]
  constructor
  · rintro (rfl | ⟨-, hx, hy, hz⟩)
    · simp [gap_self]
    · omega
  · intro h
    by_cases hpq : p = q
    · exact .inl hpq
    · exact .inr ⟨hpq, by omega, by omega, by omega⟩

theorem toInt_approach_eq_add_sign (a b : Int32) :
    (approach a b).toInt = a.toInt + (b.toInt - a.toInt).sign := by
  rw [toInt_approach]
  split
  · rw [Int.sign_eq_one_of_pos (by omega)]
  · split
    · rw [Int.sign_eq_neg_one_of_neg (by omega)]
      omega
    · have heq : b.toInt - a.toInt = 0 := by omega
      rw [heq, Int.sign_zero, Int.add_zero]

end Position

namespace Body

variable {s t : Position} {b b' : Body} {n w : Nat}

theorem reaches_iff {goal : Position} : b.reaches goal = true ↔ b.position.chebyshev goal ≤ 1 :=
  Position.adjacent_or_eq_iff

/-- The unit was told to move from `s` to `t` and `n` steps have passed. -/
structure MovesFor (s t : Position) (n : Nat) (b : Body) : Prop where
  position : b.position = s.along t n
  activity : b.activity = if n < max 1 (s.chebyshev t) then .moving t else .idle

/-- The unit was told to work on `t`, for `w` ticks, when it stood at `s`, and `n` steps have
passed. -/
structure WorksFor (s t : Position) (w n : Nat) (b : Body) : Prop where
  position : b.position = s.along t (min n (s.chebyshev t - 1))
  activity : b.activity = if n < s.chebyshev t - 1 + w then
    .working t (w - (n - (s.chebyshev t - 1))) else .idle

theorem MovesFor.of_alike (h : MovesFor s t n b) (hb : b.Alike b') : MovesFor s t n b' :=
  ⟨hb.position.trans h.position, hb.activity.trans h.activity⟩

theorem WorksFor.of_alike (h : WorksFor s t w n b) (hb : b.Alike b') : WorksFor s t w n b' :=
  ⟨hb.position.trans h.position, hb.activity.trans h.activity⟩

theorem WorksFor.reaches_iff (h : WorksFor s t w n b) : b.reaches t = true ↔ s.chebyshev t - 1 ≤ n := by
  rw [Body.reaches_iff, h.position, Position.chebyshev_along]
  omega

theorem WorksFor.completes?_eq (h : WorksFor s t w n b) (hw : 1 ≤ w) :
    b.completes? = if n + 1 = s.chebyshev t - 1 + w then some t else none := by
  have hreach := h.reaches_iff
  by_cases hn : n < s.chebyshev t - 1 + w
  · have hact : b.activity = .working t (w - (n - (s.chebyshev t - 1))) := by
      rw [h.activity, if_pos hn]
    simp only [completes?, hact, Bool.and_eq_true, hreach, decide_eq_true_eq]
    by_cases hlast : n + 1 = s.chebyshev t - 1 + w
    · rw [if_pos hlast, if_pos (by omega)]
    · rw [if_neg hlast, if_neg (by omega)]
  · have hact : b.activity = .idle := by rw [h.activity, if_neg hn]
    rw [completes?, hact, if_neg (by omega)]

end Body

namespace Grid

variable {g : Grid} {u : UnitId} {b b' : Body} {e : Effect} {s t : Position} {n w : Nat}

theorem holds_along (hs : g.holds s = true) (ht : g.holds t = true) (n : Nat) :
    g.holds (s.along t n) = true := by
  induction n with
  | zero => exact hs
  | succ n ih =>
    rw [Position.along_succ]
    exact holds_towards ih ht

/-- A grid without solid cubes that holds `s` and `t`, which are not too far apart. -/
structure Clear (g : Grid) (s t : Position) : Prop where
  bare : ∀ p, g.solid.contains p = false
  start : g.holds s = true
  goal : g.holds t = true
  short : s.distanceSq t < Position.maxDistanceSq

theorem Clear.nextCube?_along (h : g.Clear s t) (haway : s.along t n ≠ t) :
    g.nextCube? (s.along t n) t = some (s.along t (n + 1)) := by
  rw [Position.along_succ]
  exact nextCube?_of_bare h.bare (holds_along h.start h.goal n) h.goal haway
    (Position.distanceSq_along_lt h.short n)

theorem Deed.movesFor (hdeed : g.Deed u b b' e) (hclear : g.Clear s t) (h : b.MovesFor s t n) :
    b'.MovesFor s t (n + 1) := by
  by_cases hn : n < max 1 (s.chebyshev t)
  · have hact : b.activity = .moving t := by rw [h.activity, if_pos hn]
    rcases hdeed.of_moving hact with ⟨hat, rfl⟩ | ⟨haway, ⟨p, hnext, rfl⟩ | ⟨hnext, -⟩⟩
    · rw [h.position, Position.along_eq_iff] at hat
      refine ⟨?_, (if_neg (by omega)).symm⟩
      change b.position = _
      rw [h.position, Position.along_eq_iff.2 hat, Position.along_eq_iff.2 (by omega)]
    · rw [h.position] at haway hnext
      rw [hclear.nextCube?_along haway, Option.some.injEq] at hnext
      subst hnext
      rw [Ne, Position.along_eq_iff] at haway
      by_cases hp : s.along t (n + 1) = t
      · rw [if_pos hp]
        rw [Position.along_eq_iff] at hp
        exact ⟨rfl, (if_neg (by omega)).symm⟩
      · rw [if_neg hp]
        rw [Position.along_eq_iff] at hp
        exact ⟨rfl, hact.trans (if_pos (by omega)).symm⟩
    · rw [h.position] at haway hnext
      rw [hclear.nextCube?_along haway] at hnext
      cases hnext
  · have hact : b.activity = .idle := by rw [h.activity, if_neg hn]
    rw [hdeed.of_idle hact]
    refine ⟨?_, hact.trans (if_neg (by omega)).symm⟩
    rw [h.position, Position.along_eq_iff.2 (by omega), Position.along_eq_iff.2 (by omega)]

theorem Deed.of_working (h : g.Deed u b b' e) (hact : b.activity = .working t n) :
    b.reaches t = false ∧
        ((∃ p, g.nextCube? b.position t = some p ∧ b' = { b with position := p, stuck := false }) ∨
          g.nextCube? b.position t = none) ∨
      b.reaches t = true ∧ b'.position = b.position ∧
        b'.activity = if 1 < n then .working t (n - 1) else .idle := by
  have hgoal : ∀ goal, g.goal? b.activity = some goal ↔ t = goal := by simp [hact, goal?]
  have harrived : ∀ goal, b.arrived goal = b.reaches goal := by simp [Body.arrived, hact]
  have hdone : ∀ p, b.completes? = some p → b.reaches t = true ∧ ¬ 1 < n := by
    intro p hp
    simp only [Body.completes?, hact, Option.ite_none_right_eq_some, Bool.and_eq_true,
      decide_eq_true_eq] at hp
    exact ⟨hp.1.1, by omega⟩
  cases h with
  | idle hidle => rw [hact] at hidle; cases hidle
  | rest _ hnowork => exact absurd hact (hnowork t n)
  | @advance goal p hg haway hnext =>
    obtain rfl := (hgoal goal).1 hg
    exact .inl ⟨(harrived t).symm.trans haway, .inl ⟨p, hnext, rfl⟩⟩
  | arrive hmoving => rw [hact] at hmoving; cases hmoving
  | @block goal hg haway hnext =>
    obtain rfl := (hgoal goal).1 hg
    exact .inl ⟨(harrived t).symm.trans haway, .inr hnext⟩
  | toil hworking hreach hn =>
    rw [hact, Activity.working.injEq] at hworking
    obtain ⟨rfl, rfl⟩ := hworking
    exact .inr ⟨hreach, rfl, (if_pos hn).symm⟩
  | finish hend => exact .inr ⟨(hdone _ hend).1, rfl, (if_neg (hdone _ hend).2).symm⟩
  | hit hattack => rw [hact] at hattack; cases hattack
  | fell hattack => rw [hact] at hattack; cases hattack

theorem Deed.worksFor (hdeed : g.Deed u b b' e) (hclear : g.Clear s t) (hw : 1 ≤ w)
    (h : b.WorksFor s t w n) : b'.WorksFor s t w (n + 1) := by
  have hreach := h.reaches_iff
  by_cases hn : n < s.chebyshev t - 1 + w
  · have hact : b.activity = .working t (w - (n - (s.chebyshev t - 1))) := by
      rw [h.activity, if_pos hn]
    rcases hdeed.of_working hact with ⟨hfar, hmoved⟩ | ⟨hnear, hposition, hact'⟩
    · rw [← Bool.not_eq_true, hreach] at hfar
      have hnext : g.nextCube? b.position t = some (s.along t (n + 1)) := by
        rw [h.position, Nat.min_eq_left (by omega)]
        exact hclear.nextCube?_along fun hat ↦ by rw [Position.along_eq_iff] at hat; omega
      rw [hnext] at hmoved
      rcases hmoved with ⟨p, hp, rfl⟩ | hnone
      · cases hp
        refine ⟨?_, ?_⟩
        · rw [Nat.min_eq_left (by omega)]
        · rw [hact, if_pos (by omega)]
          congr 1
          omega
      · cases hnone
    · rw [hreach] at hnear
      refine ⟨?_, ?_⟩
      · rw [hposition, h.position, Nat.min_eq_right hnear, Nat.min_eq_right (by omega)]
      · rw [hact']
        by_cases hlast : 1 < w - (n - (s.chebyshev t - 1))
        · rw [if_pos hlast, if_pos (by omega)]
          congr 1
          omega
        · rw [if_neg hlast, if_neg (by omega)]
  · have hact : b.activity = .idle := by rw [h.activity, if_neg hn]
    rw [hdeed.of_idle hact]
    refine ⟨?_, hact.trans (if_neg (by omega)).symm⟩
    rw [h.position, Nat.min_eq_right (by omega), Nat.min_eq_right (by omega)]

/-- No unit is about to attack `u`. -/
def Unattacked (g : Grid) (u : UnitId) : Prop :=
  ∀ (v : UnitId) (c : Body), g.units[v]? = some c → c.activity ≠ .attacking u

structure Spares (u : UnitId) (g g' : Grid) : Prop where
  unattacked : g'.Unattacked u
  health : g'.units[u]?.map (·.health) = g.units[u]?.map (·.health)

variable {g' g'' : Grid} {v : UnitId} {calls : List Call} {c : Call}

theorem Spares.refl (h : g.Unattacked u) : Spares u g g := ⟨h, rfl⟩

theorem Spares.trans (h : Spares u g g') (h' : Spares u g' g'') : Spares u g g'' :=
  ⟨h'.unattacked, h'.health.trans h.health⟩

theorem Deed.activity_ne (hdeed : g.Deed v b b' e) (h : b.activity ≠ .attacking u) :
    b'.activity ≠ .attacking u := by
  have hblow : ∀ w : UnitId, (if w = v then b.struck else b).activity ≠ .attacking u := by
    intro w
    split
    · rcases b.weathers_struck.fate with ⟨-, hact⟩ | ⟨-, hact⟩
      · rw [hact]
        exact h
      · simp [hact]
    · exact h
  cases hdeed with
  | hit => exact hblow _
  | idle => exact h
  | advance => exact h
  | block => exact h
  | _ => simp [Body.resting]

theorem Deed.health_eq (hdeed : g.Deed u b b' e) (h : b.activity ≠ .attacking u) :
    b'.health = b.health := by
  have hmiss : ∀ w, b.activity = .attacking w → ¬ w = u := fun w hact hw ↦ h (by rw [hact, hw])
  cases hdeed with
  | hit hact => rw [if_neg (hmiss _ hact)]
  | fell hact => rw [if_neg (hmiss _ hact)]; rfl
  | _ => rfl

theorem Deed.spares_target (hdeed : g.Deed v b b' e) (h : b.activity ≠ .attacking u) :
    e ≠ .strikes u := by
  cases hdeed with
  | hit hact => exact fun he ↦ h (by rw [hact, Effect.strikes.inj he])
  | fell hact => exact fun he ↦ h (by rw [hact, Effect.strikes.inj he])
  | finish _ hfinish => cases hfinish <;> simp
  | _ => simp

theorem Unattacked.act (h : g.Unattacked u) (v : UnitId) : Spares u g (g.act v) := by
  rcases act_eq_or_turned g v with hsame | ⟨b, hb, -, b', e, hdeed, hleaves⟩
  · rw [hsame]
    exact .refl h
  · have hact := h v b hb
    refine ⟨fun w c hc ↦ ?_, ?_⟩
    · by_cases hw : w = v
      · rw [hw, hleaves.own, Option.some.injEq] at hc
        subst hc
        exact hdeed.activity_ne hact
      · obtain ⟨d, hd, hweathers⟩ := weathered_of_act hw hc
        rcases hweathers.fate with ⟨-, hsame⟩ | ⟨-, hidle⟩
        · rw [hsame]
          exact h w d hd
        · simp [hidle]
    · by_cases hu : u = v
      · subst hu
        rw [hleaves.own, hb, Option.map_some, Option.map_some, hdeed.health_eq hact]
      · rw [hleaves.others u hu, if_neg (hdeed.spares_target hact)]

theorem Unattacked.step (h : g.Unattacked u) : Spares u g g.step :=
  step_induction (P := Spares u g) (fun _ v hm ↦ hm.trans (hm.unattacked.act v)) ⟨h, rfl⟩

theorem Unattacked.obey (h : g.Unattacked u) (hb : g.units[u]? = some b) (hkill : c ≠ .kill u)
    (hissue : ∀ k, c ≠ .issue u k) (hattack : ∀ v, c ≠ .issue v (.attack u)) :
    Spares u g (g.obey c) := by
  by_cases hstep : c = .step
  · subst hstep
    exact h.step
  · refine ⟨fun v d hd ↦ ?_, ?_⟩
    · rcases units_obey hstep v with hsame | ⟨f, p, -, hnew⟩ | ⟨-, hkilled⟩ | ⟨k, hk, hengaged⟩
      · exact h v d (hsame.symm.trans hd)
      · rw [hnew] at hd
        cases hd
        simp
      · rw [hkilled] at hd
        obtain ⟨d, -, rfl⟩ := Option.map_eq_some_iff.1 hd
        simp
      · rw [hengaged] at hd
        obtain ⟨d', hd', rfl⟩ := Option.map_eq_some_iff.1 hd
        split
        · cases k with
          | attack w =>
            have hw : w ≠ u := fun hw ↦ hattack v (by rw [hk, hw])
            simpa [activityOf] using hw
          | _ => simp [activityOf]
        · exact h v d' hd'
    · rcases units_obey hstep u with hsame | ⟨f, p, hnew, -⟩ | ⟨hk, -⟩ | ⟨k, hk, -⟩
      · rw [hsame]
      · rw [hnew] at hb
        cases hb
      · exact absurd hk hkill
      · exact absurd hk (hissue k)

/-- Nobody touches the solid cubes while the calls are obeyed, and nobody commands, attacks or kills
unit `u`. -/
structure LeftAlone (g : Grid) (u : UnitId) (calls : List Call) : Prop where
  solid : ∀ before after, calls = before ++ after →
    ∀ p, (g.run before).solid.contains p = g.solid.contains p
  commands : ∀ c, Call.issue u c ∉ calls
  attacks : ∀ v, Call.issue v (.attack u) ∉ calls
  kill : Call.kill u ∉ calls
  attackers : g.Unattacked u

theorem Unattacked.run (h : g.Unattacked u) (hb : g.units[u]? = some b)
    (hcommands : ∀ c, Call.issue u c ∉ calls) (hattacks : ∀ v, Call.issue v (.attack u) ∉ calls)
    (hkill : Call.kill u ∉ calls) : Spares u g (g.run calls) := by
  induction calls generalizing g b with
  | nil => exact .refl h
  | cons c calls ih =>
    have hfirst : Spares u g (g.obey c) := h.obey hb (fun hc ↦ hkill (hc ▸ List.mem_cons_self))
      (fun k hc ↦ hcommands k (hc ▸ List.mem_cons_self))
      (fun v hc ↦ hattacks v (hc ▸ List.mem_cons_self))
    obtain ⟨b', hb', -⟩ := ages_obey g c u b hb
    exact hfirst.trans (ih hfirst.unattacked hb' (fun k hk ↦ hcommands k (List.mem_cons_of_mem c hk))
      (fun v hv ↦ hattacks v (List.mem_cons_of_mem c hv)) fun hk ↦ hkill (List.mem_cons_of_mem c hk))

theorem LeftAlone.undisturbed (h : g.LeftAlone u calls) (hb : g.units[u]? = some b)
    (halive : b.alive = true) : g.Undisturbed u calls := by
  refine ⟨h.solid, h.commands, ?_⟩
  obtain ⟨b', hb', -⟩ := ages_run g calls u b hb
  have hhealth := (h.attackers.run hb h.commands h.attacks h.kill).health
  rw [hb, hb', Option.map_some, Option.map_some, Option.some.injEq] at hhealth
  rw [terminated_eq hb', Bool.not_eq_false', Body.alive_iff, hhealth]
  exact Body.alive_iff.1 halive

theorem Clear.of_sameGround (h : g.Clear s t) (hground : SameGround g g') : g'.Clear s t :=
  ⟨fun p ↦ (hground.solid p).trans (h.bare p), (hground.holds s).trans h.start,
    (hground.holds t).trans h.goal, h.short⟩

theorem Undisturbed.movesFor (hcalls : g.Undisturbed u calls) (hclear : g.Clear s t)
    (hb : g.units[u]? = some b) (h : b.MovesFor s t n) :
    ∃ b', (g.run calls).units[u]? = some b' ∧ b'.MovesFor s t (n + calls.count .step) :=
  hcalls.induction (P := Body.MovesFor s t) (fun _ _ _ hb h ↦ h.of_alike hb)
    (fun _ _ _ _ _ hm hdeed h ↦ hdeed.movesFor (hclear.of_sameGround hm) h) hb h

theorem Undisturbed.worksFor (hcalls : g.Undisturbed u calls) (hclear : g.Clear s t) (hw : 1 ≤ w)
    (hb : g.units[u]? = some b) (h : b.WorksFor s t w n) :
    ∃ b', (g.run calls).units[u]? = some b' ∧ b'.WorksFor s t w (n + calls.count .step) :=
  hcalls.induction (P := Body.WorksFor s t w) (fun _ _ _ hb h ↦ h.of_alike hb)
    (fun _ _ _ _ _ hm hdeed h ↦ hdeed.worksFor (hclear.of_sameGround hm) hw h) hb h

theorem ends_work_of_worksFor {m : Grid} (h : b.WorksFor s t w n) (hw : 1 ≤ w)
    (hb : g.units[u]? = some b) (hlive : World.terminated g.step u = false)
    (hm : (m, u) ∈ g.moments) :
    if n + 1 = s.chebyshev t - 1 + w then m.act u = (m.endWork u t).rest u
      else m.WithoutEffect u := by
  obtain ⟨c, c', b', hsurvives⟩ := survives_of_mem hm hb hlive
  have hdone := (h.of_alike hsurvives.before).completes?_eq hw
  split
  · next hlast =>
    rw [if_pos hlast] at hdone
    exact act_of_completes hsurvives.found hsurvives.alive hdone
  · next hlast =>
    rw [if_neg hlast] at hdone
    exact act_of_not_completes hsurvives.found hsurvives.alive hdone

/-- In a grid without solid cubes a living unit is sent to a cube of the grid, or told to work on it,
and then left alone. It takes the straight way. It is busy until it is there, for one step at least,
or until it has come to the cubes around the goal and worked as long as work takes; then it is idle.
Its work has its effect in the last of these steps, and its turns have none in any other. The
straight way stays within the coordinates and is as long as the Chebyshev distance. -/
theorem open_ground_timing {g : Grid} (hg : g.Reached) (hbare : g.solid.isEmpty = true) {u : UnitId}
    {b : Body} (hb : g.units[u]? = some b) (halive : b.alive = true) {t : Position}
    (ht : g.holds t = true) (hshort : b.position.distanceSq t < Position.maxDistanceSq)
    (calls : List Call) :
    (let g' := World.issue g u (.moveTo t);
      g'.LeftAlone u calls →
        World.terminated (g'.run calls) u = false ∧
        World.position? (g'.run calls) u = some (b.position.along t (calls.count .step)) ∧
        World.busy (g'.run calls) u =
          decide (calls.count .step < max 1 (b.position.chebyshev t)) ∧
        (max 1 (b.position.chebyshev t) ≤ calls.count .step →
          World.position? (g'.run calls) u = some t)) ∧
    (let g' := World.issue g u (.work t);
      g'.LeftAlone u calls →
        1 ≤ g.workTicks ∧ World.terminated (g'.run calls) u = false ∧
        World.position? (g'.run calls) u =
          some (b.position.along t (min (calls.count .step) (b.position.chebyshev t - 1))) ∧
        World.busy (g'.run calls) u =
          decide (calls.count .step < b.position.chebyshev t - 1 + g.workTicks) ∧
        ∀ before after, calls = before ++ .step :: after →
          (∃ m, (m, u) ∈ (g'.run before).moments) ∧
          ∀ m, (m, u) ∈ (g'.run before).moments →
            if before.count .step + 1 = b.position.chebyshev t - 1 + g.workTicks then
              m.act u = (m.endWork u t).rest u
            else m.WithoutEffect u) ∧
    ∀ p q : Position,
      (p.towards q).x.toInt = p.x.toInt + (q.x.toInt - p.x.toInt).sign ∧
      (p.towards q).y.toInt = p.y.toInt + (q.y.toInt - p.y.toInt).sign ∧
      (p.towards q).z.toInt = p.z.toInt + (q.z.toInt - p.z.toInt).sign ∧
      (p.chebyshev q ≠ 0 → (p.towards q).chebyshev q + 1 = p.chebyshev q) := by
  have hclear : g.Clear b.position t :=
    ⟨fun p ↦ Std.TreeSet.contains_of_isEmpty hbare, (hg.sound.units u b hb).1, ht, hshort⟩
  have hw : 1 ≤ g.workTicks := hg.sound.workTicks
  refine ⟨?_, ?_, fun p q ↦ ?_⟩
  · intro g' halone
    have hb₀ := (leaves_engage hb halive (.moving t)).own
    have hcalls : g'.Undisturbed u calls := halone.undisturbed hb₀ halive
    have hstart : Body.MovesFor b.position t 0 { b with activity := .moving t, stuck := false } :=
      ⟨rfl, (if_pos (by omega)).symm⟩
    have hclear' : g'.Clear b.position t := ⟨hclear.bare, hclear.start, ht, hshort⟩
    obtain ⟨b', hb', hmoves⟩ := hcalls.movesFor hclear' hb₀ hstart
    rw [Nat.zero_add] at hmoves
    have hlive := hcalls.alive
    rw [terminated_eq hb', Bool.not_eq_false'] at hlive
    refine ⟨hcalls.alive, ?_, ?_, fun hn ↦ ?_⟩
    · rw [position?_eq hb', hmoves.position]
    · rw [busy_eq hb', hlive, hmoves.activity, Bool.true_and]
      split <;> simp_all
    · rw [position?_eq hb', hmoves.position, Position.along_eq_iff.2 (by omega)]
  · intro g' halone
    have hb₀ := (leaves_engage hb halive (.working t g.workTicks)).own
    have hcalls : g'.Undisturbed u calls := halone.undisturbed hb₀ halive
    have hclear' : g'.Clear b.position t := ⟨hclear.bare, hclear.start, ht, hshort⟩
    have hstart : Body.WorksFor b.position t g.workTicks 0
        { b with activity := .working t g.workTicks, stuck := false } :=
      ⟨by rw [Nat.zero_min]; rfl, by rw [if_pos (by omega), Nat.zero_sub, Nat.sub_zero]⟩
    obtain ⟨b', hb', hworks⟩ := hcalls.worksFor hclear' hw hb₀ hstart
    rw [Nat.zero_add] at hworks
    have hlive := hcalls.alive
    rw [terminated_eq hb', Bool.not_eq_false'] at hlive
    refine ⟨hw, hcalls.alive, ?_, ?_, fun before after hsplit ↦ ?_⟩
    · rw [position?_eq hb', hworks.position]
    · rw [busy_eq hb', hlive, hworks.activity, Bool.true_and]
      split <;> simp_all
    · have hstep : g'.Undisturbed u (before ++ [.step]) := by
        rw [hsplit, ← List.singleton_append, ← List.append_assoc] at hcalls
        exact hcalls.append_left hb₀
      obtain ⟨c, hc, hworks'⟩ := (hstep.append_left hb₀).worksFor hclear' hw hb₀ hstart
      rw [Nat.zero_add] at hworks'
      refine ⟨exists_moment hc, fun m hm ↦ ends_work_of_worksFor hworks' hw hc ?_ hm⟩
      have hlive' := hstep.alive
      rw [run_append] at hlive'
      exact hlive'
  · refine ⟨Position.toInt_approach_eq_add_sign _ _, Position.toInt_approach_eq_add_sign _ _,
      Position.toInt_approach_eq_add_sign _ _, fun hpq ↦ ?_⟩
    rw [Position.chebyshev_towards]
    omega

def meadow : Grid :=
  (ofSettings { width := 8, depth := 8, height := 1, workTicks := 2 }).run
    [.station ⟨1⟩ ⟨0⟩ ⟨0, 0, 0⟩, .station ⟨2⟩ ⟨0⟩ ⟨5, 5, 0⟩, .deposit .log ⟨3, 1, 0⟩]

/-- Unit 1 is sent to the log, or told to fetch it, and the other unit crosses the meadow. The log
is on the ground until the fourth step, in which the work ends, and then in the unit's hands. -/
theorem open_ground_timing_meadow :
    let calls : List Call := [.step, .issue ⟨2⟩ (.moveTo ⟨0, 5, 0⟩), .step, .step, .step]
    let walked := (World.issue meadow ⟨1⟩ (.moveTo ⟨3, 1, 0⟩)).run calls
    let working := (World.issue meadow ⟨1⟩ (.work ⟨3, 1, 0⟩)).run (calls.take 4)
    let worked := (World.issue meadow ⟨1⟩ (.work ⟨3, 1, 0⟩)).run calls
    meadow.Reached ∧ World.position? walked ⟨1⟩ = some ⟨3, 1, 0⟩ ∧ World.busy walked ⟨1⟩ = false ∧
      World.position? worked ⟨1⟩ = some ⟨2, 1, 0⟩ ∧ World.busy worked ⟨1⟩ = false ∧
      (∃ m, (m, ⟨1⟩) ∈ working.moments ∧ m.act ⟨1⟩ = (m.endWork ⟨1⟩ ⟨3, 1, 0⟩).rest ⟨1⟩) ∧
      World.carries working ⟨1⟩ = false ∧ working.resources[(⟨3, 1, 0⟩ : Position)]? = some .log ∧
      worked.units[(⟨1⟩ : UnitId)]?.bind (·.carried) = some .log ∧
      worked.resources[(⟨3, 1, 0⟩ : Position)]? = none := by
  intro calls walked working worked
  have hmeadow : meadow.Reached := (Reached.ofSettings _).run _
  have halone : ∀ k : Command,
      (∀ x ∈ (World.issue meadow ⟨1⟩ k).units.toList, x.2.activity ≠ .attacking ⟨1⟩) →
      (∀ n ≤ calls.length, ((World.issue meadow ⟨1⟩ k).run (calls.take n)).solid.toList =
        (World.issue meadow ⟨1⟩ k).solid.toList) →
      (World.issue meadow ⟨1⟩ k).LeftAlone ⟨1⟩ calls :=
    fun k hattackers hsolid ↦ ⟨solid_of_take hsolid, fun c hc ↦ by simp [calls] at hc,
      fun v hv ↦ by simp [calls] at hv, by decide,
      fun v c hc ↦ hattackers (v, c) (Std.TreeMap.mem_toList_iff_getElem?_eq_some.2 hc)⟩
  obtain ⟨hwalk, hwork, -⟩ := open_ground_timing hmeadow (u := ⟨1⟩) (t := ⟨3, 1, 0⟩)
    (b := { faction := ⟨0⟩, position := ⟨0, 0, 0⟩ }) (by decide +kernel) (by decide +kernel) rfl
    (by decide) (by decide) calls
  obtain ⟨-, hposition, hbusy, -⟩ := hwalk (halone _ (by decide +kernel) (by decide +kernel))
  obtain ⟨-, -, hposition', hbusy', hsteps⟩ :=
    hwork (halone _ (by decide +kernel) (by decide +kernel))
  obtain ⟨⟨m, hm⟩, hturns⟩ := hsteps (calls.take 4) [] rfl
  have hlast := hturns m hm
  rw [if_pos (by decide +kernel)] at hlast
  exact ⟨hmeadow, hposition, hbusy, hposition', hbusy', ⟨m, hm, hlast⟩, by decide +kernel,
    by decide +kernel, by decide +kernel, by decide +kernel⟩

end Grid

end Errand
