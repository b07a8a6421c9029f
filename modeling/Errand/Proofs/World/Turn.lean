import Errand.Proofs.World.Bearing
import Errand.World.Grid

namespace Errand

namespace Body

def resting (b : Body) : Body := { b with activity := .idle, stuck := false }

def struck (b : Body) : Body :=
  let b := { b with health := b.health - 1 }
  if b.alive then b else { b with activity := .idle }

/-- A mover is at its goal, any other unit at it or beside it. -/
def arrived (b : Body) (goal : Position) : Bool :=
  match b.activity with
  | .moving _ => b.position = goal
  | _ => b.reaches goal

/-- The cube on which the unit ends its work in its next turn. -/
def completes? (b : Body) : Option Position :=
  match b.activity with
  | .working target remaining => if b.reaches target && remaining ≤ 1 then some target else none
  | _ => none

end Body

/-- What a turn does to anything but the unit whose turn it is. -/
inductive Effect where
  | nothing
  | takes (target : Position)
  | digs (target : Position)
  | strikes (target : UnitId)
  deriving DecidableEq

namespace Effect

def resources (e : Effect) (rs : Std.TreeMap Position Resource) : Std.TreeMap Position Resource :=
  match e with
  | takes target => rs.erase target
  | _ => rs

def solid (e : Effect) (ps : Std.TreeSet Position) : Std.TreeSet Position :=
  match e with
  | digs target => ps.erase target
  | _ => ps

end Effect

namespace Grid

/-- Where an activity leads, as the grid stands. -/
def goal? (g : Grid) : Activity → Option Position
  | .idle => none
  | .moving target => some target
  | .working target _ => some target
  | .following v => g.whereabouts? v
  | .attacking v => g.whereabouts? v

inductive Finish (g : Grid) (b : Body) (target : Position) : Option Resource → Effect → Prop
  | deliver : g.resources[target]? = some .workshop → b.carried.isSome = true →
      Finish g b target none .nothing
  | gather {r : Resource} : g.resources[target]? = some r → r ≠ .workshop → b.carried = none →
      Finish g b target (some r) (.takes target)
  | dig : g.resources[target]? = none → g.solid.contains target = true →
      Finish g b target (some .boulder) (.digs target)
  | vain : (g.resources[target]? = some .workshop → b.carried = none) →
      (g.resources[target]? = none → g.solid.contains target = false) →
      Finish g b target b.carried .nothing

/-- What a living unit `u` in the state `b` does in its turn, and the state that it is in then. -/
inductive Deed (g : Grid) (u : UnitId) (b : Body) : Body → Effect → Prop
  | idle : b.activity = .idle → Deed g u b b .nothing
  | rest : b.activity ≠ .idle → (∀ target n, b.activity ≠ .working target n) →
      (∀ goal, g.goal? b.activity = some goal → b.arrived goal = true) →
      Deed g u b b.resting .nothing
  | advance {goal p : Position} : g.goal? b.activity = some goal → b.arrived goal = false →
      g.nextCube? b.position goal = some p → b.activity ≠ .moving p →
      Deed g u b { b with position := p, stuck := false } .nothing
  | arrive {p : Position} : b.activity = .moving p → b.position ≠ p →
      g.nextCube? b.position p = some p → Deed g u b { b with position := p }.resting .nothing
  | block {goal : Position} : g.goal? b.activity = some goal → b.arrived goal = false →
      g.nextCube? b.position goal = none → Deed g u b { b with stuck := true } .nothing
  | toil {target : Position} {n : Nat} : b.activity = .working target n → b.reaches target = true →
      1 < n → Deed g u b { b with activity := .working target (n - 1), stuck := false } .nothing
  | finish {target : Position} {r : Option Resource} {e : Effect} : b.completes? = some target →
      g.Finish b target r e → Deed g u b { b with carried := r }.resting e
  | hit {v : UnitId} {c : Body} : b.activity = .attacking v → g.units[v]? = some c →
      b.reaches c.position = true → c.struck.alive = true →
      Deed g u b (if v = u then b.struck else b) (.strikes v)
  | fell {v : UnitId} {c : Body} : b.activity = .attacking v → g.units[v]? = some c →
      b.reaches c.position = true → c.struck.alive = false →
      Deed g u b (if v = u then b.struck else b).resting (.strikes v)

/-- Unit `u` is in the state `b` now, and else there is only the effect `e`. -/
structure Leaves (g : Grid) (u : UnitId) (b : Body) (e : Effect) (g' : Grid) : Prop where
  holds : ∀ p, g'.holds p = g.holds p
  workTicks : g'.workTicks = g.workTicks
  own : g'.units[u]? = some b
  others : ∀ v : UnitId, v ≠ u →
    g'.units[v]? = if e = .strikes v then g.units[v]?.map Body.struck else g.units[v]?
  resources : g'.resources = e.resources g.resources
  solid : g'.solid = e.solid g.solid

variable {g g' : Grid} {u v : UnitId} {b b' : Body} {e : Effect} {goal : Position}

theorem units_modifyUnit (g : Grid) (u v : UnitId) (f : Body → Body) :
    (g.modifyUnit u f).units[v]? = if v = u then g.units[u]?.map f else g.units[v]? := by
  rw [modifyUnit, Std.TreeMap.getElem?_modify]
  by_cases h : v = u
  · simp [h]
  · have hne : ¬ u = v := fun heq ↦ h heq.symm
    simp [h, hne]

section Leaves

theorem leaves_self (hb : g.units[u]? = some b) : g.Leaves u b .nothing g where
  holds _ := rfl
  workTicks := rfl
  own := hb
  others v _ := by rw [if_neg (by simp)]
  resources := rfl
  solid := rfl

theorem Leaves.modifyUnit (h : g.Leaves u b e g') (f : Body → Body) :
    g.Leaves u (f b) e (g'.modifyUnit u f) where
  holds := h.holds
  workTicks := h.workTicks
  own := by rw [units_modifyUnit, if_pos rfl, h.own, Option.map_some]
  others v hv := by rw [units_modifyUnit, if_neg hv, h.others v hv]
  resources := h.resources
  solid := h.solid

theorem Leaves.rest (h : g.Leaves u b e g') : g.Leaves u b.resting e (g'.rest u) :=
  h.modifyUnit _

theorem leaves_approach_of_some (hb : g.units[u]? = some b) {p : Position}
    (hnext : g.nextCube? b.position goal = some p) :
    g.Leaves u { b with position := p, stuck := false } .nothing (g.approach u goal) := by
  have h : g.Leaves u _ .nothing (g.approach u goal) := (leaves_self hb).modifyUnit _
  rw [hnext] at h
  exact h

theorem leaves_approach_of_none (hb : g.units[u]? = some b)
    (hnext : g.nextCube? b.position goal = none) :
    g.Leaves u { b with stuck := true } .nothing (g.approach u goal) := by
  have h : g.Leaves u _ .nothing (g.approach u goal) := (leaves_self hb).modifyUnit _
  rw [hnext] at h
  exact h

theorem leaves_engage (hb : g.units[u]? = some b) (halive : b.alive = true) (a : Activity) :
    g.Leaves u { b with activity := a, stuck := false } .nothing (g.engage u a) := by
  have h : g.Leaves u _ .nothing (g.engage u a) := (leaves_self hb).modifyUnit _
  rw [if_pos halive] at h
  exact h

theorem leaves_blow (hb : g.units[u]? = some b) (v : UnitId) :
    g.Leaves u (if v = u then b.struck else b) (.strikes v) (g.modifyUnit v Body.struck) where
  holds _ := rfl
  workTicks := rfl
  own := by
    rw [units_modifyUnit]
    by_cases hv : v = u
    · rw [if_pos hv.symm, if_pos hv, hv, hb, Option.map_some]
    · rw [if_neg fun h ↦ hv h.symm, if_neg hv, hb]
  others w hw := by
    rw [units_modifyUnit]
    by_cases hv : w = v
    · rw [if_pos hv, if_pos (by rw [hv]), hv]
    · rw [if_neg hv, if_neg fun h ↦ hv (Effect.strikes.inj h).symm]
  resources := rfl
  solid := rfl

end Leaves

def Turned (g : Grid) (u : UnitId) (b : Body) (g' : Grid) : Prop :=
  ∃ b' e, g.Deed u b b' e ∧ g.Leaves u b' e g'

theorem turned_approach (hb : g.units[u]? = some b) (hgoal : g.goal? b.activity = some goal)
    (haway : b.arrived goal = false) (hact : ∀ p, b.activity ≠ .moving p) :
    g.Turned u b (g.approach u goal) := by
  cases hnext : g.nextCube? b.position goal with
  | none => exact ⟨_, _, .block hgoal haway hnext, leaves_approach_of_none hb hnext⟩
  | some p => exact ⟨_, _, .advance hgoal haway hnext (hact p), leaves_approach_of_some hb hnext⟩

theorem turned_moving (hb : g.units[u]? = some b) (hact : b.activity = .moving goal) :
    g.Turned u b
      (let g' := if b.position = goal then g else g.approach u goal
       if g'.units[u]?.any (·.position = goal) then g'.rest u else g') := by
  have hgoal : g.goal? b.activity = some goal := by rw [hact, goal?]
  have harrived : b.arrived goal = decide (b.position = goal) := by rw [Body.arrived, hact]
  dsimp only
  by_cases hat : b.position = goal
  · rw [if_pos hat, hb, Option.any_some, if_pos (decide_eq_true hat)]
    refine ⟨_, _, .rest (by simp [hact]) (by simp [hact]) (fun p hp ↦ ?_), (leaves_self hb).rest⟩
    rw [hgoal, Option.some.injEq] at hp
    rw [← hp, harrived, decide_eq_true hat]
  · rw [if_neg hat]
    rw [decide_eq_false hat] at harrived
    cases hnext : g.nextCube? b.position goal with
    | none =>
      have hleaves := leaves_approach_of_none hb hnext
      rw [hleaves.own, Option.any_some, if_neg (by simpa using hat)]
      exact ⟨_, _, .block hgoal harrived hnext, hleaves⟩
    | some p =>
      have hleaves := leaves_approach_of_some hb hnext
      rw [hleaves.own, Option.any_some]
      by_cases hp : p = goal
      · rw [if_pos (decide_eq_true hp)]
        subst hp
        exact ⟨_, _, .arrive hact hat hnext, hleaves.rest⟩
      · rw [if_neg (by simpa using hp)]
        refine ⟨_, _, .advance hgoal harrived hnext ?_, hleaves⟩
        rw [hact]
        exact fun h ↦ hp (Activity.moving.inj h).symm

theorem finish_endWork (hb : g.units[u]? = some b) (target : Position) :
    ∃ r e, g.Finish b target r e ∧ g.Leaves u { b with carried := r } e (g.endWork u target) := by
  have hcarry : ∀ (g' : Grid) (e : Effect) (r : Option Resource), g.Leaves u b e g' →
      g.Leaves u { b with carried := r } e (g'.modifyUnit u ({ · with carried := r })) :=
    fun g' e r h ↦ h.modifyUnit ({ · with carried := r })
  rw [endWork, hb]
  split
  · next h => cases h
  · next c h hres =>
    cases h
    split
    · next hhas => exact ⟨_, _, .deliver hres hhas, hcarry _ _ _ (leaves_self hb)⟩
    · next hhas =>
      have hfree : b.carried = none := by simpa using hhas
      exact ⟨_, _, .vain (fun _ ↦ hfree) (by simp [hres]), leaves_self hb⟩
  · next c r hshop h hres =>
    cases h
    split
    · next hfree =>
      have htaken : g.Leaves u b (.takes target) { g with resources := g.resources.erase target } :=
        { leaves_self hb with
          others := fun v _ ↦ by rw [if_neg (by simp)]
          resources := rfl }
      have hfree : b.carried = none := by simpa using hfree
      exact ⟨_, _, .gather hres hshop hfree, hcarry _ _ _ htaken⟩
    · exact ⟨_, _, .vain (fun h ↦ absurd (hres.symm.trans h) (by simpa using hshop)) (by simp [hres]),
        leaves_self hb⟩
  · next c h hres =>
    split
    · next hsolid =>
      have hdug : g.Leaves u b (.digs target) { g with solid := g.solid.erase target } :=
        { leaves_self hb with
          others := fun v _ ↦ by rw [if_neg (by simp)]
          solid := rfl }
      exact ⟨_, _, .dig hres hsolid, hcarry _ _ _ hdug⟩
    · next hsolid =>
      rw [Bool.not_eq_true] at hsolid
      exact ⟨_, _, .vain (by simp [hres]) (fun _ ↦ hsolid), leaves_self hb⟩

theorem strike_eq (g : Grid) (u v : UnitId) :
    g.strike u v = if (g.modifyUnit v Body.struck).units[v]?.any (·.alive)
      then g.modifyUnit v Body.struck else (g.modifyUnit v Body.struck).rest u := rfl

theorem turned_strike (hb : g.units[u]? = some b) (hact : b.activity = .attacking v)
    {c : Body} (hc : g.units[v]? = some c) (hreach : b.reaches c.position = true) :
    g.Turned u b (g.strike u v) := by
  have hvictim : (g.modifyUnit v Body.struck).units[v]? = some c.struck := by
    rw [units_modifyUnit, if_pos rfl, hc, Option.map_some]
  rw [strike_eq, hvictim, Option.any_some]
  by_cases halive : c.struck.alive = true
  · rw [if_pos halive]
    exact ⟨_, _, .hit hact hc hreach halive, leaves_blow hb v⟩
  · rw [if_neg halive]
    rw [Bool.not_eq_true] at halive
    exact ⟨_, _, .fell hact hc hreach halive, (leaves_blow hb v).rest⟩

theorem turned_working {target : Position} {n : Nat} (hb : g.units[u]? = some b)
    (halive : b.alive = true) (hact : b.activity = .working target n) :
    g.Turned u b
      (if !b.reaches target then g.approach u target
       else if 1 < n then g.engage u (.working target (n - 1))
       else (g.endWork u target).rest u) := by
  by_cases hreach : b.reaches target = true
  · rw [if_neg (by simp [hreach])]
    by_cases hn : 1 < n
    · rw [if_pos hn]
      exact ⟨_, _, .toil hact hreach hn, leaves_engage hb halive _⟩
    · rw [if_neg hn]
      have hdone : b.completes? = some target := by
        simp only [Body.completes?, hact, hreach, Bool.true_and, decide_eq_true_eq]
        rw [if_pos (by omega)]
      obtain ⟨r, e, hfinish, hleaves⟩ := finish_endWork hb target
      exact ⟨_, _, .finish hdone hfinish, hleaves.rest⟩
  · rw [if_pos (by simpa using hreach)]
    refine turned_approach hb (by rw [hact, goal?]) ?_ (by simp [hact])
    simpa only [Body.arrived, hact, Bool.not_eq_true] using hreach

section Pursuit

variable (hb : g.units[u]? = some b) (hact : b.activity = .following v ∨ b.activity = .attacking v)

include hact in
theorem goal?_of_pursuit : g.goal? b.activity = g.whereabouts? v ∧ ∀ p, b.arrived p = b.reaches p := by
  rcases hact with hact | hact <;> simp [goal?, Body.arrived, hact]

include hb hact

theorem turned_lost (hlost : g.whereabouts? v = none) : g.Turned u b (g.rest u) := by
  obtain ⟨hgoal, -⟩ := goal?_of_pursuit (g := g) hact
  refine ⟨_, _, .rest ?_ ?_ (by simp [hgoal, hlost]), (leaves_self hb).rest⟩
  · rcases hact with hact | hact <;> simp [hact]
  · rcases hact with hact | hact <;> simp [hact]

theorem turned_pursuit (hseen : g.whereabouts? v = some goal) (hfar : ¬ b.reaches goal = true) :
    g.Turned u b (g.approach u goal) := by
  obtain ⟨hgoal, harrived⟩ := goal?_of_pursuit (g := g) hact
  refine turned_approach hb (hgoal.trans hseen) ?_ fun p h ↦ ?_
  · rw [harrived]
    exact Bool.not_eq_true _ ▸ hfar
  · rcases hact with hact | hact <;> rw [hact] at h <;> cases h

end Pursuit

theorem filter_alive (hb : g.units[u]? = some b) (halive : b.alive = true) :
    g.units[u]?.filter (·.alive) = some b := by
  rw [hb]
  simp [halive]

theorem turned_act (hb : g.units[u]? = some b) (halive : b.alive = true) :
    g.Turned u b (g.act u) := by
  rw [act, filter_alive hb halive]
  cases hact : b.activity with
  | idle =>
    simp only [hact]
    exact ⟨_, _, .idle hact, leaves_self hb⟩
  | moving target =>
    simp only [hact]
    exact turned_moving hb hact
  | working target n =>
    simp only [hact]
    exact turned_working hb halive hact
  | following v =>
    simp only [hact]
    cases hv : g.whereabouts? v with
    | none => exact turned_lost hb (.inl hact) hv
    | some p =>
      by_cases hreach : b.reaches p = true
      · simp only [if_pos hreach]
        refine ⟨_, _, .rest (by simp [hact]) (by simp [hact]) ?_, (leaves_self hb).rest⟩
        simp [hact, goal?, hv, Body.arrived, hreach]
      · simp only [if_neg hreach]
        exact turned_pursuit hb (.inl hact) hv hreach
  | attacking v =>
    simp only [hact]
    cases hv : g.whereabouts? v with
    | none => exact turned_lost hb (.inr hact) hv
    | some p =>
      by_cases hreach : b.reaches p = true
      · simp only [if_pos hreach]
        obtain ⟨c, hc, hp⟩ := Option.map_eq_some_iff.1 hv
        refine turned_strike hb hact (Option.filter_eq_some_iff.1 hc).1 ?_
        rw [hp, hreach]
      · simp only [if_neg hreach]
        exact turned_pursuit hb (.inr hact) hv hreach

/-- In the turn of any unit there is one deed of a living unit, or nothing happens. -/
theorem act_eq_or_turned (g : Grid) (u : UnitId) :
    g.act u = g ∨ ∃ b, g.units[u]? = some b ∧ b.alive = true ∧ g.Turned u b (g.act u) := by
  cases hfound : g.units[u]?.filter (·.alive) with
  | none => exact .inl (by rw [act, hfound])
  | some b =>
    obtain ⟨hb, halive⟩ := Option.filter_eq_some_iff.1 hfound
    exact .inr ⟨b, hb, halive, turned_act hb halive⟩

end Grid

namespace Body

theorem alive_iff {b : Body} : b.alive = true ↔ 0 < b.health := decide_eq_true_iff

/-- What the turns of other units may make of a unit. -/
structure Weathers (b b' : Body) : Prop where
  health : b'.health ≤ b.health
  rest : b' = { b with health := b'.health, activity := b'.activity }
  fate : b'.alive = b.alive ∧ b'.activity = b.activity ∨ b'.alive = false ∧ b'.activity = .idle

variable {b b' b'' : Body}

theorem Weathers.refl (b : Body) : Weathers b b :=
  ⟨Nat.le_refl _, rfl, .inl ⟨rfl, rfl⟩⟩

theorem Weathers.trans (h : Weathers b b') (h' : Weathers b' b'') : Weathers b b'' where
  health := Nat.le_trans h'.health h.health
  rest := by
    have hrest := h'.rest
    rw [h.rest] at hrest
    exact hrest
  fate := by
    rcases h'.fate with ⟨halive, hact⟩ | hdead
    · rw [halive, hact]
      exact h.fate
    · exact .inr hdead

theorem weathers_struck (b : Body) : Weathers b b.struck := by
  by_cases halive : { b with health := b.health - 1 }.alive = true
  · have hstruck : b.struck = { b with health := b.health - 1 } := by
      rw [struck]
      exact if_pos halive
    have hbefore : b.alive = true := by
      have hleft : 0 < b.health - 1 := alive_iff.1 halive
      exact alive_iff.2 (by omega)
    rw [hstruck]
    exact ⟨Nat.sub_le _ _, rfl, .inl ⟨halive.trans hbefore.symm, rfl⟩⟩
  · have hstruck : b.struck = { b with health := b.health - 1, activity := .idle } := by
      rw [struck]
      exact if_neg halive
    rw [hstruck]
    exact ⟨Nat.sub_le _ _, rfl, .inr ⟨Bool.not_eq_true _ ▸ halive, rfl⟩⟩

@[simp]
theorem position_struck (b : Body) : b.struck.position = b.position := by
  rw [b.weathers_struck.rest]

@[simp]
theorem carried_struck (b : Body) : b.struck.carried = b.carried := by
  rw [b.weathers_struck.rest]

/-- The states differ in health at most. -/
structure Alike (b b' : Body) : Prop where
  position : b'.position = b.position
  activity : b'.activity = b.activity
  stuck : b'.stuck = b.stuck
  carried : b'.carried = b.carried

theorem Weathers.of_alive (h : Weathers b b') (halive : b'.alive = true) :
    b.alive = true ∧ b.Alike b' := by
  rcases h.fate with ⟨hsame, hact⟩ | ⟨hdead, -⟩
  · have hrest := h.rest
    rw [hact] at hrest
    rw [hrest]
    exact ⟨hsame.symm.trans halive, rfl, rfl, rfl, rfl⟩
  · rw [halive] at hdead
    cases hdead

end Body

namespace Grid

variable {g g' g'' m : Grid} {u v : UnitId} {b b' : Body} {goal : Position} {us : List UnitId}

theorem weathers_act (hv : v ≠ u) (hb : g.units[v]? = some b) :
    ∃ b', (g.act u).units[v]? = some b' ∧ b.Weathers b' := by
  rcases act_eq_or_turned g u with hsame | ⟨c, -, -, c', e, -, hleaves⟩
  · rw [hsame]
    exact ⟨b, hb, .refl b⟩
  · rw [hleaves.others v hv, hb]
    split
    · exact ⟨b.struck, rfl, b.weathers_struck⟩
    · exact ⟨b, rfl, .refl b⟩

theorem weathered_of_act (hv : v ≠ u) (hb' : (g.act u).units[v]? = some b') :
    ∃ b, g.units[v]? = some b ∧ b.Weathers b' := by
  cases hb : g.units[v]? with
  | none =>
    rcases act_eq_or_turned g u with hsame | ⟨c, -, -, c', e, -, hleaves⟩
    · rw [hsame, hb] at hb'
      cases hb'
    · rw [hleaves.others v hv, hb, Option.map_none, ite_self] at hb'
      cases hb'
  | some b =>
    obtain ⟨c, hc, hweathers⟩ := weathers_act hv hb
    rw [hc, Option.some.injEq] at hb'
    exact ⟨b, rfl, hb' ▸ hweathers⟩

theorem weathers_foldl_act (hv : v ∉ us) (hb : g.units[v]? = some b) :
    ∃ b', (us.foldl act g).units[v]? = some b' ∧ b.Weathers b' := by
  induction us generalizing g b with
  | nil => exact ⟨b, hb, .refl b⟩
  | cons u us ih =>
    rw [List.mem_cons, not_or] at hv
    obtain ⟨b', hb', hweathers⟩ := weathers_act hv.1 hb
    obtain ⟨b'', hb'', hlater⟩ := ih hv.2 hb'
    exact ⟨b'', hb'', hweathers.trans hlater⟩

theorem act_of_completes (hb : g.units[u]? = some b) (halive : b.alive = true)
    (h : b.completes? = some goal) : g.act u = (g.endWork u goal).rest u := by
  rw [act, filter_alive hb halive]
  cases hact : b.activity with
  | working target n =>
    simp only [Body.completes?, hact, Option.ite_none_right_eq_some, Bool.and_eq_true,
      decide_eq_true_eq, Option.some.injEq] at h
    obtain ⟨⟨hreach, hn⟩, rfl⟩ := h
    simp only [hact]
    rw [if_neg (by simp [hreach]), if_neg (by omega)]
  | _ => simp [Body.completes?, hact] at h

/-- The turn of unit `u` changes neither the ground nor what the unit carries. -/
structure WithoutEffect (g : Grid) (u : UnitId) : Prop where
  resources : (g.act u).resources = g.resources
  solid : (g.act u).solid = g.solid
  carried : (g.act u).units[u]?.map (·.carried) = g.units[u]?.map (·.carried)

theorem act_of_not_completes (hb : g.units[u]? = some b) (halive : b.alive = true)
    (h : b.completes? = none) : g.WithoutEffect u := by
  obtain ⟨b', e, hdeed, hleaves⟩ := turned_act hb halive
  have hblow : ∀ v : UnitId, (if v = u then b.struck else b).carried = b.carried := by
    intro v
    split <;> simp
  suffices hsame : e.resources g.resources = g.resources ∧ e.solid g.solid = g.solid ∧
      b'.carried = b.carried by
    refine ⟨hleaves.resources.trans hsame.1, hleaves.solid.trans hsame.2.1, ?_⟩
    rw [hleaves.own, hb, Option.map_some, Option.map_some, hsame.2.2]
  cases hdeed with
  | finish hdone => rw [h] at hdone; cases hdone
  | hit => exact ⟨rfl, rfl, hblow _⟩
  | fell => exact ⟨rfl, rfl, hblow _⟩
  | _ => exact ⟨rfl, rfl, rfl⟩

/-- The grid keeps its extent, and no solid cube and no resource comes to it. -/
structure Erodes (g g' : Grid) : Prop where
  holds : ∀ p, g'.holds p = g.holds p
  workTicks : g'.workTicks = g.workTicks
  solid : ∀ p, g'.solid.contains p = true → g.solid.contains p = true
  resources : ∀ p, g'.resources.contains p = true → g.resources.contains p = true

theorem Erodes.refl (g : Grid) : Erodes g g :=
  ⟨fun _ ↦ rfl, rfl, fun _ h ↦ h, fun _ h ↦ h⟩

theorem Erodes.trans (h : Erodes g g') (h' : Erodes g' g'') : Erodes g g'' :=
  ⟨fun p ↦ (h'.holds p).trans (h.holds p), h'.workTicks.trans h.workTicks,
    fun p hp ↦ h.solid p (h'.solid p hp), fun p hp ↦ h.resources p (h'.resources p hp)⟩

theorem Leaves.erodes {e : Effect} (h : g.Leaves u b e g') : Erodes g g' where
  holds := h.holds
  workTicks := h.workTicks
  solid p := by
    rw [h.solid]
    cases e with
    | digs target => simp [Effect.solid, Std.TreeSet.contains_erase]
    | _ => exact id
  resources p := by
    rw [h.resources]
    cases e with
    | takes target => simp [Effect.resources, Std.TreeMap.contains_erase]
    | _ => exact id

theorem erodes_act (g : Grid) (u : UnitId) : Erodes g (g.act u) := by
  rcases act_eq_or_turned g u with hsame | ⟨b, -, -, b', e, -, hleaves⟩
  · rw [hsame]
    exact .refl g
  · exact hleaves.erodes

theorem foldl_act_induction {P : Grid → Prop} (hact : ∀ m u, P m → P (m.act u)) (us : List UnitId)
    (h : P g) : P (us.foldl act g) := by
  induction us generalizing g with
  | nil => exact h
  | cons u us ih => exact ih (hact g u h)

theorem step_induction {P : Grid → Prop} (hact : ∀ m u, P m → P (m.act u))
    (h : P { g with ticks := g.ticks + 1 }) : P g.step :=
  foldl_act_induction hact g.units.keys h

theorem erodes_foldl_act (us : List UnitId) (g : Grid) : Erodes g (us.foldl act g) :=
  foldl_act_induction (P := Erodes g) (fun m u h ↦ h.trans (erodes_act m u)) us (.refl g)

def turns (g : Grid) : List UnitId → List (Grid × UnitId)
  | [] => []
  | u :: us => (g, u) :: (g.act u).turns us

/-- The turns that make up a step, each with the grid that it finds. -/
def moments (g : Grid) : List (Grid × UnitId) :=
  { g with ticks := g.ticks + 1 }.turns g.units.keys

theorem mem_turns :
    (m, u) ∈ g.turns us ↔ ∃ before after, us = before ++ u :: after ∧ m = before.foldl act g := by
  induction us generalizing g with
  | nil => simp [turns]
  | cons w us ih =>
    rw [turns, List.mem_cons, ih, Prod.mk.injEq]
    constructor
    · rintro (⟨rfl, rfl⟩ | ⟨before, after, rfl, rfl⟩)
      · exact ⟨[], us, rfl, rfl⟩
      · exact ⟨w :: before, after, rfl, rfl⟩
    · rintro ⟨before, after, hsplit, rfl⟩
      cases before with
      | nil =>
        obtain ⟨rfl, rfl⟩ := List.cons.inj hsplit
        exact .inl ⟨rfl, rfl⟩
      | cons x before =>
        obtain ⟨rfl, rfl⟩ := List.cons.inj hsplit
        exact .inr ⟨before, after, rfl, rfl⟩

structure Meanwhile (g : Grid) (u : UnitId) (m : Grid) : Prop where
  before : Erodes g m
  after : Erodes (m.act u) g.step
  found : ∀ b, g.units[u]? = some b → ∃ b', m.units[u]? = some b' ∧ b.Weathers b'
  left : ∀ b, (m.act u).units[u]? = some b → ∃ b', g.step.units[u]? = some b' ∧ b.Weathers b'

theorem meanwhile_of_mem (hm : (m, u) ∈ g.moments) : g.Meanwhile u m := by
  obtain ⟨before, after, hkeys, rfl⟩ := mem_turns.1 hm
  have hnodup : (before ++ u :: after).Nodup := hkeys ▸ Std.TreeMap.nodup_keys
  have hbefore : u ∉ before := fun h ↦
    (List.nodup_append.1 hnodup).2.2 u h u List.mem_cons_self rfl
  have hafter : u ∉ after := (List.nodup_cons.1 (List.nodup_append.1 hnodup).2.1).1
  have hstep : g.step =
      after.foldl act ((before.foldl act { g with ticks := g.ticks + 1 }).act u) := by
    rw [step, hkeys, List.foldl_append, List.foldl_cons]
  have hticked : Erodes g { g with ticks := g.ticks + 1 } :=
    ⟨fun _ ↦ rfl, rfl, fun _ h ↦ h, fun _ h ↦ h⟩
  refine ⟨hticked.trans (erodes_foldl_act before _), ?_, fun b hb ↦ ?_, fun b hb ↦ ?_⟩
  · rw [hstep]
    exact erodes_foldl_act after _
  · exact weathers_foldl_act hbefore hb
  · rw [hstep]
    exact weathers_foldl_act hafter hb

theorem exists_moment (hb : g.units[u]? = some b) : ∃ m, (m, u) ∈ g.moments := by
  have hmem : u ∈ g.units.keys := by
    rw [Std.TreeMap.mem_keys, Std.TreeMap.mem_iff_isSome_getElem?, hb, Option.isSome_some]
  obtain ⟨before, after, hkeys⟩ := List.append_of_mem hmem
  exact ⟨_, mem_turns.2 ⟨before, after, hkeys, rfl⟩⟩

end Grid

end Errand
