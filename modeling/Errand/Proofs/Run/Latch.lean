import Errand.Proofs.Run.Chain
import Errand.Proofs.Run.Slicing

namespace Errand

variable {ω ρ : Type}

def Script.isBranch : Script → Bool
  | branch _ _ _ _ => true
  | _ => false

/-- The same worlds, in which other units are helpless. -/
abbrev World.withHelpless [World ω] (helpless : ω → UnitId → Bool) : World ω :=
  { (inferInstance : World ω) with helpless }

/-- The point that is left when the outermost `if` on the way gives up its branch. There is none if no
`if` stands on the way. -/
def Point.release? : Point → Script → Option Point
  | inside i p, s =>
    if s.isBranch then some step else (s.children[i]?.bind fun c ↦ p.release? c).map (inside i)
  | _, s => if s.isBranch then some step else none

namespace Script

section Resume

open Exec

variable [World ω] [Chance ρ] {actor : Actor} {k : Marks} {s : Script} {id : Nat} {p p' : Point}
  {m : Machine ω ρ}

omit [Chance ρ] in
theorem kept_of_able (h : World.helpless m.world actor.unit = false) (q : Option Point)
    (f : Option Point → Exec ω ρ Pause) : (kept actor q >>= f) m = f q m := by
  change f (if q.any (·.awaits) && World.helpless m.world actor.unit then none else q) m = _
  rw [h, Bool.and_false, if_neg Bool.false_ne_true]

omit [Chance ρ] in
theorem kept_of_helpless (h : World.helpless m.world actor.unit = true) (hp : p.awaits = true)
    (f : Option Point → Exec ω ρ Pause) : (kept actor (some p) >>= f) m = f none m := by
  change f (if p.awaits && World.helpless m.world actor.unit then none else some p) m = _
  rw [h, hp, Bool.and_true, if_pos rfl]

theorem release?_sequence (loc : Location) (before : List Script) (s : Script) (after : List Script)
    (p : Point) : (Point.inside before.length p).release? (sequence loc (before ++ s :: after)) =
      (p.release? s).map (.inside before.length) := by
  simp [Point.release?, isBranch, children]

theorem Holds.resume_busy (h : s.Holds k id p) (hp : p.awaits = true)
    (hm : m.state.depleted = false) (hbusy : World.busy m.world actor.unit = true)
    (hstay : World.helpless m.world actor.unit = false ∨ p.release? s = none) :
    s.resume actor (some p) m = .ok (.paused p) m := by
  induction h with
  | @child loc body before after s id i p hb hi hid hbefore hs hafter ih =>
    subst hb hi
    rw [release?_sequence, Option.map_eq_none_iff] at hstay
    rw [resume]
    change resumeRest actor (before ++ s :: after) before.length 0 (some p) m = _
    rw [resumeRest_skip, resumeRest, bind_apply, ih hp hstay, Nat.zero_add]
    rfl
  | undecided | check | leave | assign | print | unsent => cases hp
  | @yes loc c yes no id p hid hs hb ih =>
    have hable : World.helpless m.world actor.unit = false := hstay.resolve_right (Option.some_ne_none _)
    rw [resume, kept_of_able hable]
    change (do return (← yes.resume actor (some p)).inside 0 : Exec ω ρ Pause) m = _
    rw [bind_apply, ih hp (.inl hable)]
    rfl
  | @no loc c yes no id p hid hb hs ih =>
    have hable : World.helpless m.world actor.unit = false := hstay.resolve_right (Option.some_ne_none _)
    rw [resume, kept_of_able hable]
    change (do return (← no.resume actor (some p)).inside 1 : Exec ω ρ Pause) m = _
    rw [bind_apply, ih hp (.inl hable)]
    rfl
  | @turn loc c body id p hid hs ih =>
    have hstay := hstay.imp_right (Option.map_eq_none_iff.mp ·)
    rw [resume_loop _ hm]
    change (body.resume actor (some p) >>= afterTurn _) m = _
    rw [bind_apply, ih hp hstay]
    rfl
  | sent =>
    rw [resume, if_pos rfl]
    change EStateM.Result.ok (if World.busy m.world actor.unit then _ else _) m = _
    rw [hbusy, if_pos rfl]

theorem Holds.resume_released (h : s.Holds k id p) (hp : p.awaits = true)
    (hm : m.state.depleted = false) (hhelpless : World.helpless m.world actor.unit = true)
    (hp' : p.release? s = some p') :
    s.resume actor (some p) m = s.resume actor (some p') m := by
  induction h generalizing p' with
  | @child loc body before after s id i p hb hi hid hbefore hs hafter ih =>
    subst hb hi
    rw [release?_sequence] at hp'
    obtain ⟨q, hq, rfl⟩ := Option.map_eq_some_iff.mp hp'
    rw [resume, resume]
    change resumeRest actor (before ++ s :: after) before.length 0 (some p) m =
      resumeRest actor (before ++ s :: after) before.length 0 (some q) m
    rw [resumeRest_skip, resumeRest_skip, resumeRest, resumeRest, bind_apply, bind_apply, ih hp hq]
  | undecided | check | leave | assign | print | unsent => cases hp
  | yes | no =>
    cases hp'
    rw [resume, kept_of_helpless hhelpless hp, resume, kept_of_not_awaits rfl]
    rfl
  | @turn loc c body id p hid hs ih =>
    obtain ⟨q, hq, rfl⟩ := Option.map_eq_some_iff.mp hp'
    rw [resume_loop _ hm, resume_loop _ hm]
    change (body.resume actor (some p) >>= afterTurn _) m =
      (body.resume actor (some q) >>= afterTurn _) m
    rw [bind_apply, bind_apply, ih hp hq]
  | sent => cases hp'

end Resume

section Way

variable {k : Marks} {s : Script} {id : Nat} {above : List Ancestor} {p p' : Point}
  {f : Nat → Bool}

theorem Holds.trail_of_not_inside (h : s.Holds k id p) (hp : ∀ i q, p ≠ .inside i q) :
    s.trailFrom k id = [id] := by
  cases p with
  | step => exact (h.stopsAt_of_step []).trail
  | sent => exact (h.stopsAt_of_sent []).trail
  | inside i q => exact absurd rfl (hp i q)

theorem Holds.find?_eq_none (h : s.Holds k id p)
    (hif : ∀ site ∈ s.sitesFrom id above, f site.id = site.script.isBranch)
    (hp : p.release? s = none) : (s.trailFrom k id).find? f = none := by
  have hroot := hif _ (s.site_mem_sitesFrom id above)
  induction p generalizing s id above with
  | step | sent =>
    rw [h.trail_of_not_inside nofun, List.find?_singleton, hroot]
    simpa [Point.release?] using hp
  | inside i p ih =>
    obtain ⟨child, first, aboveChild, hchild, hin⟩ := h.goesInside above
    cases hs : s.isBranch with
    | true => simp [Point.release?, hs] at hp
    | false =>
      have hp : p.release? child = none := by simpa [Point.release?, hs, hin.children] using hp
      have hif' := fun site hsite ↦ hif site (hin.sites hsite)
      rw [hin.trail, List.find?_cons_of_neg (by rw [hroot, hs]; exact Bool.false_ne_true)]
      exact ih hchild hif' hp (hif' _ (child.site_mem_sitesFrom first aboveChild))

theorem release?_of_isBranch (hs : s.isBranch = true) (p : Point) : p.release? s = some .step := by
  cases p <;> simp [Point.release?, hs]

theorem Holds.undecided_of_isBranch (h : s.Holds k id p) (hs : s.isBranch = true) {k' : Marks}
    (hget : k'.get id = { k.get id with branch := none })
    (hblank : k'.BlankOn (id + 1) (s.size - 1)) : s.Holds k' id .step := by
  have hmark : k'.get id = { pending := true } := by
    cases h with
    | undecided hid | yes hid | no hid => rw [hget, hid]
    | _ => cases hs
  cases s with
  | branch loc c yes no => exact .undecided hmark hblank
  | _ => cases hs

/-- The first `if` on the way of started statements is at `site`, and `p'` is the point that is left
when it gives up its branch. -/
structure FirstIf (k : Marks) (s : Script) (id : Nat) (above : List Ancestor) (f : Nat → Bool)
    (p' : Point) (site : Site) : Prop where
  mem : site ∈ s.sitesFrom id above
  first : (s.trailFrom k id).find? f = some site.id
  lo : id ≤ site.id
  hi : site.id + site.script.size ≤ id + s.size
  released : ∀ k', Marks.SameOff site.id site.script.size k k' →
    k'.get site.id = { k.get site.id with branch := none } →
    k'.BlankOn (site.id + 1) (site.script.size - 1) → s.Holds k' id p'

theorem Holds.firstIf_self (h : s.Holds k id p) (hs : s.isBranch = true) (hid : f id = true)
    (above : List Ancestor) : s.FirstIf k id above f .step ⟨id, s, above⟩ where
  mem := s.site_mem_sitesFrom id above
  first := by
    have hhead := s.trailFrom_head h.pending
    cases htrail : s.trailFrom k id with
    | nil => simp [htrail] at hhead
    | cons a l =>
      rw [htrail, List.head?_cons, Option.some_inj] at hhead
      rw [hhead, List.find?_cons_of_pos hid]
  lo := Nat.le_refl _
  hi := Nat.le_refl _
  released _ _ := h.undecided_of_isBranch hs

theorem Holds.firstIf (h : s.Holds k id p)
    (hif : ∀ site ∈ s.sitesFrom id above, f site.id = site.script.isBranch)
    (hp : p.release? s = some p') : ∃ site, s.FirstIf k id above f p' site := by
  have hroot := hif _ (s.site_mem_sitesFrom id above)
  induction p generalizing s id above p' with
  | step | sent =>
    cases hs : s.isBranch with
    | false => simp [Point.release?, hs] at hp
    | true =>
      cases (release?_of_isBranch hs _).symm.trans hp
      exact ⟨_, h.firstIf_self hs (hroot.trans hs) above⟩
  | inside i p ih =>
    cases hs : s.isBranch with
    | true =>
      cases (release?_of_isBranch hs _).symm.trans hp
      exact ⟨_, h.firstIf_self hs (hroot.trans hs) above⟩
    | false =>
      obtain ⟨child, first, aboveChild, hchild, hin⟩ := h.goesInside above
      have hp : (p.release? child).map (Point.inside i) = some p' := by
        simpa only [Point.release?, hs, Bool.false_eq_true, if_false, hin.children,
          Option.bind_some] using hp
      obtain ⟨q, hq, rfl⟩ := Option.map_eq_some_iff.mp hp
      have hif' := fun site hsite ↦ hif site (hin.sites hsite)
      obtain ⟨site, hfirst⟩ := ih hchild hif' hq (hif' _ (child.site_mem_sitesFrom first aboveChild))
      have hlo := hin.lo
      have hhi := hin.hi
      have hlo' := hfirst.lo
      have hhi' := hfirst.hi
      refine ⟨site, hin.sites hfirst.mem, ?_, by omega, by omega, fun k' hk hget hblank ↦ ?_⟩
      · rw [hin.trail, List.find?_cons_of_neg (by rw [hroot, hs]; exact Bool.false_ne_true),
          hfirst.first]
      · exact hin.moves k' q ⟨hk.size, fun j hj ↦ hk.get j (by omega)⟩
          (hfirst.released k' hk hget hblank)

end Way

section Helpless

open Exec

variable [World ω] [Chance ρ] {actor : Actor} (helpless : ω → UnitId → Bool)

theorem eval_withHelpless (v : View ω) (e : Expr) :
    @Expr.eval ω ρ (World.withHelpless helpless) _ v e = e.eval v := by
  induction e <;> simp only [Expr.eval, *] <;> rfl

theorem evalBoolean_withHelpless (v : View ω) (e : Expr) :
    @Expr.evalBoolean ω ρ (World.withHelpless helpless) _ v e = e.evalBoolean v := by
  simp only [Expr.evalBoolean, eval_withHelpless]

theorem commandOf_withHelpless (v : View ω) (a : Action) (e : Expr) :
    @commandOf ω ρ (World.withHelpless helpless) _ v a e = commandOf v a e := by
  cases a <;> simp only [commandOf, Expr.evalPosition, Expr.evalLiveUnit, eval_withHelpless] <;> rfl

variable (ω ρ actor) in
def NeverAsks (s : Script) : Prop :=
  ∀ q : Option Point, q.any (·.awaits) = false →
    @resume ω ρ (World.withHelpless helpless) _ actor s q = s.resume actor q

variable {helpless}

theorem resumeRest_withHelpless {ss : List Script} (h : ∀ s ∈ ss, s.NeverAsks ω ρ actor helpless)
    (skip index : Nat) (q : Option Point) (hq : q.any (·.awaits) = false) :
    @resumeRest ω ρ (World.withHelpless helpless) _ actor ss skip index q =
      resumeRest actor ss skip index q := by
  induction ss generalizing skip index q with
  | nil => simp only [resumeRest]
  | cons s ss ih =>
    have hss := ih fun s' hs' ↦ h s' (List.mem_cons_of_mem s hs')
    cases skip with
    | zero => simp only [resumeRest, h s List.mem_cons_self q hq, hss 0 _ none rfl]
    | succ skip => simp only [resumeRest, hss skip _ q hq]

theorem rounds_withHelpless {c : Expr} {body : Script} (h : body.NeverAsks ω ρ actor helpless)
    (n : Nat) (q : Option Point) (hq : q.any (·.awaits) = false) :
    @rounds ω ρ (World.withHelpless helpless) _ actor c
      (@resume ω ρ (World.withHelpless helpless) _ actor body) n q =
      rounds actor c (body.resume actor) n q := by
  induction n generalizing q with
  | zero => rfl
  | succ n ih =>
    cases q with
    | some p => simp only [rounds, Exec.round, ih none rfl, h (some p) hq]
    | none => simp only [rounds, Exec.round, ih none rfl, evalBoolean_withHelpless, h none rfl]

omit [Chance ρ] in
theorem kept_eq_pure {q : Option Point} (hq : q.any (·.awaits) = false) :
    (kept actor q : Exec ω ρ (Option Point)) = pure q := by
  funext m
  change EStateM.Result.ok (if q.any (·.awaits) && World.helpless m.world actor.unit then none else q) m = _
  rw [hq, Bool.false_and, if_neg Bool.false_ne_true]
  rfl

theorem awaits_childPoint {q : Option Point} (hq : q.any (·.awaits) = false) :
    (Point.childPoint q).any (·.awaits) = false := by
  rcases q with _ | _ | _ | ⟨i, p⟩
  · rfl
  · rfl
  · rfl
  · exact hq

theorem neverAsks (s : Script) : s.NeverAsks ω ρ actor helpless := by
  intro q hq
  have hchild := awaits_childPoint hq
  induction s generalizing q with
  | sequence loc body ih =>
    have hbody : ∀ s ∈ body, s.NeverAsks ω ρ actor helpless :=
      fun s hs q hq ↦ ih s hs q hq (awaits_childPoint hq)
    simp only [resume, resumeRest_withHelpless hbody _ _ _ hchild]
  | branch loc c yes no ihy ihn =>
    have hkept := @kept_eq_pure ω ρ (World.withHelpless helpless) actor q hq
    simp only [resume, hkept, kept_eq_pure hq, pure_bind, evalBoolean_withHelpless, ihy none rfl rfl,
      ihn none rfl rfl]
    cases hp : Point.childPoint q with
    | none => rfl
    | some p =>
      rw [hp] at hchild
      have hp' := awaits_childPoint (q := some p) hchild
      simp only [ihy (some p) hchild hp', ihn (some p) hchild hp']
  | loop loc c body ih =>
    have hbody : body.NeverAsks ω ρ actor helpless := fun q hq ↦ ih q hq (awaits_childPoint hq)
    simp only [resume, rounds_withHelpless hbody _ _ hchild]
  | leave loc => simp only [resume]
  | assign loc name e => simp only [resume, eval_withHelpless]
  | print loc e => simp only [resume, eval_withHelpless]
  | void loc => simp only [resume]
  | action loc a e =>
    simp only [resume, commandOf_withHelpless]
    rfl

end Helpless

end Script

/-- The marks without the branch of an `if`, which has number `id`: all below it is blank. -/
def Marks.release (k : Marks) (s : Script) (id : Nat) : Marks :=
  (k.clear ((s.descendantIds id).filter (· ≠ id))).update id ({ · with branch := none })

theorem Marks.get_release {k : Marks} {s : Script} {site : Site} (hsite : s.site? site.id = some site)
    (hid : site.id < k.table.size) (j : Nat) : (k.release s site.id).get j =
      if j = site.id then { k.get j with branch := none }
      else if site.id ≤ j ∧ j < site.id + site.script.size then {} else k.get j := by
  have hmem : j ∈ s.descendantIds site.id ↔ site.id ≤ j ∧ j < site.id + site.script.size := by
    rw [Script.descendantIds, hsite]
    exact site.script.mem_descendants site.id j
  rw [release, get_update (by rw [size_clear]; exact hid), get_clear, get_clear]
  by_cases hj : j = site.id <;> simp [hj, hmem]

theorem Site.sent_of_untaken {k : Marks} {site : Site} (h : site.untaken k = true) :
    site.sent k = false := by
  rw [sent]
  split
  · next hs => simpa [untaken, hs] using h
  · rfl

namespace Program

open Script

/-- The program goes on at an action whose command has gone out. -/
def awaiting (p : Program) : Bool := (p.current?.bind p.script.site?).any (·.sent p.marks)

def isIf (p : Program) (id : Nat) : Bool := (p.script.site? id).any (·.script.isBranch)

def outermostIf? (p : Program) : Option Nat :=
  (p.script.trail p.marks).find? p.isIf

variable {s : Script} {p : Program} {q q' : Point}

theorem StandsAt.awaiting_eq {q : Option Point} (h : p.StandsAt s q) :
    p.awaiting = q.any (·.awaits) := by
  cases q with
  | none =>
    rw [awaiting, current?, Script.current?, h.script, h.trail_eq_nil]
    rfl
  | some q =>
    obtain ⟨site, hsite, hcurrent, hstep⟩ := h.current
    rw [awaiting, hcurrent, Option.bind_some, h.script, hsite, Option.any_some, Option.any_some]
    cases hq : q.awaits with
    | true => simpa [hq] using hstep
    | false =>
      apply Site.sent_of_untaken
      simpa [hq] using hstep

theorem isIf_of_mem (hs : p.script = s) (site : Site) (hsite : site ∈ s.sitesFrom 0 []) :
    p.isIf site.id = site.script.isBranch := by
  rw [isIf, hs, site?_of_mem hsite, Option.any_some]

theorem StandsAt.outermostIf?_eq_none (h : p.StandsAt s (some q)) (hq : q.release? s = none) :
    p.outermostIf? = none := by
  have hfind := Holds.find?_eq_none h.stands (isIf_of_mem h.script) hq
  rwa [← h.script] at hfind

theorem StandsAt.release (h : p.StandsAt s (some q)) (hq : q.release? s = some q') :
    ∃ id, p.outermostIf? = some id ∧
      ({ p with marks := p.marks.release s id } : Program).StandsAt s (some q') := by
  obtain ⟨site, hfirst⟩ := Holds.firstIf h.stands (isIf_of_mem h.script) hq
  have hsite : s.site? site.id = some site := site?_of_mem hfirst.mem
  have hfind := hfirst.first
  rw [← h.script] at hfind
  have hpos := site.script.size_pos
  have hhi := hfirst.hi
  have hid : site.id < p.marks.table.size := by rw [h.size]; omega
  have hget := Marks.get_release hsite hid
  have hsize : (p.marks.release s site.id).table.size = p.marks.table.size := by
    rw [Marks.release, Marks.size_update, Marks.size_clear]
  refine ⟨site.id, hfind, h.script, hsize.trans h.size, ?_, fun hstop ↦ ?_⟩
  · apply hfirst.released
    · refine ⟨hsize, fun j hj ↦ ?_⟩
      rw [hget, if_neg (by omega), if_neg (by omega)]
    · rw [hget, if_pos rfl]
    · intro j hj hj'
      rw [hget, if_neg (by omega), if_pos (by omega)]
  · cases h.stopped hstop

variable {ω ρ : Type} [World ω] [Chance ρ]

theorem StandsAt.not_stopped (h : p.StandsAt s (some q)) : p.stopped = false :=
  Bool.eq_false_iff.mpr fun hstop ↦ by cases h.stopped hstop

theorem StandsAt.advance_busy (hs : s.Placed false) (h : p.StandsAt s (some q))
    (hq : q.awaits = true) (budget : Nat) (actor : Actor) (world : ω) (source : ρ)
    (hbusy : World.busy world actor.unit = true)
    (hstay : World.helpless world actor.unit = false ∨ q.release? s = none) :
    p.advance budget actor world source =
      ⟨.ok (.suspended .awaitingAction), { p with state := p.state.grant budget }, world, source⟩ := by
  let m : Machine ω ρ := ⟨p.state.grant budget, p.marks, world, source⟩
  have hleaves := advance_leaves hs h h.not_stopped budget actor m rfl
  rw [Holds.resume_busy h.stands hq rfl hbusy hstay] at hleaves
  apply hleaves.unique rfl rfl
  exact ⟨p.marks, rfl, h.script, h.size, h.stands, h.stopped⟩

theorem StandsAt.advance_released (hs : s.Placed false) (h : p.StandsAt s (some q))
    (hq : q.awaits = true) (hq' : q.release? s = some q') (budget : Nat) (actor : Actor) (world : ω)
    (source : ρ) (hhelpless : World.helpless world actor.unit = true) :
    ∃ id, p.outermostIf? = some id ∧ p.advance budget actor world source =
      ({ p with marks := p.marks.release s id } : Program).advance budget actor world source := by
  obtain ⟨id, hid, hreleased⟩ := h.release hq'
  let m : Machine ω ρ := ⟨p.state.grant budget, p.marks, world, source⟩
  have hleaves := advance_leaves hs h h.not_stopped budget actor m rfl
  have hleaves' := advance_leaves hs hreleased h.not_stopped budget actor m rfl
  rw [Holds.resume_released h.stands hq rfl hhelpless hq'] at hleaves
  exact ⟨id, hid, hleaves.unique rfl rfl hleaves'⟩

theorem StandsAt.advance_withHelpless {q : Option Point} (hs : s.Placed false) (h : p.StandsAt s q)
    (hq : q.any (·.awaits) = false) (budget : Nat) (actor : Actor) (world : ω) (source : ρ)
    (helpless : ω → UnitId → Bool) :
    @Program.advance ω ρ (World.withHelpless helpless) _ p budget actor world source =
      p.advance budget actor world source := by
  cases hrun : p.stopped with
  | true =>
    have hstopped := @advance_stopped ω ρ (World.withHelpless helpless) _ p hrun
    exact (hstopped budget actor world source).trans (advance_stopped hrun _ _ _ _).symm
  | false =>
    let m : Machine ω ρ := ⟨p.state.grant budget, p.marks, world, source⟩
    have hleaves := advance_leaves hs h hrun budget actor m rfl
    have hleaves' :=
      @advance_leaves ω ρ (World.withHelpless helpless) _ p s q hs h hrun budget actor m rfl
    rw [neverAsks s q hq] at hleaves'
    exact hleaves'.unique rfl rfl hleaves

/-- What a program makes of a tick. While it waits for a busy unit it does nothing. If the unit is
helpless, it goes on as if the outermost `if` on its way had no branch and nothing below that had been
started, be the unit busy or not. In any other place it is all one whether the unit is helpless. -/
theorem Reached.advance_awaiting {d : Statement} {capacity : Nat} (hs : Script.build d = .ok s)
    (hp : p.Reached s capacity) (budget : Nat) (actor : Actor) (world : ω) (source : ρ) :
    (p.awaiting = true → World.busy world actor.unit = true →
      World.helpless world actor.unit = false ∨ p.outermostIf? = none →
      p.advance budget actor world source =
        ⟨.ok (.suspended .awaitingAction), { p with state := p.state.grant budget }, world, source⟩) ∧
    (p.awaiting = true → World.helpless world actor.unit = true →
      ∀ id, p.outermostIf? = some id →
        p.advance budget actor world source =
          ({ p with marks := p.marks.release s id } : Program).advance budget actor world source) ∧
    (p.awaiting = false → ∀ helpless : ω → UnitId → Bool,
      @Program.advance ω ρ (World.withHelpless helpless) _ p budget actor world source =
        p.advance budget actor world source) := by
  have hplaced := placed_of_build hs
  obtain ⟨q, hq⟩ := hp.standsAt hplaced
  have hawaiting := hq.awaiting_eq
  cases q with
  | none =>
    refine ⟨fun hwait ↦ ?_, fun hwait ↦ ?_, fun _ ↦ hq.advance_withHelpless hplaced rfl _ _ _ _⟩
    · cases hawaiting.symm.trans hwait
    · cases hawaiting.symm.trans hwait
  | some q =>
    refine ⟨fun hwait hbusy hstay ↦ ?_, fun hwait hhelpless id hid ↦ ?_, fun hwait ↦ ?_⟩
    · apply hq.advance_busy hplaced (hawaiting.symm.trans hwait) _ _ _ _ hbusy
      refine hstay.imp_right fun hnone ↦ ?_
      cases hrelease : q.release? s with
      | none => rfl
      | some q' =>
        obtain ⟨id, hid, -⟩ := hq.release hrelease
        cases hid.symm.trans hnone
    · cases hrelease : q.release? s with
      | none => cases (hq.outermostIf?_eq_none hrelease).symm.trans hid
      | some q' =>
        obtain ⟨id', hid', hadvance⟩ := hq.advance_released hplaced (hawaiting.symm.trans hwait)
          hrelease budget actor world source hhelpless
        cases hid'.symm.trans hid
        exact hadvance
    · exact hq.advance_withHelpless hplaced (hawaiting.symm.trans hwait) _ _ _ _

theorem advance_awaiting_station :
    let actor : Actor := ⟨⟨1⟩, some ⟨2, 0, 0⟩⟩
    let busy : Canned := { rows := [{ id := ⟨1⟩, busy := true }] }
    let stuck : Canned := { rows := [{ id := ⟨1⟩, busy := true, helpless := true }] }
    let p := start (ofStatement station) 4
    let p' := (p.advance 5 actor busy ({} : WordSource)).program
    (p'.awaiting = true ∧ p'.outermostIf? = some 1 ∧ p.awaiting = false) ∧
      p'.advance 3 actor busy ({} : WordSource) =
        ⟨.ok (.suspended .awaitingAction), { p' with state := p'.state.grant 3 }, busy, {}⟩ ∧
      p'.advance 3 actor stuck ({} : WordSource) =
        ({ p' with marks := p'.marks.release (ofStatement station) 1 } : Program).advance 3 actor stuck
          ({} : WordSource) ∧
      ∀ helpless : Canned → UnitId → Bool,
        @Program.advance Canned WordSource (World.withHelpless helpless) _ p 3 actor stuck {} =
          p.advance 3 actor stuck ({} : WordSource) := by
  intro actor busy stuck p p'
  have hbuild : build station = .ok (ofStatement station) := rfl
  have hp : p.Reached (ofStatement station) 4 := .start
  have hp' : p'.Reached (ofStatement station) 4 := hp.advance 5 actor busy _
  have hfacts : p'.awaiting = true ∧ p'.outermostIf? = some 1 ∧ p.awaiting = false := by
    decide +kernel
  obtain ⟨hwait, hif, hfresh⟩ := hfacts
  refine ⟨⟨hwait, hif, hfresh⟩, ?_, ?_, ?_⟩
  · exact (Reached.advance_awaiting hbuild hp' 3 actor busy ({} : WordSource)).1 hwait rfl (.inl rfl)
  · exact (Reached.advance_awaiting hbuild hp' 3 actor stuck ({} : WordSource)).2.1 hwait rfl 1 hif
  · exact (Reached.advance_awaiting hbuild hp 3 actor stuck ({} : WordSource)).2.2 hfresh

end Program

end Errand
