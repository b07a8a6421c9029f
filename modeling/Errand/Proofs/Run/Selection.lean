import Errand.Proofs.Effect
import Errand.Proofs.World.Bearing
import Errand.Run.Eval
import Errand.World.Canned
import Mathlib.Data.Prod.Lex

namespace Errand

def Relation.Links (own f : FactionId) : Relation → Prop
  | friend => f = own
  | enemy => f ≠ own

def Relation.expr : Relation → Expr
  | friend => .friend
  | enemy => .enemy

def Relation.asks (a : Expr) : Relation → Expr
  | friend => .isFriend a
  | enemy => .isEnemy a

theorem UnitId.compare_eq_lt {a b : UnitId} : compare a b = .lt ↔ a.val.toNat < b.val.toNat := by
  rw [← UInt64.lt_iff_toNat_lt]
  exact Std.compare_eq_lt (a := a.val)

theorem UnitId.precedes_iff {rank : UnitId → Nat} {a b : UnitId} :
    precedes rank a b = true ↔ toLex (rank a, a.val.toNat) < toLex (rank b, b.val.toNat) := by
  simp [precedes, Prod.Lex.toLex_lt_toLex, compare_eq_lt]

variable {ω ω' ρ : Type} [World ω] [World ω']

/-- A unit that comes into question when the closest unit with a relation is asked for. -/
structure View.Candidate (v : View ω) (r : Relation) (u : UnitId) : Prop where
  listed : u ∈ World.units v.world
  other : u ≠ v.actor.unit
  alive : World.terminated v.world u = false
  placed : ∃ q, World.position? v.world u = some q
  related : ∃ own f, World.faction? v.world v.actor.unit = some own ∧
    World.faction? v.world u = some f ∧ r.Links own f

/-- Of all candidates, `u` has the least distance from `p`, and of those the least number. -/
structure View.Closest (v : View ω) (r : Relation) (p : Position) (u : UnitId) : Prop where
  candidate : v.Candidate r u
  least : ∀ c q q', v.Candidate r c → World.position? v.world u = some q →
    World.position? v.world c = some q' →
    toLex (p.distanceSq q, u.val.toNat) ≤ toLex (p.distanceSq q', c.val.toNat)

/-- The worlds of two views have the same units, in whatever order and however often they list them,
and tell the same about each of them. -/
structure View.SameUnits (v : View ω) (v' : View ω') : Prop where
  actor : v'.actor.unit = v.actor.unit
  units : ∀ u, u ∈ World.units v'.world ↔ u ∈ World.units v.world
  terminated : ∀ u, World.terminated v'.world u = World.terminated v.world u
  position : ∀ u, World.position? v'.world u = World.position? v.world u
  faction : ∀ u, World.faction? v'.world u = World.faction? v.world u

namespace View

variable {v : View ω} {v' : View ω'} {r : Relation} {p : Position} {u : UnitId}

theorem relation_eq_ok :
    v.relation u = .ok r ↔ ∃ own f, World.faction? v.world v.actor.unit = some own ∧
      World.faction? v.world u = some f ∧ r.Links own f := by
  rw [relation]
  cases hown : World.faction? v.world v.actor.unit with
  | none => simp
  | some own =>
    cases hf : World.faction? v.world u with
    | none => simp
    | some f =>
      by_cases hsame : f = own <;> cases r <;> simp [Relation.Links, hsame]

theorem mem_candidates :
    (u ∈ v.others.filter fun u ↦ v.isRelated r u && (World.position? v.world u).isSome) ↔
      v.Candidate r u := by
  -- A failure to tell the relation counts as another relation.
  have hrelated : v.isRelated r u = true ↔ v.relation u = .ok r := by
    rw [isRelated]
    cases v.relation u <;> simp
  simp only [others, List.mem_filter, Bool.and_eq_true, decide_eq_true_eq, Bool.not_eq_true',
    hrelated, relation_eq_ok, Option.isSome_iff_exists]
  constructor
  · rintro ⟨⟨hlisted, hother, halive⟩, hrelation, hplaced⟩
    exact ⟨hlisted, hother, halive, hplaced, hrelation⟩
  · intro h
    exact ⟨⟨h.listed, h.other, h.alive⟩, h.related, h.placed⟩

theorem distanceFrom_of_position {q : Position} (h : World.position? v.world u = some q) :
    v.distanceFrom p u = p.distanceSq q := by
  rw [distanceFrom, h]

theorem closest_of_nearest? {us : List UnitId} (hus : ∀ u, u ∈ us ↔ v.Candidate r u)
    (h : nearest? (v.distanceFrom p) us = some u) : v.Closest r p u := by
  obtain ⟨hmem, hleast⟩ := nearest?_least (fun c ↦ toLex (v.distanceFrom p c, c.val.toNat))
    (fun _ _ h ↦ (UnitId.precedes_iff.1 h).le)
    (fun _ _ h ↦ not_lt.1 (mt UnitId.precedes_iff.2 h)) h
  refine ⟨(hus u).1 hmem, fun c q q' hc hq hq' ↦ ?_⟩
  have hle := hleast c ((hus c).2 hc)
  rwa [distanceFrom_of_position hq, distanceFrom_of_position hq'] at hle

theorem Closest.unique {u' : UnitId} (h : v.Closest r p u) (h' : v.Closest r p u') : u = u' := by
  obtain ⟨q, hq⟩ := h.candidate.placed
  obtain ⟨q', hq'⟩ := h'.candidate.placed
  have heq := le_antisymm (h.least u' q q' h'.candidate hq hq') (h'.least u q' q h.candidate hq' hq)
  have hval : u.val.toNat = u'.val.toNat := (Prod.mk.inj (toLex.injective heq)).2
  cases u
  cases u'
  exact congrArg UnitId.mk (UInt64.toNat_inj.1 hval)

inductive Selects (v : View ω) (r : Relation) : Except EvalError UnitId → Prop
  | unplaced (hp : World.position? v.world v.actor.unit = none) :
      Selects v r (.error (.deadReference (.unplaced v.actor.unit)))
  | closest {p : Position} {u : UnitId} (hp : World.position? v.world v.actor.unit = some p)
      (hu : v.Closest r p u) : Selects v r (.ok u)
  | nobody {p : Position} (hp : World.position? v.world v.actor.unit = some p)
      (hnone : ∀ u, ¬ v.Candidate r u) : Selects v r (.error (.deadReference (.noLive r)))

theorem selects_closestUnit (v : View ω) (r : Relation) : v.Selects r (v.closestUnit r) := by
  rw [closestUnit, here]
  cases hp : World.position? v.world v.actor.unit with
  | none => exact .unplaced hp
  | some p =>
    simp only [bind, Except.bind]
    cases hu : nearest? (v.distanceFrom p) _ with
    | some u => exact .closest hp (closest_of_nearest? (fun _ ↦ mem_candidates) hu)
    | none =>
      refine .nobody hp fun u hu' ↦ ?_
      have hmem := mem_candidates.2 hu'
      rw [nearest?_eq_none hu] at hmem
      cases hmem

theorem Selects.unique {x y : Except EvalError UnitId} (hx : v.Selects r x) (hy : v.Selects r y) :
    x = y := by
  cases hx with
  | unplaced hp =>
    cases hy with
    | unplaced => rfl
    | closest hq | nobody hq => cases hp.symm.trans hq
  | closest hp hu =>
    cases hy with
    | unplaced hq => cases hp.symm.trans hq
    | closest hq hu' =>
      cases hp.symm.trans hq
      rw [hu.unique hu']
    | nobody hq hnone => exact absurd hu.candidate (hnone _)
  | nobody hp hnone =>
    cases hy with
    | unplaced hq => cases hp.symm.trans hq
    | closest hq hu' => exact absurd hu'.candidate (hnone _)
    | nobody => rfl

theorem closestUnit_eq_ok :
    v.closestUnit r = .ok u ↔
      ∃ p, World.position? v.world v.actor.unit = some p ∧ v.Closest r p u := by
  constructor
  · intro h
    have hselects := v.selects_closestUnit r
    rw [h] at hselects
    cases hselects with
    | closest hp hu => exact ⟨_, hp, hu⟩
  · rintro ⟨p, hp, hu⟩
    exact (v.selects_closestUnit r).unique (.closest hp hu)

theorem closestUnit_fails_iff :
    (∃ cause, v.closestUnit r = .error (.deadReference cause)) ↔
      World.position? v.world v.actor.unit = none ∨ ∀ u, ¬ v.Candidate r u := by
  have hselects := v.selects_closestUnit r
  generalize v.closestUnit r = x at hselects
  cases hselects with
  | unplaced hp => exact iff_of_true ⟨_, rfl⟩ (.inl hp)
  | nobody hp hnone => exact iff_of_true ⟨_, rfl⟩ (.inr hnone)
  | closest hp hu =>
    refine iff_of_false (fun ⟨cause, h⟩ ↦ by cases h) ?_
    rintro (hq | hnone)
    · cases hp.symm.trans hq
    · exact hnone _ hu.candidate

namespace SameUnits

theorem symm (h : v.SameUnits v') : v'.SameUnits v where
  actor := h.actor.symm
  units u := (h.units u).symm
  terminated u := (h.terminated u).symm
  position u := (h.position u).symm
  faction u := (h.faction u).symm

theorem candidate (h : v.SameUnits v') (hu : v.Candidate r u) : v'.Candidate r u where
  listed := (h.units u).2 hu.listed
  other := by simpa only [h.actor] using hu.other
  alive := by simpa only [h.terminated] using hu.alive
  placed := by simpa only [h.position] using hu.placed
  related := by simpa only [h.faction, h.actor] using hu.related

theorem closest (h : v.SameUnits v') (hu : v.Closest r p u) : v'.Closest r p u where
  candidate := h.candidate hu.candidate
  least c q q' hc hq hq' :=
    hu.least c q q' (h.symm.candidate hc) ((h.position u).symm.trans hq)
      ((h.position c).symm.trans hq')

theorem selects (h : v.SameUnits v') {x : Except EvalError UnitId} (hx : v.Selects r x) :
    v'.Selects r x := by
  have hhere : World.position? v'.world v'.actor.unit = World.position? v.world v.actor.unit := by
    rw [h.position, h.actor]
  cases hx with
  | unplaced hp =>
    rw [← h.actor]
    exact .unplaced (hhere.trans hp)
  | closest hp hu => exact .closest (hhere.trans hp) (h.closest hu)
  | nobody hp hnone => exact .nobody (hhere.trans hp) fun u hu ↦ hnone u (h.symm.candidate hu)

theorem closestUnit_eq (h : v.SameUnits v') (r : Relation) : v'.closestUnit r = v.closestUnit r :=
  (v'.selects_closestUnit r).unique (h.selects (v.selects_closestUnit r))

end SameUnits

end View

namespace Relation

variable [Chance ρ] {v : View ω} {r : Relation} {u : UnitId} {s s' : ρ}

theorem eval_expr (r : Relation) (v : View ω) :
    (r.expr.eval v : Draw ρ Value) = do return .unit (← Draw.ofExcept (v.closestUnit r)) := by
  cases r <;> rfl

theorem eval_expr_eq_ok :
    r.expr.eval v s = .ok (.unit u) s' ↔ v.closestUnit r = .ok u ∧ s' = s := by
  rw [eval_expr, bind_apply]
  cases v.closestUnit r with
  | ok c => simp [Draw.ofExcept, pure_apply, eq_comm]
  | error e => simp [Draw.ofExcept, throw_apply]

theorem eval_expr_eq_error {e : EvalError} :
    r.expr.eval v s = .error e s' ↔ v.closestUnit r = .error e ∧ s' = s := by
  rw [eval_expr, bind_apply]
  cases v.closestUnit r with
  | ok c => simp [Draw.ofExcept, pure_apply]
  | error e => simp [Draw.ofExcept, throw_apply, eq_comm]

theorem eval_asks {a : Expr} (hlive : World.terminated v.world u = false)
    (hr : v.relation u = .ok r) (ha : a.eval v s = .ok (.unit u) s') :
    (r.asks a).eval v s = .ok (.boolean true) s' := by
  have hu : (Value.unit u).toUnit >>= v.live = .ok u := by
    simp [Value.toUnit, View.live, hlive, bind, Except.bind]
  cases r <;>
    · simp only [asks, Expr.eval]
      rw [bind_of_ok ha, hu]
      change (Draw.ofExcept (v.relation u) >>= _ : Draw ρ Value) s' = _
      rw [hr]
      rfl

/-- `friend` and `enemy` stand for the candidate with the least pair of distance and number, and they
fail if the driven unit stands nowhere or there is no candidate. So the answer does not depend on how
the world lists its units; it is a live unit, and one that has the relation. -/
theorem stands_for_closest (v : View ω) (r : Relation) (s : ρ) :
    (∀ u s', r.expr.eval v s = .ok (.unit u) s' ↔
      s' = s ∧ ∃ p, World.position? v.world v.actor.unit = some p ∧ v.Closest r p u) ∧
    ((∃ cause s', r.expr.eval v s = .error (.deadReference cause) s') ↔
      World.position? v.world v.actor.unit = none ∨ ∀ u, ¬ v.Candidate r u) ∧
    (∀ (ω' : Type) [World ω'] (v' : View ω'), v.SameUnits v' → r.expr.eval v' s = r.expr.eval v s) ∧
    ∀ u s', r.expr.eval v s = .ok (.unit u) s' → World.terminated v.world u = false ∧
      ∀ (a : Expr) (env : Environment) (t t' : ρ), a.eval { v with env } t = .ok (.unit u) t' →
        (r.asks a).eval { v with env } t = .ok (.boolean true) t' := by
  refine ⟨fun u s' ↦ ?_, ?_, fun ω' _ v' hsame ↦ ?_, fun u s' hu ↦ ?_⟩
  · rw [eval_expr_eq_ok, View.closestUnit_eq_ok, and_comm]
  · simp only [eval_expr_eq_error, ← View.closestUnit_fails_iff, exists_and_left, exists_eq, and_true]
  · rw [eval_expr, eval_expr, hsame.closestUnit_eq]
  · obtain ⟨p, -, hclosest⟩ := View.closestUnit_eq_ok.1 (eval_expr_eq_ok.1 hu).1
    have hu := hclosest.candidate
    refine ⟨hu.alive, fun a env t t' ha ↦ ?_⟩
    exact eval_asks hu.alive (View.relation_eq_ok.2 hu.related) ha

def picket : List Canned.Row :=
  [{ id := ⟨1⟩, faction := some ⟨0⟩, position := some ⟨0, 0, 0⟩ },
    { id := ⟨3⟩, faction := some ⟨0⟩, position := some ⟨2, 0, 0⟩ },
    { id := ⟨2⟩, faction := some ⟨0⟩, position := some ⟨0, 2, 0⟩ },
    { id := ⟨4⟩, faction := some ⟨0⟩, position := some ⟨1, 0, 0⟩, terminated := true },
    { id := ⟨5⟩, position := some ⟨0, 0, 1⟩ }]

/-- The lower number of the two is the answer, also when the units are listed backwards and twice. -/
theorem stands_for_closest_picket :
    let v : View Canned := ⟨{ rows := picket }, ∅, ⟨⟨1⟩, none⟩⟩
    let v' : View Canned := ⟨{ rows := picket.reverse ++ picket }, ∅, ⟨⟨1⟩, none⟩⟩
    let s : WordSource := {}
    v.SameUnits v' ∧ v.Closest .friend ⟨0, 0, 0⟩ ⟨2⟩ ∧
      Expr.friend.eval v' s = .ok (.unit ⟨2⟩) s ∧
      (Expr.isFriend .friend).eval v s = .ok (.boolean true) s ∧
      ∀ u, ¬ v.Candidate .enemy u := by
  intro v v' s
  have hrow : ∀ u, v'.world.row? u = v.world.row? u := by
    intro u
    by_cases hu : u ∈ picket.map (·.id)
    · simp only [picket, List.map_cons, List.map_nil, List.mem_cons, List.not_mem_nil, or_false] at hu
      rcases hu with rfl | rfl | rfl | rfl | rfl <;> rfl
    · have hnone : ∀ x ∈ picket, ¬ x.id = u := fun x hx hxu ↦ hu (List.mem_map.2 ⟨x, hx, hxu⟩)
      simp only [v, v', Canned.row?]
      rw [List.find?_eq_none.2 (by simpa using hnone), List.find?_eq_none.2 (by simpa using hnone)]
  have hsame : v.SameUnits v' := by
    refine ⟨rfl, fun u ↦ ?_, fun u ↦ ?_, fun u ↦ ?_, fun u ↦ ?_⟩
    · simp [v, v', World.units]
    · simp only [World.terminated, hrow]
    · simp only [World.position?, hrow]
    · simp only [World.faction?, hrow]
  have hfriend : Expr.friend.eval v s = .ok (.unit ⟨2⟩) s := rfl
  obtain ⟨hchoice, -, hlists, hrelated⟩ := stands_for_closest v .friend s
  obtain ⟨-, hfails, -, -⟩ := stands_for_closest v .enemy s
  obtain ⟨-, p, hp, hclosest⟩ := (hchoice ⟨2⟩ s).1 hfriend
  cases hp
  refine ⟨hsame, hclosest, (hlists Canned v' hsame).trans hfriend, ?_, ?_⟩
  · exact (hrelated ⟨2⟩ s hfriend).2 .friend ∅ s s hfriend
  · exact (hfails.1 ⟨_, s, rfl⟩).resolve_left (by decide)

end Relation

end Errand
