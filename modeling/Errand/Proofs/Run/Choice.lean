import Errand.Proofs.Effect
import Errand.Proofs.Script.Faults
import Errand.Run.Eval
import Errand.World.Canned

namespace Errand

variable {ω ρ α β : Type}

/-- The steps come to the same with every source of chance, and leave it as it is. -/
def Foregone (f : (ρ : Type) → [Chance ρ] → Draw ρ α) : Prop :=
  ∃ x : Except EvalError α, ∀ (ρ : Type) [Chance ρ], f ρ = Draw.ofExcept x

theorem foregone_ofExcept (x : Except EvalError α) : Foregone fun _ _ ↦ Draw.ofExcept x :=
  ⟨x, fun _ _ ↦ rfl⟩

theorem foregone_pure (a : α) : Foregone fun _ _ ↦ pure a := foregone_ofExcept (.ok a)

theorem foregone_throw (e : EvalError) : Foregone (α := α) fun _ _ ↦ throw e :=
  foregone_ofExcept (.error e)

theorem Foregone.bind {f : (ρ : Type) → [Chance ρ] → Draw ρ α}
    {g : α → (ρ : Type) → [Chance ρ] → Draw ρ β} (hf : Foregone f)
    (hg : ∀ a, (∀ (ρ : Type) [Chance ρ], f ρ = pure a) → Foregone (g a)) :
    Foregone fun ρ _ ↦ f ρ >>= fun a ↦ g a ρ := by
  obtain ⟨x, hx⟩ := hf
  cases x with
  | error e =>
    refine ⟨.error e, fun ρ _ ↦ ?_⟩
    change f ρ >>= _ = _
    rw [hx]
    rfl
  | ok a =>
    obtain ⟨y, hy⟩ := hg a hx
    refine ⟨y, fun ρ _ ↦ ?_⟩
    change f ρ >>= _ = _
    rw [hx, ← hy]
    rfl

/-- What a choice comes to among all that satisfy `P`, made with source `s`: one of them, or the
failure `e` if there is none, and then the source is not asked. -/
structure Chosen (P : α → Prop) (value : α → β) (e : EvalError) (s : ρ)
    (o : EStateM.Result EvalError ρ β) : Prop where
  satisfies : ∀ b s', o = .ok b s' → ∃ a, P a ∧ b = value a
  fails_iff : (∃ e' s', o = .error e' s') ↔ ∀ a, ¬ P a
  unasked : ∀ e' s', o = .error e' s' → e' = e ∧ s' = s

section

variable [Chance ρ]

theorem Draw.choose_nil (e : EvalError) (s : ρ) :
    (Draw.choose [] e : Draw ρ α) s = .error e s := rfl

theorem Draw.exists_choose {as : List α} (h : as ≠ []) (e : EvalError) (s : ρ) :
    ∃ a ∈ as, ∃ s', Draw.choose as e s = .ok a s' := by
  have hpos : 0 < as.length := List.length_pos_iff.2 h
  refine ⟨as.get (Chance.pick as.length hpos s).1, List.get_mem _ _,
    (Chance.pick as.length hpos s).2, ?_⟩
  simp only [Draw.choose, Chance.choose, hpos, dite_true]

theorem Draw.chosen (as : List α) {P : α → Prop} (hP : ∀ a, a ∈ as ↔ P a) (value : α → β)
    (e : EvalError) (s : ρ) :
    Chosen P value e s ((do return value (← Draw.choose as e) : Draw ρ β) s) := by
  by_cases has : as = []
  · subst has
    rw [bind_apply, Draw.choose_nil]
    refine ⟨fun b s' h ↦ (by cases h), iff_of_true ⟨e, s, rfl⟩ fun a ha ↦ ?_, fun e' s' h ↦ ?_⟩
    · cases (hP a).2 ha
    · cases h
      exact ⟨rfl, rfl⟩
  · obtain ⟨a, ha, s', hs⟩ := Draw.exists_choose has e s
    rw [bind_of_ok hs]
    refine ⟨fun b t h ↦ ?_, iff_of_false (fun ⟨e', t, h⟩ ↦ by cases h) fun h ↦ h a ((hP a).1 ha),
      fun e' t h ↦ by cases h⟩
    cases h
    exact ⟨a, (hP a).1 ha, rfl⟩

end

namespace Expr

def choosing : Expr → Bool
  | nextTo _ | any => true
  | _ => false

def NeverChooses (e : Expr) : Prop := ∀ p ∈ e.places .any, p.expr.choosing = false

structure Visit (ρ : Type) where
  expr : Expr
  source : ρ
  outcome : EStateM.Result EvalError ρ Value

def followUp (b : Bool) (next : ρ → List (Visit ρ)) : EStateM.Result EvalError ρ Value → List (Visit ρ)
  | .ok (.boolean c) s => if c = b then next s else []
  | _ => []

theorem mem_followUp {b : Bool} {next : ρ → List (Visit ρ)} {o : EStateM.Result EvalError ρ Value}
    {x : Visit ρ} : x ∈ followUp b next o ↔ ∃ s, o = .ok (.boolean b) s ∧ x ∈ next s := by
  rcases o with ⟨c | p | u, s⟩ | ⟨e, s⟩
  · by_cases hc : c = b <;> simp [followUp, hc]
  · simp [followUp]
  · simp [followUp]
  · simp [followUp]

variable [Chance ρ] [World ω] {v : View ω} {s : ρ}

/-- The evaluations that the evaluation of an expression consists of, itself the last. A connective
comes to its right operand only if the left one leaves the matter open. -/
def visits (v : View ω) (e : Expr) (s : ρ) : List (Visit ρ) :=
  (match e with
    | and a b => a.visits v s ++ followUp true (b.visits v) (a.eval v s)
    | or a b => a.visits v s ++ followUp false (b.visits v) (a.eval v s)
    | not a | isPassable a | isSolid a | isAlive a | isFriend a | isEnemy a | carriesItem a | nextTo a
    | positionOf a => a.visits v s
    | boolean _ | position _ | here | resource _ | selected | self | friend | enemy | any | var _ => [])
    ++ [⟨e, s, e.eval v s⟩]

theorem of_mem_visits {e : Expr} {x : Visit ρ} (h : x ∈ e.visits v s) :
    x = ⟨e, s, e.eval v s⟩ ∨ ∃ o ∈ e.operands, ∃ s', x ∈ o.1.visits v s' := by
  cases e with
  | and a b | or a b =>
    simp only [visits, List.mem_append, List.mem_singleton, mem_followUp] at h
    simp only [operands, List.mem_cons, List.not_mem_nil, or_false, exists_eq_or_imp, exists_eq_left]
    rcases h with (h | ⟨s', -, h⟩) | h
    · exact .inr (.inl ⟨s, h⟩)
    · exact .inr (.inr ⟨s', h⟩)
    · exact .inl h
  | not a | isPassable a | isSolid a | isAlive a | isFriend a | isEnemy a | carriesItem a | nextTo a
  | positionOf a =>
    simp only [visits, List.mem_append, List.mem_singleton] at h
    simp only [operands, List.mem_singleton, exists_eq_left]
    exact h.symm.imp_right fun h ↦ ⟨s, h⟩
  | boolean | position | here | resource | selected | self | friend | enemy | any | var =>
    simp only [visits, List.nil_append, List.mem_singleton] at h
    exact .inl h

theorem outcome_of_mem_visits {e : Expr} {x : Visit ρ} (h : x ∈ e.visits v s) :
    x.outcome = x.expr.eval v x.source := by
  induction e using operandInduction generalizing s with
  | h e ih =>
    rcases of_mem_visits h with rfl | ⟨o, ho, s', hx⟩
    · rfl
    · exact ih o ho hx

theorem mem_places_of_mem_visits {e : Expr} {x : Visit ρ} (slot : Kind) (h : x ∈ e.visits v s) :
    ∃ p ∈ e.places slot, p.expr = x.expr := by
  induction e using operandInduction generalizing s slot with
  | h e ih =>
    rw [places_eq]
    rcases of_mem_visits h with rfl | ⟨o, ho, s', hx⟩
    · exact ⟨_, List.mem_cons_self, rfl⟩
    · obtain ⟨p, hp, hexpr⟩ := ih o ho o.2 hx
      exact ⟨p, List.mem_cons_of_mem _ (List.mem_flatMap.2 ⟨o, ho, hp⟩), hexpr⟩

theorem eval_of_truth {e : Expr} {x : Value} {b : Bool} (hx : (e.eval v : Draw ρ Value) = pure x)
    (hb : (Draw.ofExcept x.toBoolean : Draw ρ Bool) = pure b) (s : ρ) :
    e.eval v s = .ok (.boolean b) s := by
  have hb := congrFun hb s
  rw [hx]
  cases x <;> cases hb
  rfl

theorem foregone_eval {e : Expr} (h : ∀ x ∈ e.visits v s, x.expr.choosing = false) :
    Foregone fun ρ _ ↦ (e.eval v : Draw ρ Value) := by
  induction e generalizing s with
  | boolean | position => exact foregone_pure _
  | here | resource | self | friend | enemy =>
    exact (foregone_ofExcept _).bind fun _ _ ↦ foregone_pure _
  | selected | var =>
    simp only [eval]
    split
    · exact foregone_pure _
    · exact foregone_throw _
  | not a ih | isPassable a ih | isSolid a ih | isAlive a ih | carriesItem a ih =>
    have ha := ih fun x hx ↦ h x (List.mem_append_left _ hx)
    exact ha.bind fun _ _ ↦ (foregone_ofExcept _).bind fun _ _ ↦ foregone_pure _
  | isFriend a ih | isEnemy a ih | positionOf a ih =>
    have ha := ih fun x hx ↦ h x (List.mem_append_left _ hx)
    refine ha.bind fun _ _ ↦ (foregone_ofExcept _).bind fun _ _ ↦ ?_
    exact (foregone_ofExcept _).bind fun _ _ ↦ foregone_pure _
  | and a b iha ihb =>
    have ha := iha fun x hx ↦ h x (List.mem_append_left _ (List.mem_append_left _ hx))
    refine ha.bind fun y hy ↦ (foregone_ofExcept _).bind fun c hc ↦ ?_
    cases c with
    | false => exact foregone_pure _
    | true =>
      -- With any source the left operand leaves the matter open, so with `s` the right one was visited.
      have hopen := eval_of_truth (hy ρ) (hc ρ) s
      have hb := ihb fun x hx ↦ h x
        (List.mem_append_left _ (List.mem_append_right _ (mem_followUp.2 ⟨s, hopen, hx⟩)))
      exact hb.bind fun _ _ ↦ (foregone_ofExcept _).bind fun _ _ ↦ foregone_pure _
  | or a b iha ihb =>
    have ha := iha fun x hx ↦ h x (List.mem_append_left _ (List.mem_append_left _ hx))
    refine ha.bind fun y hy ↦ (foregone_ofExcept _).bind fun c hc ↦ ?_
    cases c with
    | true => exact foregone_pure _
    | false =>
      have hopen := eval_of_truth (hy ρ) (hc ρ) s
      have hb := ihb fun x hx ↦ h x
        (List.mem_append_left _ (List.mem_append_right _ (mem_followUp.2 ⟨s, hopen, hx⟩)))
      exact hb.bind fun _ _ ↦ (foregone_ofExcept _).bind fun _ _ ↦ foregone_pure _
  | nextTo a => cases h _ (List.mem_append_right _ List.mem_cons_self)
  | any => cases h _ List.mem_cons_self

theorem NeverChooses.foregone {e : Expr} (h : e.NeverChooses) (v : View ω) :
    Foregone fun ρ _ ↦ (e.eval v : Draw ρ Value) := by
  -- One source is enough to see which expressions are visited.
  apply foregone_eval (s := ({} : WordSource))
  intro x hx
  obtain ⟨p, hp, hexpr⟩ := mem_places_of_mem_visits .any hx
  rw [← hexpr]
  exact h p hp

theorem nextTo_chosen {a : Expr} {q : Position} {s' : ρ} (ha : a.eval v s = .ok (.position q) s') :
    Chosen (fun p ↦ p ∈ World.neighbors v.world q ∧ World.passable v.world p = true) Value.position
      (.missingTarget (.noPassable q)) s' ((nextTo a).eval v s) := by
  simp only [eval]
  rw [bind_of_ok ha]
  exact Draw.chosen _ (fun p ↦ List.mem_filter) Value.position _ s'

theorem any_chosen (v : View ω) (s : ρ) :
    Chosen (fun u ↦ u ∈ World.units v.world ∧ World.terminated v.world u = false ∧
      u ≠ v.actor.unit) Value.unit (.deadReference .noOther) s (any.eval v s) := by
  refine Draw.chosen v.others (fun u ↦ ?_) Value.unit _ s
  simp [View.others, and_comm]

/-- An expression in which neither `nextTo` nor `any` stands has one outcome in a view, and leaves
every source of chance alone. In the evaluation of any expression, each `nextTo` comes to a passable
neighbour of the cube that its operand comes to, and each `any` to a live unit that is not the driven
one; they fail exactly if there is none, without asking the source. -/
theorem chance_only_chooses (v : View ω) (e : Expr) :
    (e.NeverChooses → ∃ x : Except EvalError Value, ∀ (ρ : Type) [Chance ρ] (s : ρ),
      e.eval v s = (Draw.ofExcept x : Draw ρ Value) s) ∧
    ∀ (ρ : Type) [Chance ρ] (s : ρ), ∀ x ∈ e.visits v s,
      (∀ a q s', x.expr = .nextTo a → a.eval v x.source = .ok (.position q) s' →
        Chosen (fun p ↦ p ∈ World.neighbors v.world q ∧ World.passable v.world p = true)
          Value.position (.missingTarget (.noPassable q)) s' x.outcome) ∧
      (x.expr = .any →
        Chosen (fun u ↦ u ∈ World.units v.world ∧ World.terminated v.world u = false ∧
          u ≠ v.actor.unit) Value.unit (.deadReference .noOther) x.source x.outcome) := by
  refine ⟨fun h ↦ ?_, fun ρ _ s x hx ↦ ⟨fun a q s' hexpr ha ↦ ?_, fun hexpr ↦ ?_⟩⟩
  · obtain ⟨x, hx⟩ := h.foregone v
    exact ⟨x, fun ρ _ s ↦ congrFun (hx ρ) s⟩
  · rw [outcome_of_mem_visits hx, hexpr]
    exact nextTo_chosen ha
  · rw [outcome_of_mem_visits hx, hexpr]
    exact any_chosen v x.source

def outpost : View Canned where
  world := {
    rows := [{ id := ⟨1⟩, position := some ⟨0, 0, 0⟩ }, { id := ⟨2⟩ }, { id := ⟨3⟩, terminated := true }]
    neighbors := [⟨1, 0, 0⟩, ⟨0, 1, 0⟩]
    passable := [⟨0, 1, 0⟩] }
  env := ∅
  actor := ⟨⟨1⟩, none⟩

/-- In a conjunction that comes to both of them, `any` and `nextTo` have one candidate each. -/
theorem chance_only_chooses_outpost :
    let e : Expr := .and (.isAlive .any) (.isPassable (.nextTo .here))
    let s : WordSource := { words := [0] }
    (∃ x ∈ e.visits outpost s, x.expr = .any ∧ ∀ b s', x.outcome = .ok b s' → b = .unit ⟨2⟩) ∧
    (∃ x ∈ e.visits outpost s, x.expr = .nextTo .here ∧
      ∀ b s', x.outcome = .ok b s' → b = .position ⟨0, 1, 0⟩) ∧
    (isAlive .self).NeverChooses ∧ ∃ x : Except EvalError Value, ∀ (ρ : Type) [Chance ρ] (s : ρ),
      (isAlive .self).eval outpost s = (Draw.ofExcept x : Draw ρ Value) s := by
  intro e s
  let s₁ : WordSource := { draws := 1 }
  have hleft : (isAlive .any).eval outpost s = .ok (.boolean true) s₁ := rfl
  have hany : ⟨.any, s, any.eval outpost s⟩ ∈ e.visits outpost s :=
    List.mem_append_left _ (List.mem_append_left _ (List.mem_append_left _ List.mem_cons_self))
  have hnextTo : ⟨.nextTo .here, s₁, (nextTo .here).eval outpost s₁⟩ ∈ e.visits outpost s := by
    apply List.mem_append_left
    apply List.mem_append_right
    rw [mem_followUp]
    exact ⟨s₁, hleft, List.mem_append_left _ (List.mem_append_right _ List.mem_cons_self)⟩
  have hself : (isAlive .self).NeverChooses := by simp [NeverChooses, places, choosing]
  obtain ⟨-, hchosen⟩ := chance_only_chooses outpost e
  refine ⟨⟨_, hany, rfl, fun b s' hb ↦ ?_⟩, ⟨_, hnextTo, rfl, fun b s' hb ↦ ?_⟩, hself,
    (chance_only_chooses outpost (.isAlive .self)).1 hself⟩
  · obtain ⟨u, hu, rfl⟩ := ((hchosen WordSource s _ hany).2 rfl).satisfies b s' hb
    simp only [outpost, World.units, List.map_cons, List.map_nil, List.mem_cons, List.not_mem_nil,
      or_false] at hu
    rcases hu with ⟨rfl | rfl | rfl, hlive, hother⟩
    · exact absurd rfl hother
    · rfl
    · cases hlive
  · obtain ⟨p, ⟨-, hp⟩, rfl⟩ :=
      ((hchosen WordSource s _ hnextTo).1 .here ⟨0, 0, 0⟩ s₁ rfl rfl).satisfies b s' hb
    exact congrArg Value.position (List.mem_singleton.1 (List.contains_iff_mem.1 hp))

end Expr

end Errand
