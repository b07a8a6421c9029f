import Errand.Definition.Expr

namespace Errand

structure Location where
  line : UInt64 := 0
  column : UInt64 := 0
  deriving DecidableEq, Repr, Inhabited

def Location.text (l : Location) : String :=
  toString l.line.toNat ++ ":" ++ toString l.column.toNat

inductive Action where
  | moveTo
  | work
  | follow
  | attack
  deriving DecidableEq, Repr, Inhabited

namespace Action

def name : Action → String
  | moveTo => "move_to"
  | work => "work"
  | follow => "follow"
  | attack => "attack"

def ofName? : String → Option Action
  | "move_to" => some moveTo
  | "work" => some work
  | "follow" => some follow
  | "attack" => some attack
  | _ => none

def targetKind : Action → Kind
  | moveTo | work => .position
  | follow | attack => .unit

end Action

inductive Statement where
  | sequence (loc : Location) (body : List Statement)
  | branch (loc : Location) (condition : Expr) (yes : Statement) (no : Option Statement)
  | loop (loc : Location) (condition : Expr) (body : Statement)
  /-- Leaves the innermost loop around it. -/
  | leave (loc : Location)
  | assign (loc : Location) (name : String) (value : Expr)
  | print (loc : Location) (value : Expr)
  | void (loc : Location)
  | action (loc : Location) (action : Action) (target : Expr)
  deriving Repr, Inhabited

namespace Statement

def location : Statement → Location
  | sequence l _ | branch l _ _ _ | loop l _ _ | leave l | assign l _ _ | print l _ | void l
  | action l _ _ => l

def relocate (l : Location) : Statement → Statement
  | sequence _ body => sequence l body
  | branch _ c yes no => branch l c yes no
  | loop _ c body => loop l c body
  | leave _ => leave l
  | assign _ n e => assign l n e
  | print _ e => print l e
  | void _ => void l
  | action _ a e => action l a e

@[elab_as_elim, induction_eliminator]
theorem inductionOn {motive : Statement → Prop}
    (sequence : ∀ loc body, (∀ s ∈ body, motive s) → motive (.sequence loc body))
    (branch : ∀ loc condition yes no, motive yes → (∀ s ∈ no, motive s) →
      motive (.branch loc condition yes no))
    (loop : ∀ loc condition body, motive body → motive (.loop loc condition body))
    (leave : ∀ loc, motive (.leave loc))
    (assign : ∀ loc name value, motive (.assign loc name value))
    (print : ∀ loc value, motive (.print loc value))
    (void : ∀ loc, motive (.void loc))
    (action : ∀ loc a target, motive (.action loc a target)) (s : Statement) : motive s := by
  refine Statement.rec sequence branch loop leave assign print void action ?_ ?_ ?_ ?_ s
  · intro s hs
    cases hs
  · intro s ss hs hss t ht
    rcases List.mem_cons.mp ht with rfl | ht
    · exact hs
    · exact hss t ht
  · intro s hs
    cases hs
  · intro s hs t ht
    cases ht
    exact hs

end Statement

end Errand
