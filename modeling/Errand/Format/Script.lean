import Errand.Definition.Statement
import Errand.Format.Value

namespace Errand

def Json.tagged (kind : String) (fields : List (String × Json)) : Json :=
  .obj (("kind", .str kind) :: fields)

/-- The name of a form, or the form with the given number. -/
def Json.form? (forms : List String) : Json → Option String
  | str s => some s
  | int n => if 0 ≤ n then forms[n.toNat]? else none
  | _ => none

namespace Expr

def forms : List String :=
  ["true", "false", "not", "and", "or", "is_passable", "is_solid", "is_alive", "is_friend",
    "is_enemy", "carries_item", "position", "here", "resource", "next_to", "position_of",
    "selected", "this", "friend", "enemy", "any", "variable"]

def toJson : Expr → Json
  | boolean true => .tagged "true" []
  | boolean false => .tagged "false" []
  | not a => .tagged "not" [("operand", a.toJson)]
  | and a b => .tagged "and" [("left", a.toJson), ("right", b.toJson)]
  | or a b => .tagged "or" [("left", a.toJson), ("right", b.toJson)]
  | isPassable a => .tagged "is_passable" [("position", a.toJson)]
  | isSolid a => .tagged "is_solid" [("position", a.toJson)]
  | isAlive a => .tagged "is_alive" [("unit", a.toJson)]
  | isFriend a => .tagged "is_friend" [("unit", a.toJson)]
  | isEnemy a => .tagged "is_enemy" [("unit", a.toJson)]
  | carriesItem a => .tagged "carries_item" [("unit", a.toJson)]
  | position p =>
    .tagged "position" [("x", .ofInt32 p.x), ("y", .ofInt32 p.y), ("z", .ofInt32 p.z)]
  | here => .tagged "here" []
  | resource r => .tagged "resource" [("resource", r.toJson)]
  | nextTo a => .tagged "next_to" [("position", a.toJson)]
  | positionOf a => .tagged "position_of" [("unit", a.toJson)]
  | selected => .tagged "selected" []
  | self => .tagged "this" []
  | friend => .tagged "friend" []
  | enemy => .tagged "enemy" []
  | any => .tagged "any" []
  | var name => .tagged "variable" [("name", .str name)]

def ofJson? (j : Json) : Option Expr := do
  let kind ← (← j.need 0 "kind").1.form? forms
  let operand (i : Nat) (name : String) : Option Expr := do
    let ⟨v, _⟩ ← j.need i name
    ofJson? v
  let coordinate (i : Nat) (name : String) : Option Int32 := do
    (← j.need i name).1.int32?
  let unary (name : String) (f : Expr → Expr) : Option Expr := do
    j.atMost 2
    return f (← operand 1 name)
  let binary (f : Expr → Expr → Expr) : Option Expr := do
    j.atMost 3
    return f (← operand 1 "left") (← operand 2 "right")
  let plain (e : Expr) : Option Expr := do
    j.atMost 1
    return e
  match kind with
  | "true" => plain (boolean true)
  | "false" => plain (boolean false)
  | "not" => unary "operand" not
  | "and" => binary and
  | "or" => binary or
  | "is_passable" => unary "position" isPassable
  | "is_solid" => unary "position" isSolid
  | "is_alive" => unary "unit" isAlive
  | "is_friend" => unary "unit" isFriend
  | "is_enemy" => unary "unit" isEnemy
  | "carries_item" => unary "unit" carriesItem
  | "position" =>
    j.atMost 4
    return position ⟨← coordinate 1 "x", ← coordinate 2 "y", ← coordinate 3 "z"⟩
  | "here" => plain here
  | "resource" =>
    j.atMost 2
    return resource (← Resource.ofJson? true (← j.need 1 "resource").1)
  | "next_to" => unary "position" nextTo
  | "position_of" => unary "unit" positionOf
  | "selected" => plain selected
  | "this" => plain self
  | "friend" => plain friend
  | "enemy" => plain enemy
  | "any" => plain any
  | "variable" =>
    j.atMost 2
    return var (← (← j.need 1 "name").1.str?)
  | _ => none
termination_by sizeOf j

/-- An expression that stands alone: its kind is a name. Those inside it are read as in a script. -/
def ofText? (j : Json) : Option Expr := do
  j.wholly
  discard (← j.need 0 "kind").1.str?
  ofJson? j

end Expr

namespace Location

def toJson (l : Location) : Json := .obj [("line", .ofUInt64 l.line), ("column", .ofUInt64 l.column)]

def ofJson? (j : Json) : Option Location := do
  j.atMost 2
  return ⟨← (← j.need 0 "line").1.uint64?, ← (← j.need 1 "column").1.uint64?⟩

end Location

namespace Action

def toJson (a : Action) : Json := .str a.name

def ofJson? (inScript : Bool) (j : Json) : Option Action := (j.name? inScript).bind ofName?

end Action

namespace Statement

def forms : List String :=
  ["sequence", "if", "while", "break", "assign", "print", "void", "action"]

def located (kind : String) (fields : List (String × Json)) (l : Location) : Json :=
  .tagged kind (fields ++ [("location", l.toJson)])

mutual

def toJson : Statement → Json
  | sequence l body => located "sequence" [("statements", .arr (toJsonAll body))] l
  | branch l c yes no =>
    located "if"
      [("condition", c.toJson), ("then_branch", yes.toJson), ("else_branch", toJsonOption no)] l
  | loop l c body => located "while" [("condition", c.toJson), ("body", body.toJson)] l
  | leave l => located "break" [] l
  | assign l name e => located "assign" [("variable", .str name), ("value", e.toJson)] l
  | print l e => located "print" [("value", e.toJson)] l
  | void l => located "void" [] l
  | action l a e => located "action" [("action", a.toJson), ("target", e.toJson)] l

def toJsonAll : List Statement → List Json
  | [] => []
  | s :: ss => s.toJson :: toJsonAll ss

def toJsonOption : Option Statement → Json
  | none => .null
  | some s => s.toJson

end

def ofJson? (j : Json) : Option Statement := do
  j.named
  let kind ← (← j.need 0 "kind").1.form? forms
  let loc ← j.orElse 0 "location" {} Location.ofJson?
  let expr (name : String) : Option Expr := do
    Expr.ofJson? (← j.need 0 name).1
  let child (name : String) : Option Statement := do
    let ⟨v, _⟩ ← j.need 0 name
    ofJson? v
  match kind with
  | "sequence" =>
    let ⟨v, _⟩ ← j.need 0 "statements"
    return sequence loc (← (← v.items?).mapM fun ⟨s, _⟩ ↦ ofJson? s)
  | "if" =>
    let no ← match ← j.find 0 "else_branch" with
      | none => some none
      | some ⟨.null, _⟩ => some none
      | some ⟨v, _⟩ => (ofJson? v).map some
    return branch loc (← expr "condition") (← child "then_branch") no
  | "while" => return loop loc (← expr "condition") (← child "body")
  | "break" => return leave loc
  | "assign" =>
    return assign loc (← (← j.need 0 "variable").1.str?) (← expr "value")
  | "print" => return print loc (← expr "value")
  | "void" => return void loc
  | "action" =>
    return action loc (← Action.ofJson? true (← j.need 0 "action").1) (← expr "target")
  | _ => none
termination_by sizeOf j

def ofText? (j : Json) : Option Statement := do
  j.whollyBut "location"
  ofJson? j

end Statement

end Errand
