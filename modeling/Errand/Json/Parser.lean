import Errand.Json.Skip

namespace Errand.Json

/-- At least one and at most `n` items, with commas between them and `close` behind them. -/
def separated (item : Reader α) (close : Char) : Nat → Reader (List α)
  | 0, _ => none
  | n + 1, cs => do
    let (a, cs) ← item cs
    match skipBlank cs with
    | [] => none
    | c :: cs =>
      if c == ',' then
        let (as, cs) ← separated item close n cs
        some (a :: as, cs)
      else if c == close then some ([a], cs)
      else none

def enclosed (item : Reader α) (close : Char) (cs : List Char) : Option (List α × List Char) :=
  match skipBlank cs with
  | [] => none
  | c :: cs => if c == close then some ([], cs) else separated item close (cs.length + 1) (c :: cs)

def member (item : Reader Json) (cs : List Char) : Option ((Option String × Json) × List Char) := do
  let (name, cs) ← fieldName cs
  let (value, cs) ← item cs
  some ((name, value), cs)

def ofMembers (members : List (Option String × Json)) : Json :=
  match members.mapM fun (name, value) ↦ name.map (·, value) with
  | some fields => obj fields
  | none => unfit

/-- A value with at most `depth` arrays and objects around any of its parts. -/
def value : Nat → Reader Json
  | 0, cs =>
    match skipBlank cs with
    | [] => none
    | c :: cs =>
      match Bracket.opening? c with
      | some _ => (skipValue (c :: cs)).map (unfit, ·)
      | none => scalar (c :: cs)
  | depth + 1, cs =>
    match skipBlank cs with
    | '[' :: cs => do
      let (items, cs) ← enclosed (value depth) ']' cs
      some (arr items, cs)
    | '\x7b' :: cs => do
      let (members, cs) ← enclosed (member (value depth)) '\x7d' cs
      some (ofMembers members, cs)
    | cs => scalar cs

/-- The deepest nesting that is read. -/
def maxDepth : Nat := 127

/-- A text that is one value and blanks around it. -/
def parse? (text : String) : Option Json := do
  let (j, cs) ← value maxDepth text.toList
  if (skipBlank cs).isEmpty then some j else none

end Errand.Json
