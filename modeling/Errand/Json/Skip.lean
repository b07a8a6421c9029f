import Errand.Json.Lexical

namespace Errand.Json

inductive Bracket where
  | square
  | curly
  deriving DecidableEq, Repr

namespace Bracket

def opening? : Char → Option Bracket
  | '[' => some square
  | '\x7b' => some curly
  | _ => none

def closing : Bracket → Char
  | square => ']'
  | curly => '\x7d'

def introduced : Bracket → List Char → Option (List Char)
  | square, cs => some cs
  | curly, cs => (fieldName cs).map (·.2)

end Bracket

/-- The text behind a value of which the given brackets are open. The flag says whether an inner value
has just ended or has still to come. Every step takes a character, so their number bounds the steps. -/
def skip : Nat → Bool → List Bracket → List Char → Option (List Char)
  | _, true, [], cs => some cs
  | 0, _, _, _ => none
  | n + 1, true, b :: bs, cs =>
    match skipBlank cs with
    | [] => none
    | c :: cs =>
      if c == ',' then
        match b.introduced cs with
        | some cs => skip n false (b :: bs) cs
        | none => none
      else if c == b.closing then skip n true bs cs
      else none
  | n + 1, false, bs, cs =>
    match skipBlank cs with
    | [] => none
    | c :: cs =>
      match Bracket.opening? c with
      | none =>
        match scalar (c :: cs) with
        | some (_, cs) => skip n true bs cs
        | none => none
      | some b =>
        match skipBlank cs with
        | [] => none
        | c :: cs =>
          if c == b.closing then skip n true bs cs
          else
            match b.introduced (c :: cs) with
            | some cs => skip n false (b :: bs) cs
            | none => none

def skipValue (cs : List Char) : Option (List Char) := skip (cs.length + 1) false [] cs

end Errand.Json
