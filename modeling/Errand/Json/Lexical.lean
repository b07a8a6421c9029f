import Errand.Json.Basic
import Errand.Json.Range

namespace Errand.Json

abbrev Reader (α : Type) := List Char → Option (α × List Char)

def isBlank (c : Char) : Bool := c == ' ' || c == '\n' || c == '\r' || c == '\t'

def skipBlank (cs : List Char) : List Char := cs.dropWhile isBlank

def digitsValue (ds : List Char) : Nat := ds.foldl (fun n d ↦ 10 * n + digitValue d) 0

def fraction : Reader (List Char)
  | '.' :: cs =>
    let ds := cs.takeWhile Char.isDigit
    if ds.isEmpty then none else some (ds, cs.dropWhile Char.isDigit)
  | cs => some ([], cs)

def sign : List Char → List Char × List Char
  | '+' :: cs => (['+'], cs)
  | '-' :: cs => (['-'], cs)
  | cs => ([], cs)

structure Exponent where
  literal : List Char := []
  value : Int := 0

def exponent : Reader Exponent
  | [] => some ({}, [])
  | e :: cs =>
    if e == 'e' || e == 'E' then
      let (s, rest) := sign cs
      let ds := rest.takeWhile Char.isDigit
      let n : Int := digitsValue ds
      if ds.isEmpty then none
      else some (⟨e :: s ++ ds, if s == ['-'] then -n else n⟩, rest.dropWhile Char.isDigit)
    else some ({}, e :: cs)

def magnitude (cs : List Char) : Option (List Char × List Char) :=
  let ds := cs.takeWhile Char.isDigit
  match ds with
  | [] => none
  | '0' :: _ :: _ => none
  | _ => some (ds, cs.dropWhile Char.isDigit)

def number (cs : List Char) : Option (Json × List Char) := do
  let (negative, cs) := match cs with
    | '-' :: rest => (true, rest)
    | _ => (false, cs)
  let (ds, cs) ← magnitude cs
  let (frac, cs) ← fraction cs
  let (exp, cs) ← exponent cs
  let n := digitsValue ds
  let minus := if negative then ['-'] else []
  let point := if frac.isEmpty then [] else '.' :: frac
  if !inRange ds frac exp.value then
    some (unfit, cs)
  else if frac.isEmpty && exp.literal.isEmpty && !(negative && n == 0) then
    some (int (if negative then -(n : Int) else n), cs)
  else
    some (real (String.ofList (minus ++ ds ++ point ++ exp.literal)), cs)

def hexDigit? (c : Char) : Option Nat :=
  if c.isDigit then some (digitValue c)
  else if 'a' ≤ c ∧ c ≤ 'f' then some (c.toNat - 'a'.toNat + 10)
  else if 'A' ≤ c ∧ c ≤ 'F' then some (c.toNat - 'A'.toNat + 10)
  else none

def hex4? (a b c d : Char) : Option Nat := do
  return (((← hexDigit? a) * 16 + (← hexDigit? b)) * 16 + (← hexDigit? c)) * 16 + (← hexDigit? d)

def isHighHalf (n : Nat) : Bool := 0xD800 ≤ n && n < 0xDC00

def isLowHalf (n : Nat) : Bool := 0xDC00 ≤ n && n < 0xE000

def escape? : Char → Option Char
  | '"' => some '"'
  | '\\' => some '\\'
  | '/' => some '/'
  | 'b' => some '\x08'
  | 'f' => some '\x0c'
  | 'n' => some '\n'
  | 'r' => some '\r'
  | 't' => some '\t'
  | _ => none

def prepend (n : Nat) : Option (List Nat × List Char) → Option (List Nat × List Char)
  | some (points, rest) => some (n :: points, rest)
  | none => none

/-- The code points of a string, after its opening quote. An escape may also stand for one half of a
character. -/
def codePoints : Reader (List Nat)
  | [] => none
  | '"' :: cs => some ([], cs)
  | '\\' :: 'u' :: a :: b :: c :: d :: cs =>
    match hex4? a b c d with
    | some n => prepend n (codePoints cs)
    | none => none
  | '\\' :: e :: cs =>
    match escape? e with
    | some c => prepend c.toNat (codePoints cs)
    | none => none
  | c :: cs => if c.toNat < 0x20 then none else prepend c.toNat (codePoints cs)

/-- The text with the given code points. A character outside the first plane may be given as its two
halves; one half alone is no text. -/
def text? : List Nat → Option (List Char)
  | [] => some []
  | [n] => if isHighHalf n || isLowHalf n then none else some [Char.ofNat n]
  | n :: m :: ns =>
    if isHighHalf n && isLowHalf m then
      (text? ns).map (Char.ofNat (0x10000 + (n - 0xD800) * 0x400 + (m - 0xDC00)) :: ·)
    else if isHighHalf n || isLowHalf n then none
    else (text? (m :: ns)).map (Char.ofNat n :: ·)

def stringTail (cs : List Char) : Option (Option String × List Char) := do
  let (points, cs) ← codePoints cs
  some ((text? points).map String.ofList, cs)

def scalar (cs : List Char) : Option (Json × List Char) :=
  match cs with
  | 'n' :: 'u' :: 'l' :: 'l' :: rest => some (null, rest)
  | 't' :: 'r' :: 'u' :: 'e' :: rest => some (bool true, rest)
  | 'f' :: 'a' :: 'l' :: 's' :: 'e' :: rest => some (bool false, rest)
  | '"' :: rest => do
    let (text, rest) ← stringTail rest
    some ((text.map str).getD unfit, rest)
  | _ => number cs

def fieldName (cs : List Char) : Option (Option String × List Char) :=
  match skipBlank cs with
  | '"' :: cs => do
    let (name, cs) ← stringTail cs
    match skipBlank cs with
    | ':' :: cs => some (name, cs)
    | _ => none
  | _ => none

end Errand.Json
