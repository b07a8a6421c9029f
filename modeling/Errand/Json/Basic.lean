import Errand.Numeral

namespace Errand

/-- JSON values, as the definition format sees them. Integers are exact. Fields keep the order in which
they are written, repeated names included. -/
inductive Json where
  | null
  | bool (value : Bool)
  | int (value : Int)
  /-- A number with a fraction, an exponent, or a sign in front of zero. -/
  | real (literal : String)
  | str (value : String)
  | arr (items : List Json)
  | obj (fields : List (String × Json))
  /-- A value that is well written and still cannot be taken up: it is nested too deep, it has a
  text with half a character, or it is a number out of range. -/
  | unfit
  deriving Inhabited

namespace Json

abbrev Part (j : Json) := { v : Json // sizeOf v < sizeOf j }

theorem sizeOf_lt_arr {v : Json} {items : List Json} (h : v ∈ items) : sizeOf v < sizeOf (arr items) := by
  have := List.sizeOf_lt_of_mem h
  simp only [arr.sizeOf_spec]
  omega

theorem sizeOf_lt_obj {f : String × Json} {fields : List (String × Json)} (h : f ∈ fields) :
    sizeOf f.2 < sizeOf (obj fields) := by
  have h₁ := List.sizeOf_lt_of_mem h
  have h₂ : sizeOf f = 1 + sizeOf f.1 + sizeOf f.2 := by cases f; simp
  simp only [obj.sizeOf_spec]
  omega

/-- The field called `name`, which is number `i` when the fields are written as an array. The
answer is `some none` when there is no such field, and `none` when it is written twice or when `j`
has no fields at all. -/
def find (j : Json) (i : Nat) (name : String) : Option (Option j.Part) :=
  match j with
  | obj fields =>
    match fields.attach.filter (·.1.1 == name) with
    | [] => some none
    | [f] => some (some ⟨f.1.2, sizeOf_lt_obj f.2⟩)
    | _ => none
  | arr items => some (items.attach[i]?.map fun v ↦ ⟨v.1, sizeOf_lt_arr v.2⟩)
  | _ => none

def need (j : Json) (i : Nat) (name : String) : Option j.Part :=
  (j.find i name).join

/-- A field that may be missing, read by `read` when it is there. -/
def orElse (j : Json) (i : Nat) (name : String) (default : α) (read : Json → Option α) : Option α :=
  match j.find i name with
  | none => none
  | some none => some default
  | some (some v) => read v.1

def atMost : Json → Nat → Option Unit
  | arr items, n => if items.length ≤ n then some () else none
  | _, _ => some ()

/-- Fields are not written as an array. -/
def named : Json → Option Unit
  | obj _ => some ()
  | _ => none

mutual

def fit : Json → Bool
  | unfit => false
  | arr items => fitItems items
  | obj fields => fitFields fields
  | _ => true

def fitItems : List Json → Bool
  | [] => true
  | j :: rest => fit j && fitItems rest

def fitFields : List (String × Json) → Bool
  | [] => true
  | (_, j) :: rest => fit j && fitFields rest

end

def wholly (j : Json) : Option Unit := if j.fit then some () else none

/-- All fields but those called `name` are fit. -/
def whollyBut : Json → String → Option Unit
  | obj fields, name => if fields.all fun f ↦ f.1 == name || f.2.fit then some () else none
  | j, _ => j.wholly

def items? : (j : Json) → Option (List j.Part)
  | arr items => some (items.attach.map fun v ↦ ⟨v.1, sizeOf_lt_arr v.2⟩)
  | _ => none

def bool? : Json → Option Bool
  | bool b => some b
  | _ => none

def str? : Json → Option String
  | str s => some s
  | _ => none

def int? : Json → Option Int
  | int n => some n
  | _ => none

def int32? (j : Json) : Option Int32 := j.int?.bind Errand.int32?

def uint32? (j : Json) : Option UInt32 := j.int?.bind Errand.uint32?

def uint64? (j : Json) : Option UInt64 := j.int?.bind Errand.uint64?

def list? (read : Json → Option α) (j : Json) : Option (List α) :=
  match j with
  | arr items => items.mapM read
  | _ => none

def nullable? (read : Json → Option α) : Json → Option (Option α)
  | null => some none
  | j => (read j).map some

/-- A bare name, which may also be written as the only field of an object, with value `null`.
Inside a script an empty object stands for `null` here. -/
def name? (inScript : Bool) : Json → Option String
  | str s => some s
  | obj [(s, null)] => some s
  | obj [(s, obj [])] => if inScript then some s else none
  | _ => none

def ofInt32 (a : Int32) : Json := int a.toInt

def ofUInt32 (a : UInt32) : Json := int a.toNat

def ofUInt64 (a : UInt64) : Json := int a.toNat

def ofOption (write : α → Json) : Option α → Json
  | none => null
  | some a => write a

def ofList (write : α → Json) (as : List α) : Json := arr (as.map write)

end Json

end Errand
