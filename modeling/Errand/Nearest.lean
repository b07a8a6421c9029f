namespace Errand

variable {α : Type} [Ord α]

def precedes (rank : α → Nat) (a b : α) : Bool :=
  rank a < rank b || (rank a == rank b && compare a b == .lt)

/-- The candidate of least rank, and of equal ranks the least one. -/
def nearest? (rank : α → Nat) : List α → Option α
  | [] => none
  | a :: as =>
    match nearest? rank as with
    | none => some a
    | some b => if precedes rank b a then some b else some a

end Errand
