namespace Errand

class Chance (ρ : Type) where
  pick : (n : Nat) → 0 < n → ρ → Fin n × ρ

/-- An element of the list; the source is not asked when the list is empty. -/
def Chance.choose [Chance ρ] (as : List α) (r : ρ) : Option α × ρ :=
  if h : 0 < as.length then
    let (i, r) := pick as.length h r
    (some (as.get i), r)
  else (none, r)

/-- Takes 32-bit words, first those that it was given, then those of a linear congruential
generator. -/
structure WordSource where
  words : List UInt32 := []
  state : UInt64 := 0
  draws : Nat := 0
  deriving Repr

namespace WordSource

def next (s : WordSource) : UInt32 × WordSource :=
  match s.words with
  | w :: ws => (w, { s with words := ws, draws := s.draws + 1 })
  | [] =>
    let state := s.state * 6364136223846793005 + 1442695040888963407
    ((state >>> 32).toUInt32, { s with state, draws := s.draws + 1 })

def leadingZeros (n : Nat) : Nat := 32 - (n.log2 + 1)

def wordCount : Nat := 0x100000000

/-- A word `w` stands for possibility `w * n / wordCount`. The words whose remainder lies above the
zone would make some possibilities likelier than others. -/
def zone (n : Nat) : Nat := n <<< leadingZeros n - 1

theorem scaled_lt {n : Nat} (h : 0 < n) (w : UInt32) : w.toNat * n / wordCount < n := by
  rw [Nat.div_lt_iff_lt_mul (by decide), Nat.mul_comm n]
  exact Nat.mul_lt_mul_of_pos_right w.toNat_lt h

/-- Draws words until one lies in the zone. It settles for the last of `tries + 1` words. -/
def pickWithin (n : Nat) (h : 0 < n) : Nat → WordSource → Fin n × WordSource
  | 0, s =>
    let (w, s) := s.next
    (⟨w.toNat * n / wordCount, scaled_lt h w⟩, s)
  | tries + 1, s =>
    let (w, s) := s.next
    if w.toNat * n % wordCount ≤ zone n then (⟨w.toNat * n / wordCount, scaled_lt h w⟩, s)
    else pickWithin n h tries s

/-- At least every other word lies in the zone, so that the given words and a thousand more are
enough. -/
instance : Chance WordSource where
  pick n h s := pickWithin n h (s.words.length + 1000) s

end WordSource

end Errand
