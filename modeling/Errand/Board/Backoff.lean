namespace Errand

/-- How much a priority that is not positive falls: by the part of its size that a positive one
would lose, and at least by one. -/
def backoffDrop (priority numerator denominator : Int) : Int :=
  max ((priority.natAbs * (denominator - numerator)).tdiv denominator) 1

/-- A positive priority keeps `numerator / denominator` of its value, cut to an integer. Any other
falls, but not below the least priority. -/
def backoff (priority numerator denominator : Int32) : Int32 :=
  let p := priority.toInt
  let n := numerator.toInt
  let d := max denominator.toInt 1
  if 0 < p then Int32.ofInt ((p * n).tdiv d)
  else Int32.ofInt (max (p - backoffDrop p n d) Int32.minValue.toInt)

end Errand
