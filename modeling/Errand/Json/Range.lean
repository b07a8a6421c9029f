namespace Errand.Json

/-- `n` rounded to 53 binary digits, to the nearest such number, and from half way between two to
the even one. -/
def roundToDouble (n : Nat) : Nat :=
  let unit := 1 <<< (n.log2 + 1 - 53)
  let q := n / unit
  let r := n % unit
  if unit < 2 * r || (unit == 2 * r && q % 2 == 1) then (q + 1) * unit else q * unit

def doubleBound : Nat := 1 <<< 1024

def digitValue (d : Char) : Nat := d.toNat - '0'.toNat

/-- Digits are appended to `m` as long as 64 bits hold the result. The rest is left. -/
def appendDigits (m : Nat) : List Char → Nat × List Char
  | [] => (m, [])
  | d :: ds =>
    let n := 10 * m + digitValue d
    if n < 0x10000000000000000 then appendDigits n ds else (m, d :: ds)

/-- `m` times ten to the power `e` is finite as a double. Past the power 308 only zero is. -/
def isFinite (m : Nat) (e : Int) : Bool :=
  m == 0 || e < 0 ||
    (e ≤ 308 && roundToDouble (roundToDouble m * roundToDouble (Nat.pow 10 e.toNat)) < doubleBound)

/-- The number with the given integer digits, fraction digits and exponent is in range. Each integer
digit that is left over raises the exponent, and each fraction digit that is not lowers it. -/
def inRange (whole fraction : List Char) (exponent : Int) : Bool :=
  let (m, rest) := appendDigits 0 whole
  let (m, unused) := appendDigits m fraction
  isFinite m (exponent + rest.length - (fraction.length - unused.length : Nat))

end Errand.Json
