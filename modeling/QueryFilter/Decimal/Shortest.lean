import QueryFilter.Decimal

/-!
# Shortest decimals

A binary floating point number stands for an interval: every real number that
rounds to it.  Its shortest decimal is the number in this interval with the
fewest digits, and of several of these the nearest.

On the grid of the numbers with `n` digits only the two neighbours of the value
can be nearest, so it suffices to try them on one grid after the other.  All
comparisons are exact, between natural numbers.
-/

namespace QueryFilter.Decimal

/-- The power `k` of `b`, or one if `k` is negative. -/
def power (b : Nat) (k : Int) : Nat := Nat.pow b k.toNat

/-- The comparison of `a` times ten to the power `k` with `b` times two to the
power `e`. -/
def compareScaled (a : Nat) (k : Int) (b : Nat) (e : Int) : Ordering :=
  compare (a * power 10 k * power 2 (-e)) (b * power 2 e * power 10 (-k))

/-- Whether `d` times ten to the power `k` rounds to `m` times two to the power
`q`.  The interval ends half a unit away from the value, and a quarter below
the least value of a binade; its ends round to an even `m`. -/
def roundsTo (m : Nat) (q : Int) (d : Nat) (k : Int) : Bool :=
  let below := if m = power 2 52 ∧ -1074 < q then 1 else 2
  let lower := compareScaled d k (4 * m - below) (q - 2)
  let upper := compareScaled d k (4 * m + 2) (q - 2)
  (lower == .gt || (lower == .eq && m % 2 == 0)) &&
    (upper == .lt || (upper == .eq && m % 2 == 0))

/-- The greatest `d` with `d` times ten to the power `k` not above the value. -/
def floorAt (m : Nat) (q : Int) (k : Int) : Nat :=
  (m * power 2 q * power 10 (-k)) / (power 2 (-q) * power 10 k)

/-- The number on the grid at `k` that rounds to the value, the nearer one if
there are two, and the even one if both are as near. -/
def onGrid? (m : Nat) (q : Int) (k : Int) : Option Nat :=
  let d := floorAt m q k
  match roundsTo m q d k, roundsTo m q (d + 1) k with
  | false, false => none
  | true, false => some d
  | false, true => some (d + 1)
  | true, true =>
      match compareScaled (2 * d + 1) k (2 * m) q with
      | .gt => some d
      | .lt => some (d + 1)
      | .eq => some (if d % 2 = 0 then d else d + 1)

/-- The least power of ten above the value. -/
def magnitude (m : Nat) (q : Int) : Int :=
  (((List.range 640).map fun i : Nat => (i : Int) - 325).find? fun p =>
    compareScaled 1 p m q == .gt).getD 0

/-- The shortest decimal of `m` times two to the power `q`. -/
def shortest (negative : Bool) (m : Nat) (q : Int) : Decimal :=
  if m = 0 then ⟨negative, [], 0⟩ else
    let p := magnitude m q
    let found := (List.range' 1 17).findSome? fun n : Nat =>
      (onGrid? m q (p - n)).map fun d => (d, p - (n : Int))
    let (d, k) := found.getD (0, 0)
    let ds := digitsOf d
    ⟨negative, (ds.reverse.dropWhile (· == 0)).reverse, k + ds.length⟩

/-- The shortest decimal of a finite floating point number. -/
def ofFloat (x : Float) : Decimal :=
  let bits := x.toBits.toNat
  let negative := bits / power 2 63 == 1
  let exponent : Nat := bits / power 2 52 % power 2 11
  let fraction : Nat := bits % power 2 52
  if exponent = 0 then shortest negative fraction (-1074)
  else shortest negative (power 2 52 + fraction) ((exponent : Int) - 1075)

end QueryFilter.Decimal
