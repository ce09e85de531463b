/-!
# Binary floating-point numbers

The 64-bit binary numbers, as a mantissa and a power of two. All the arithmetic is exact, on
natural numbers, and rounds at the end; nothing rests on the machine's.

* `Binary64.round`: the nearest number to a ratio, ties to the even mantissa
* `Binary64.ofDecimal?`: the number a written decimal stands for
* `Binary64.shortest`: the fewest decimal digits that read back, nearest first
* `Binary64.text`: the written form of a number
-/

namespace Runbook

/-- The number `± mantissa · 2 ^ exponent`. -/
structure Binary64 where
  /-- whether the sign is minus; zero has a sign too -/
  negative : Bool
  /-- below `2 ^ 53` -/
  mantissa : Nat
  /-- at least `-1074` -/
  exponent : Int
  deriving DecidableEq, Repr

namespace Binary64

/-! ## Rounding -/

/-- The quotient rounded to the nearest natural number, ties to the even one. -/
def roundDiv (num den : Nat) : Nat :=
  let q := num / den
  let twice := 2 * (num % den)
  if twice < den then q
  else if den < twice then q + 1
  else q + q % 2

/-- `num / den · 2 ^ -e` as a ratio of natural numbers. -/
def scaled (num den : Nat) (e : Int) : Nat × Nat :=
  if 0 ≤ e then (num, den <<< e.toNat) else (num <<< (-e).toNat, den)

/-- The exponent at which `num / den` has a mantissa of 53 bits, or the least exponent. -/
def exponentFor (num den : Nat) : Int :=
  let guess : Int := (num.log2 : Int) - (den.log2 : Int) - 52
  let (n, d) := scaled num den guess
  max (if n / d < 1 <<< 52 then guess - 1 else guess) (-1074)

/-- The nearest number to `num / den` from zero upwards; `none` when it is too large. -/
def round (num den : Nat) : Option Binary64 :=
  if num = 0 then some ⟨false, 0, -1074⟩
  else
    let e := exponentFor num den
    let (n, d) := scaled num den e
    let m := roundDiv n d
    let (m, e) := if m = 1 <<< 53 then (1 <<< 52, e + 1) else (m, e)
    if 971 < e then none else some ⟨false, m, e⟩

/-- The number with the sign set. -/
def signed (negative : Bool) (x : Binary64) : Binary64 := { x with negative := negative }

/-- The magnitude as a ratio of natural numbers. -/
def ratio (x : Binary64) : Nat × Nat :=
  if 0 ≤ x.exponent then (x.mantissa <<< x.exponent.toNat, 1)
  else (x.mantissa, 1 <<< (-x.exponent).toNat)

/-- The rounded product of two magnitudes. -/
def mul (x y : Binary64) : Option Binary64 :=
  round (x.ratio.1 * y.ratio.1) (x.ratio.2 * y.ratio.2)

/-- The rounded quotient of two magnitudes, the second not zero. -/
def div (x y : Binary64) : Option Binary64 :=
  round (x.ratio.1 * y.ratio.2) (x.ratio.2 * y.ratio.1)

/-! ## Reading -/

/-- Scales down by `10 ^ 308` until the exponent can be met by one division. -/
def scaleDown : Nat → Binary64 → Nat → Option Binary64
  | 0, x, _ => some { x with mantissa := 0, exponent := -1074 }
  | fuel + 1, x, e =>
    if e ≤ 308 then do x.div (← round (Nat.pow 10 e) 1)
    else if x.mantissa = 0 then some x
    else do scaleDown fuel (← x.div (← round (Nat.pow 10 308) 1)) (e - 308)

/-- The number written `significand · 10 ^ exponent`: the significand is rounded first, then
multiplied or divided by the rounded power of ten. `none` when it is too large. Three divisions
by `10 ^ 308` take any 64-bit significand to zero. -/
def ofDecimal? (negative : Bool) (significand : Nat) (exponent : Int) : Option Binary64 := do
  let x ← round significand 1
  let y ←
    if exponent < 0 then scaleDown 4 x (-exponent).toNat
    else if exponent ≤ 308 then x.mul (← round (Nat.pow 10 exponent.toNat) 1)
    else if x.mantissa = 0 then some x
    else none
  return y.signed negative

/-! ## Writing -/

/-- Tries ever finer decimal grids, from `10 ^ k` down. All magnitudes are counted in units of
`num / den`: the value is `v`, and the reals from `low` to `high` round to it, the ends included
when `closed`. The result is a multiple of a power of ten and that power. -/
def search (num den v low high : Nat) (closed : Bool) : Nat → Int → Nat × Int
  | 0, k => (v * num / den, k)
  | fuel + 1, k =>
    let (n, d) := if 0 ≤ k then (num, den * Nat.pow 10 k.toNat)
      else (num * Nat.pow 10 (-k).toNat, den)
    let below := v * n / d
    let inside (c : Nat) : Bool :=
      0 < c && (if closed then low * n ≤ c * d && c * d ≤ high * n
        else low * n < c * d && c * d < high * n)
    let toBelow := v * n - below * d
    let toAbove := (below + 1) * d - v * n
    match inside below, inside (below + 1) with
    | true, true =>
      if toBelow < toAbove || (toBelow = toAbove && below % 2 = 0) then (below, k)
      else (below + 1, k)
    | true, false => (below, k)
    | false, true => (below + 1, k)
    | false, false => search num den v low high closed fuel (k - 1)

/-- The fewest decimal digits that read back as the magnitude, and the power of ten they are
multiplied by; of several such the nearest. Zero has the digit `0`. -/
def shortest (x : Binary64) : Nat × Int :=
  if x.mantissa = 0 then (0, 0)
  else
    let (num, den) := Binary64.ratio ⟨false, 1, x.exponent - 2⟩
    let low := if x.mantissa = 1 <<< 52 ∧ -1074 < x.exponent then 4 * x.mantissa - 1
      else 4 * x.mantissa - 2
    let bits : Int := (x.mantissa.log2 : Int) + x.exponent
    search num den (4 * x.mantissa) low (4 * x.mantissa + 2) (x.mantissa % 2 = 0) 25
      (bits * 1233 / 4096 + 2)

/-- Lays out decimal digits that are followed by the power of ten `k`. With the point after the
`p`-th digit, a number is written out for `-5 < p ≤ 16`, and with an exponent and its sign
otherwise. A number written out always shows its point. -/
def layout (digits : List Char) (k : Int) : List Char :=
  let p : Int := digits.length + k
  if 0 ≤ k ∧ p ≤ 16 then digits ++ List.replicate k.toNat '0' ++ ['.', '0']
  else if 0 < p ∧ p ≤ 16 then digits.take p.toNat ++ '.' :: digits.drop p.toNat
  else if -5 < p ∧ p ≤ 0 then '0' :: '.' :: List.replicate (-p).toNat '0' ++ digits
  else
    let exponent := (if 0 < p then ['+'] else []) ++ (toString (p - 1)).toList
    match digits with
    | [d] => d :: 'e' :: exponent
    | d :: rest => d :: '.' :: rest ++ 'e' :: exponent
    | [] => []

/-- The written form: the shortest digits, after a minus sign for negative numbers. -/
def text (x : Binary64) : String :=
  let (digits, k) := x.shortest
  let body := layout (toString digits).toList k
  String.ofList (if x.negative then '-' :: body else body)

end Binary64

end Runbook
