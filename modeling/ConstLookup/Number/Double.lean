import ConstLookup.Text.Word

/-!
  Double precision numbers and decimal text. A quotient of naturals is rounded to the nearest
  double, ties to the even one; reading a decimal and converting an integer are such quotients.
  Printing gives the shortest digits that read back, written without an exponent.
-/

namespace ConstLookup.Double

open ConstLookup.Text

/-- `a / b` rounded to the nearest integer, ties to the even one. -/
def roundDiv (a b : Nat) : Nat :=
  let q := a / b
  let r := a % b
  if b < 2 * r || (2 * r = b && q % 2 = 1) then q + 1 else q

/-- The quotient `(num / den) / 2 ^ e` as a fraction of naturals. -/
def scaled (num den : Nat) (e : Int) : Nat × Nat :=
  if 0 ≤ e then (num, den * Nat.pow 2 e.toNat) else (num * Nat.pow 2 (-e).toNat, den)

/-- Exponent of the last place of the double nearest to `num / den`: the quotient keeps 53
bits, and no place lies below `2 ^ (-1074)`. -/
def lastPlace (num den : Nat) : Int :=
  let e : Int := (num.log2 : Int) - (den.log2 : Int) - 53
  let e := if Nat.pow 2 53 * (scaled num den e).2 ≤ (scaled num den e).1 then e + 1 else e
  max e (-1074)

/-- Bits of the non-negative double `m * 2 ^ e` with `m ≤ 2 ^ 53`; too large a value is
infinite. -/
def encode (m : Nat) (e : Int) : Nat :=
  if m < Nat.pow 2 52 then m
  else min (Nat.pow 2 52 * (e + 1075).toNat + (m - Nat.pow 2 52)) (2047 * Nat.pow 2 52)

/-- Bits of the double nearest to `num / den`. -/
def roundRatioBits (num den : Nat) : Nat :=
  if num = 0 then 0
  else
    let e := lastPlace num den
    let (a, b) := scaled num den e
    encode (roundDiv a b) e

/-- The double with the given sign and the bits of its absolute value. -/
def ofBits (negative : Bool) (bits : Nat) : Float :=
  Float.ofBits (UInt64.ofNat (if negative then Nat.pow 2 63 + bits else bits))

/-- The double nearest to an integer. -/
def ofInt (v : Int) : Float := ofBits (v < 0) (roundRatioBits v.natAbs 1)

/-- Bits of the double nearest to `digits * 10 ^ exponent`. Magnitudes that are certainly
infinite or certainly zero are answered without computing the power. -/
def decimalBits (digits : Nat) (exponent : Int) : Nat :=
  if digits = 0 then 0
  else
    let magnitude : Int := (Nat.toDigits 10 digits).length + exponent
    if 310 < magnitude then 2047 * Nat.pow 2 52
    else if magnitude < -330 then 0
    else if 0 ≤ exponent then roundRatioBits (digits * Nat.pow 10 exponent.toNat) 1
    else roundRatioBits digits (Nat.pow 10 (-exponent).toNat)

/-- A sign and the characters after it. -/
def splitSign : List Char → Bool × List Char
  | '-' :: cs => (true, cs)
  | '+' :: cs => (false, cs)
  | cs => (false, cs)

/-- The exponent part: nothing, or `e` with an optional sign and at least one digit. -/
def exponent? : List Char → Option Int
  | [] => some 0
  | c :: cs =>
    if c = 'e' || c = 'E' then
      let (negative, ds) := splitSign cs
      (digits? 10 ds).map fun n => if negative then -(n : Int) else (n : Int)
    else none

/-- Bits of an unsigned decimal: digits with at most one point, at least one digit, and an
optional exponent. -/
def unsignedBits? (cs : List Char) : Option Nat :=
  let whole := cs.takeWhile isDigit
  let rest := cs.dropWhile isDigit
  let (fraction, rest) := match rest with
    | '.' :: r => (r.takeWhile isDigit, r.dropWhile isDigit)
    | r => ([], r)
  match digits? 10 (whole ++ fraction), exponent? rest with
  | some n, some e => some (decimalBits n (e - fraction.length))
  | _, _ => none

/-- Read a decimal, `inf`, `infinity` or `nan` in any case, with an optional sign. -/
def read? (cs : List Char) : Option Float :=
  let (negative, body) := splitSign cs
  let word := String.ofList (body.map Char.toLower)
  if word = "inf" || word = "infinity" then some (ofBits negative (2047 * Nat.pow 2 52))
  else if word = "nan" then some (ofBits negative (2047 * Nat.pow 2 52 + Nat.pow 2 51))
  else (unsignedBits? body).map (ofBits negative)

/-! ## Shortest decimal text -/

/-- The fraction `m * 2 ^ e` times `10 ^ k`, as a fraction of naturals. -/
def decimalScaled (m : Nat) (e k : Int) : Nat × Nat :=
  let num := m * Nat.pow 2 e.toNat * Nat.pow 10 k.toNat
  let den := Nat.pow 2 (-e).toNat * Nat.pow 10 (-k).toNat
  (num, den)

/-- The natural `n` on the grid of step `10 ^ (-k)` reads back as the double with significand
`m` and last place `2 ^ e`: it lies within half a place, the ends counting when `m` is even.
Below a power of two the places are half as wide. -/
def readsBack (m : Nat) (e k : Int) (n : Nat) : Bool :=
  let narrow := m = Nat.pow 2 52 && -1074 < e
  let (upNum, upDen) := decimalScaled (4 * m + 2) (e - 2) k
  let (lowNum, lowDen) := decimalScaled (if narrow then 4 * m - 1 else 4 * m - 2) (e - 2) k
  if m % 2 = 0 then n * upDen ≤ upNum && lowNum ≤ n * lowDen
  else n * upDen < upNum && lowNum < n * lowDen

/-- The neighbour of `m * 2 ^ e` on the grid of step `10 ^ (-k)` that reads back, the nearer
one if both do. -/
def gridPoint? (m : Nat) (e k : Int) : Option Nat :=
  let (num, den) := decimalScaled m e k
  let below := num / den
  let nearest := if 2 * (num % den) < den then below else below + 1
  let other := if nearest = below then below + 1 else below
  if readsBack m e k nearest then some nearest
  else if readsBack m e k other then some other
  else none

/-- Number of digits before the point of `m * 2 ^ e`; negative when zeros follow the point. -/
def pointPlace (m : Nat) (e : Int) : Int :=
  let (num, den) := decimalScaled m e 0
  if den ≤ num then (Nat.toDigits 10 (num / den)).length
  else 1 - ((Nat.toDigits 10 ((den - 1) / num)).length : Int)

/-- The first grid, from `digits` significant digits on, with a point that reads back. -/
def shortestFrom (m : Nat) (e place : Int) (digits : Nat) : Nat → Nat × Int
  | 0 => (0, 0)
  | tries + 1 =>
    let k := (digits : Int) - place
    match gridPoint? m e k with
    | some n => (n, k)
    | none => shortestFrom m e place (digits + 1) tries

/-- Digits without an exponent of the number `n * 10 ^ (-k)`. -/
def positional (n : Nat) (k : Int) : List Char :=
  if k ≤ 0 then Nat.toDigits 10 n ++ List.replicate (-k).toNat '0'
  else
    let digits := Nat.toDigits 10 n
    let padded := List.replicate (k.toNat + 1 - digits.length) '0' ++ digits
    let cut := padded.length - k.toNat
    let fraction := dropEndZeros (padded.drop cut)
    if fraction.isEmpty then padded.take cut else padded.take cut ++ '.' :: fraction
where
  /-- Drop the zeros at the end. -/
  dropEndZeros (cs : List Char) : List Char := (cs.reverse.dropWhile (· = '0')).reverse

/-- The shortest text that reads back as `x`, without an exponent. -/
def text (x : Float) : String :=
  let bits := x.toBits.toNat
  let negative := Nat.pow 2 63 ≤ bits
  let magnitude : Nat := bits % Nat.pow 2 63
  let biased : Nat := magnitude / Nat.pow 2 52
  let fraction : Nat := magnitude % Nat.pow 2 52
  let sign := if negative then "-" else ""
  if biased = 2047 then
    if fraction = 0 then sign ++ "inf" else "NaN"
  else if magnitude = 0 then sign ++ "0"
  else
    let m := if biased = 0 then fraction else fraction + Nat.pow 2 52
    let e : Int := (if biased = 0 then 1 else (biased : Int)) - 1075
    let (n, k) := shortestFrom m e (pointPlace m e) 1 17
    sign ++ String.ofList (positional n k)

end ConstLookup.Double
