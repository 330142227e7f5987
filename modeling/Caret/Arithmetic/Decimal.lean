namespace Caret.Arithmetic

def roundDiv (num den : Nat) : Nat :=
  let q := num / den
  let twice := 2 * (num % den)
  if den < twice ∨ (twice = den ∧ q % 2 = 1) then q + 1 else q

/-- The exact value of a finite float: a sign, and whole numbers `m` and `e` with value
`m * 2 ^ (e - 1075)`. -/
structure Parts where
  negative : Bool
  mantissa : Nat
  exponent : Nat
deriving DecidableEq

def Parts.ofBits (bits : UInt64) : Parts :=
  let n := bits.toNat
  let exponent := n >>> 52 % 0x800
  { negative := n >>> 63 = 1
    mantissa := if exponent = 0 then n % (1 <<< 52) else (1 <<< 52) + n % (1 <<< 52)
    exponent := max exponent 1 }

def Parts.scaled (p : Parts) (places : Nat) : Nat :=
  roundDiv ((p.mantissa * Nat.pow 10 places) <<< p.exponent) (1 <<< 1075)

def decimals (places part : Nat) : List Char :=
  let digits := Nat.toDigits 10 part
  let padded := List.replicate (places - digits.length) '0' ++ digits
  (padded.reverse.dropWhile (· == '0')).reverse

def render (places : Nat) (x : Float) : String :=
  let p := Parts.ofBits x.toBits
  let n := p.scaled places
  let fraction := decimals places (n % Nat.pow 10 places)
  (if p.negative then "-" else "") ++ toString (n / Nat.pow 10 places) ++
    if fraction.isEmpty then "" else "." ++ String.ofList fraction

end Caret.Arithmetic
