import FiniteCalculus.Decimal.Shortest

/-! How a decimal is written out: between which sizes it is positional, whether a
whole number keeps a point, and how an exponent looks. -/

namespace FiniteCalculus
set_option autoImplicit false

namespace Decimal

structure Layout where
  /-- Positional if the number is `0.d₁d₂… * 10 ^ p` with `p` above this. -/
  above : Int
  /-- … and `p` not beyond this. -/
  upTo : Int
  /-- A positional whole number ends in `.0`. -/
  wholePoint : Bool
  /-- The least number of digits of an exponent. -/
  exponentDigits : Nat

/-- Numbers are written positionally from a ten-thousandth to below `10 ^ 16`, with
at least one digit after the point, and an exponent has two digits or more. -/
def Layout.number : Layout := ⟨-4, 16, true, 2⟩

/-- As `Layout.number`, but a whole number has no point. -/
def Layout.component : Layout := { Layout.number with wholePoint := false }

def padLeft (width : Nat) (s : String) : String :=
  String.ofList (List.replicate (width - s.length) '0') ++ s

/-- The exponent part, with its sign. -/
def Layout.exponent (l : Layout) (e : Int) : String :=
  (if e < 0 then "e-" else "e+") ++ padLeft l.exponentDigits (toString e.natAbs)

/-- Digits with a point after the first `n` of them. -/
def pointed (digits : String) (n : Nat) : String :=
  String.ofList (digits.toList.take n) ++ "." ++ String.ofList (digits.toList.drop n)

def Layout.write (l : Layout) (d : Decimal) : String :=
  let digits := toString d.coefficient
  let count := digits.length
  let point := d.exponent + count
  if d.coefficient = 0 then if l.wholePoint then "0.0" else "0"
  else if l.above < point ∧ point ≤ l.upTo then
    if point ≤ 0 then "0." ++ String.ofList (List.replicate (-point).toNat '0') ++ digits
    else if point.toNat < count then pointed digits point.toNat
    else
      digits ++ String.ofList (List.replicate (point.toNat - count) '0') ++
        if l.wholePoint then ".0" else ""
  else (if count = 1 then digits else pointed digits 1) ++ l.exponent (point - 1)

example : Layout.number.write ⟨3, 0⟩ = "3.0" := by decide +kernel
example : Layout.number.write ⟨1, -4⟩ = "0.0001" := by decide +kernel
example : Layout.number.write ⟨1, -5⟩ = "1e-05" := by decide +kernel
example : Layout.number.write ⟨1, 15⟩ = "1000000000000000.0" := by decide +kernel
example : Layout.number.write ⟨1, 16⟩ = "1e+16" := by decide +kernel
example : Layout.number.write ⟨15, -8⟩ = "1.5e-07" := by decide +kernel

/-- A double in the given layout, by its shortest decimal. -/
def Layout.writeDouble (l : Layout) (x : Float) : String :=
  match Double.parts x with
  | .notNumber => "nan"
  | .infinite s => if s then "-inf" else "inf"
  | .finite s m e => (if s then "-" else "") ++ l.write (if m = 0 then ⟨0, 0⟩ else shortest m e)

end Decimal

end FiniteCalculus
