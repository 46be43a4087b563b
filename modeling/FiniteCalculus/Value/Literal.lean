import FiniteCalculus.Value.Basic
import FiniteCalculus.Double.Parts

/-! Number literals. Digits alone, with or without a minus sign, are an integer of
any size; a fraction, an exponent, `inf` or `nan` make a double, correctly rounded. -/

namespace FiniteCalculus
set_option autoImplicit false

namespace Literal

def digitsValue (cs : List Char) : Nat :=
  cs.foldl (fun n c => 10 * n + (c.toNat - '0'.toNat)) 0

def digits (cs : List Char) : List Char × List Char := cs.span Char.isDigit

/-- A sign that may stand in front, and what follows it. -/
def sign : List Char → Bool × List Char
  | '-' :: cs => (true, cs)
  | '+' :: cs => (false, cs)
  | cs => (false, cs)

def fraction : List Char → List Char × List Char
  | '.' :: cs => digits cs
  | cs => ([], cs)

/-- The value of an exponent that ends the text; no exponent counts as zero. -/
def exponent? : List Char → Option Int
  | [] => some 0
  | c :: cs =>
    if c = 'e' ∨ c = 'E' then
      let (negative, cs) := sign cs
      let (ds, rest) := digits cs
      if ds.isEmpty || !rest.isEmpty then none
      else some (if negative then -(digitsValue ds) else digitsValue ds)
    else none

/-- The magnitude of a double literal. -/
def magnitude? (cs : List Char) : Option Float :=
  match (String.ofList cs).toLower with
  | "nan" => some Double.nan
  | "inf" | "infinity" => some Double.infinity
  | _ => do
    let (whole, cs) := digits cs
    let (part, cs) := fraction cs
    if whole.isEmpty && part.isEmpty then none
    else
      some (Double.ofDecimal (digitsValue (whole ++ part)) ((← exponent? cs) - part.length))

/-- The integer that the whole text is. -/
def integer? (cs : List Char) : Option Int :=
  match cs with
  | '-' :: ds => if ds.isEmpty || !ds.all Char.isDigit then none else some (-(digitsValue ds))
  | ds => if ds.isEmpty || !ds.all Char.isDigit then none else some (digitsValue ds)

end Literal

def Value.ofLiteral? (s : String) : Option Value :=
  match Literal.integer? s.toList with
  | some n => some (.int n)
  | none => do
    let (negative, cs) := Literal.sign s.toList
    let x ← Literal.magnitude? cs
    return .double (if negative then -x else x)

end FiniteCalculus
