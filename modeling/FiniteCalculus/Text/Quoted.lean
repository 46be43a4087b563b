/-! Texts between quotes. A quote that closes the text, a backslash and a control
character are escaped; every other character stands for itself. -/

namespace FiniteCalculus.Text
set_option autoImplicit false

def hexDigit (n : Nat) : Char := Nat.digitChar (n % 16)

/-- One character between the given quotes. -/
def escaped (quote c : Char) : List Char :=
  if c = quote ∨ c = '\\' then ['\\', c]
  else if c = '\n' then ['\\', 'n']
  else if c = '\r' then ['\\', 'r']
  else if c = '\t' then ['\\', 't']
  else if c.toNat < 0x20 ∨ c.toNat = 0x7f then
    ['\\', 'x', hexDigit (c.toNat / 16), hexDigit c.toNat]
  else [c]

/-- Single quotes, unless the text has single quotes and no double ones. -/
def quoteFor (s : String) : Char :=
  if s.toList.contains '\'' && !s.toList.contains '"' then '"' else '\''

def quoted (s : String) : String :=
  let quote := quoteFor s
  String.ofList ([quote] ++ s.toList.flatMap (escaped quote) ++ [quote])

example : quoted "it's" = "\"it's\"" := by decide +kernel
example : quoted "a\tb" = "'a\\tb'" := by decide +kernel

end FiniteCalculus.Text
