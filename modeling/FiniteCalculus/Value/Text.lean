import FiniteCalculus.Value.Basic
import FiniteCalculus.Decimal.Layout
import FiniteCalculus.Text.Quoted

/-! The text of a value, as reports and printed expressions show it. -/

namespace FiniteCalculus
set_option autoImplicit false

namespace Value

/-- A complex number without its real part if that is a positive zero. -/
def complexText (re im : Float) : String :=
  let imaginary := Decimal.Layout.component.writeDouble im ++ "j"
  if re.toBits = 0 then imaginary
  else
    let sign := if im.toBits < 0x8000000000000000 then "+" else ""
    "(" ++ Decimal.Layout.component.writeDouble re ++ sign ++ imaginary ++ ")"

def toText : Value → String
  | int n => toString n
  | double x => Decimal.Layout.number.writeDouble x
  | bool b => if b then "True" else "False"
  | absent => "None"
  | text s => Text.quoted s
  | complex re im => complexText re im

end Value

end FiniteCalculus
