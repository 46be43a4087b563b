import FiniteCalculus.Evaluation
import FiniteCalculus.Value.Text

/-! The wording of what iterated operators remark. -/

namespace FiniteCalculus
set_option autoImplicit false

def Notice.message : Notice → String
  | undefinedBounds operator first last step =>
    "NaN " ++ operator.name ++ " bounds: from=" ++ first.toText ++ ", to=" ++ last.toText ++
      ", delta=" ++ step.toText
  | emptyRange first last step =>
    "Empty range from " ++ first.toText ++ " to " ++ last.toText ++ " by " ++ step.toText ++ "."

namespace Event

def notice? : Event → Option String
  | noticed n => some n.message
  | _ => none

def visited? : Event → Option Value
  | visited v => some v
  | _ => none

/-- The values of a call of the function with the given name. -/
def argsOf? (function : String) : Event → Option (List Value)
  | applied f args => if f = function then some args else none
  | _ => none

end Event

end FiniteCalculus
