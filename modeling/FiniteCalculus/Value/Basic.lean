/-! The values that arguments hold, that functions take and that evaluation
yields. Integers are unbounded, doubles are binary64, and a truth value counts as
the integer `1` or `0`. A text, a complex number and an absent value are carried
along, but they are no real numbers. -/

namespace FiniteCalculus
set_option autoImplicit false

/-- The kind of a value, under the name it is reported with. -/
inductive Kind where
  | int | double | bool | absent | text | complex
deriving DecidableEq, Repr

namespace Kind

def all : List Kind := [int, double, bool, absent, text, complex]

def name : Kind → String
  | int => "int"
  | double => "float"
  | bool => "bool"
  | absent => "NoneType"
  | text => "str"
  | complex => "complex"

def ofName? (name : String) : Option Kind := all.find? (·.name == name)

theorem mem_all (k : Kind) : k ∈ all := by cases k <;> decide

end Kind

inductive Value where
  | int (n : Int)
  | double (x : Float)
  | bool (b : Bool)
  | absent
  | text (s : String)
  | complex (re im : Float)

namespace Value

def kind : Value → Kind
  | int _ => .int
  | double _ => .double
  | bool _ => .bool
  | absent => .absent
  | text _ => .text
  | complex .. => .complex

/-- The integer that a value is: its own, or that of a truth value. -/
def integer? : Value → Option Int
  | int n => some n
  | bool b => some b.toInt
  | _ => none

def isReal : Value → Bool
  | int _ | double _ | bool _ => true
  | _ => false

theorem isReal_of_integer? {v : Value} {n : Int} (h : v.integer? = some n) : v.isReal := by
  cases v <;> simp_all [integer?, isReal]

end Value

end FiniteCalculus
