import FiniteCalculus.Value.Arithmetic
import FiniteCalculus.Value.Text

/-! Assertions about single values, and why an assertion does not hold. -/

namespace FiniteCalculus
set_option autoImplicit false

namespace Assertion

/-- Two entries that differ, with the second less the first. -/
structure Mismatch where
  position : Nat
  left : Value
  right : Value
  gap : Value

/-- Why an assertion does not hold or cannot be decided. -/
inductive Failure where
  /-- Both tolerances are given. -/
  | twoTolerances
  | lengths (left right : Nat)
  /-- How many entries differ, and the first of them. -/
  | entries (count : Nat) (listed : List Mismatch)
  | notUndefined (v : Value) (remark : Option String)
  | undefined (remark : Option String)
  | otherKind (actual expected : Kind)
  | fault (f : Fault)

/-- A message with the remark that its author added. -/
def remarked (message : String) : Option String → String
  | some remark => message ++ " : " ++ remark
  | none => message

def Mismatch.line (m : Mismatch) : String :=
  "  [" ++ toString m.position ++ "] " ++ m.left.toText ++ " != " ++ m.right.toText ++
    "    (difference: " ++ m.gap.toText ++ ")"

def Failure.message : Failure → String
  | twoTolerances => "Cannot use delta and places at the same time"
  | lengths left right =>
    "Lists have different lengths (" ++ toString left ++ " != " ++ toString right ++ ")"
  | entries count listed =>
    toString count ++ " elements differ.\n" ++
      (if count ≤ listed.length then "Differing elements:\n"
        else "First few differing elements:\n") ++
      "\n".intercalate (listed.map Mismatch.line)
  | notUndefined v remark => remarked (v.toText ++ " is not NaN") remark
  | undefined remark => remarked "unexpected NaN" remark
  | otherKind actual expected =>
    "<class '" ++ actual.name ++ "'> is not <class '" ++ expected.name ++ "'>"
  | fault f => f.message

/-- The value is a double, and no number. -/
def isUndefined (v : Value) (remark : Option String) : Except Failure Unit :=
  match v with
  | .double x => if x.isNaN then .ok () else .error (.notUndefined v remark)
  | _ => .error (.notUndefined v remark)

def isDefined (v : Value) (remark : Option String) : Except Failure Unit :=
  match v.isNaN with
  | .ok false => .ok ()
  | .ok true => .error (.undefined remark)
  | .error f => .error (.fault f)

/-- The value is of exactly this kind. -/
def hasKind (v : Value) (expected : Kind) : Except Failure Unit :=
  if v.kind = expected then .ok () else .error (.otherKind v.kind expected)

theorem hasKind_iff (v : Value) (k : Kind) : hasKind v k = .ok () ↔ v.kind = k := by
  unfold hasKind
  split <;> simp_all

end Assertion

end FiniteCalculus
