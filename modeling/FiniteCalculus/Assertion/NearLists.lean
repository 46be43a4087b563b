import FiniteCalculus.Assertion.Basic
import FiniteCalculus.Decimal.Places

/-! Lists that agree entry by entry up to a tolerance: a bound on the difference,
or a decimal place at which the difference rounds to zero. Equal entries agree
before any difference is formed, so equal infinities do. -/

namespace FiniteCalculus
set_option autoImplicit false

namespace Assertion

inductive Tolerance where
  | within (bound : Value)
  | places (places : Int)

/-- Seven places, if nothing else is asked for. -/
def Tolerance.usual : Tolerance := places 7

/-- The tolerance that is asked for; not both can be. -/
def Tolerance.of? (places : Option Int) (bound : Option Value) : Except Failure Tolerance :=
  match places, bound with
  | some _, some _ => .error .twoTolerances
  | some n, none => .ok (.places n)
  | none, some b => .ok (within b)
  | none, none => .ok usual

/-- A real number rounded at a decimal place is not zero. -/
def staysAt (places : Int) (v : Value) : Except Fault Bool :=
  match v with
  | .double x => return (← Decimal.roundDouble x places) != 0.0
  | v =>
    match v.integer? with
    | some n => .ok (Decimal.roundInt n places != 0)
    | none => .error (.notReal v.kind)

def Tolerance.exceededBy (t : Tolerance) (gap : Value) : Except Fault Bool :=
  match t with
  | within bound => .ok (bound.lt gap)
  | places n => staysAt n gap

/-- Whether two entries differ by more than the tolerance. -/
def differ (t : Tolerance) (v w : Value) : Except Fault Bool :=
  if v.equal w then .ok false
  else do t.exceededBy (← (← v.sub w).magnitude)

/-- The entries that differ, from a position on. -/
def mismatches (t : Tolerance) (position : Nat) :
    List Value → List Value → Except Fault (List (Nat × Value × Value))
  | v :: vs, w :: ws => do
    let here ← differ t v w
    let later ← mismatches t (position + 1) vs ws
    return if here then (position, v, w) :: later else later
  | _, _ => .ok []

/-- So many differing entries are listed at most. -/
def listedEntries : Nat := 9

def mismatch : Nat × Value × Value → Except Fault Mismatch
  | (position, v, w) => do return { position := position, left := v, right := w, gap := ← w.sub v }

/-- The failure for entries that differ. -/
def entriesFailure (found : List (Nat × Value × Value)) : Failure :=
  match (found.take listedEntries).mapM mismatch with
  | .ok listed => .entries found.length listed
  | .error f => .fault f

/-- Both lists have the same length, and no entries differ. -/
def nearLists (vs ws : List Value) (places : Option Int) (bound : Option Value) :
    Except Failure Unit := do
  let t ← Tolerance.of? places bound
  if vs.length ≠ ws.length then throw (.lengths vs.length ws.length)
  match mismatches t 0 vs ws with
  | .error f => throw (.fault f)
  | .ok [] => return ()
  | .ok found => throw (entriesFailure found)

theorem differ_of_equal {t : Tolerance} {v w : Value} (h : v.equal w) :
    differ t v w = .ok false := by simp [differ, h]

end Assertion

end FiniteCalculus
