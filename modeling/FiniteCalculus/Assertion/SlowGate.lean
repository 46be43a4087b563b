import FiniteCalculus.Value.Basic

/-! A gate in front of a slow computation: while it is closed a call is skipped and
the computation does not run. -/

namespace FiniteCalculus
set_option autoImplicit false

/-- A gate and how often the computation behind it has run. -/
structure SlowGate where
  closed : Bool := true
  runs : Nat := 0

namespace SlowGate

def skipMessage : String := "skipping slow tests"

/-- The gate with its setting changed, if a change is asked for. -/
def adjust (g : SlowGate) (closed : Option Bool) : SlowGate :=
  { g with closed := closed.getD g.closed }

/-- A call of a computation; `none` if it is skipped. -/
def call {α : Type} (g : SlowGate) (body : Unit → α) : Option α × SlowGate :=
  if g.closed then (none, g) else (some (body ()), { g with runs := g.runs + 1 })

theorem call_closed {α : Type} (g : SlowGate) (h : g.closed) (body : Unit → α) :
    g.call body = (none, g) := by simp [call, h]

end SlowGate

end FiniteCalculus
