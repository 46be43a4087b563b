import FiniteCalculus.Fault

/-! Running totals over consecutive naturals. The naturals are taken one at a time,
so a total that faults early does so however long the run is. -/

namespace FiniteCalculus
set_option autoImplicit false
variable {β : Type}

/-- The total after `count` steps with the naturals from a first one on. -/
def accumulate (step : β → Nat → Except Fault β) : Nat → Nat → β → Except Fault β
  | 0, _, total => .ok total
  | count + 1, k, total => do accumulate step count (k + 1) (← step total k)

theorem accumulate_eq_foldlM (step : β → Nat → Except Fault β) (count first : Nat) (total : β) :
    accumulate step count first total = (List.range' first count).foldlM step total := by
  induction count generalizing first total with
  | zero => rfl
  | succ count ih =>
    simp only [accumulate, List.range'_succ, List.foldlM_cons]
    exact bind_congr fun next => ih (first + 1) next

end FiniteCalculus
