/-! The Bell triangle in 64-bit words. A row starts with the last entry of the row
above and goes on by running sums over that row; its own last entry is the next
Bell number modulo `2 ^ 64`. -/

namespace FiniteCalculus.Discrete
set_option autoImplicit false

/-- The running sums of the words from a start on, the start included. -/
def runningSums (start : Int64) : List Int64 → List Int64
  | [] => [start]
  | w :: ws => start :: runningSums (start + w) ws

def bellRow : Nat → List Int64
  | 0 => [1]
  | r + 1 =>
    let above := bellRow r
    runningSums (above.getLastD 0) above

/-- The Bell number of `n`, as the word that it leaves. -/
def bellWord : Nat → Int64
  | 0 => 1
  | n + 1 => (bellRow n).getLastD 0

theorem length_runningSums (start : Int64) (ws : List Int64) :
    (runningSums start ws).length = ws.length + 1 := by
  induction ws generalizing start with
  | nil => rfl
  | cons w ws ih => simp [runningSums, ih]

theorem length_bellRow (r : Nat) : (bellRow r).length = r + 1 := by
  induction r with
  | zero => rfl
  | succ r ih => simp [bellRow, length_runningSums, ih]

example : (List.range 8).map (fun n => (bellWord n).toInt) = [1, 1, 2, 5, 15, 52, 203, 877] := by
  decide +kernel

end FiniteCalculus.Discrete
