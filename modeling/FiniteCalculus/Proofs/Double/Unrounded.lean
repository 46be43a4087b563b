import FiniteCalculus.Proofs.Double.Sums

/-! Arithmetic of doubles that stops at the first result that is rounded, or beyond the range.
A formula that comes to a number in this arithmetic comes to the same one in doubles and over
the rationals. -/

namespace FiniteCalculus.Double
set_option autoImplicit false

/-- A double with the number that it stands for. -/
structure Number where
  double : Float
  value : ℚ
  stands : toRat? double = some value
deriving DecidableEq

def Number.one : Number := ⟨1.0, 1, toRat?_one⟩

/-- A number that was computed without rounding, or the news that it was rounded. -/
inductive Unrounded where
  | exact (n : Number)
  | rounded
deriving DecidableEq

namespace Unrounded

def keep (x : Float) (q : ℚ) : Unrounded :=
  if stands : toRat? x = some q then exact ⟨x, q, stands⟩ else rounded

/-- An operation whose result in doubles has to be the one of the numbers. -/
def combine (inDoubles : Float → Float → Float) (inRationals : ℚ → ℚ → ℚ) :
    Unrounded → Unrounded → Unrounded
  | exact m, exact n => keep (inDoubles m.double n.double) (inRationals m.value n.value)
  | _, _ => rounded

instance : Add Unrounded := ⟨combine (· + ·) (· + ·)⟩

instance : Mul Unrounded := ⟨combine (· * ·) (· * ·)⟩

instance : Div Unrounded := ⟨combine (· / ·) (· / ·)⟩

instance : OfNat Unrounded 0 := ⟨keep 0 0⟩

instance : OfNat Unrounded 1 := ⟨keep 1 1⟩

/-- Equality of the doubles. -/
instance : BEq Unrounded where
  beq
    | exact m, exact n => m.double == n.double
    | _, _ => false

/-- A number of this arithmetic is the one that was computed in doubles and over the rationals. -/
def Agrees (a : Unrounded) (x : Float) (q : ℚ) : Prop :=
  ∀ n, a = exact n → n.double = x ∧ n.value = q

theorem agrees_rounded (x : Float) (q : ℚ) : Agrees rounded x q := by
  intro n h
  cases h

theorem agrees_exact (n : Number) : Agrees (exact n) n.double n.value := by
  intro m h
  cases h
  exact ⟨rfl, rfl⟩

theorem agrees_keep (x : Float) (q : ℚ) : Agrees (keep x q) x q := by
  by_cases stands : toRat? x = some q
  · rw [keep, dif_pos stands]
    exact agrees_exact ⟨x, q, stands⟩
  · rw [keep, dif_neg stands]
    exact agrees_rounded x q

theorem combine_rounded (f : Float → Float → Float) (g : ℚ → ℚ → ℚ) (a : Unrounded) :
    combine f g a rounded = rounded := by
  cases a <;> rfl

theorem Agrees.combine {a b : Unrounded} {x y : Float} {p q : ℚ} {f : Float → Float → Float}
    {g : ℚ → ℚ → ℚ} (ha : Agrees a x p) (hb : Agrees b y q) :
    Agrees (combine f g a b) (f x y) (g p q) := by
  cases a with
  | rounded => exact agrees_rounded _ _
  | exact m =>
    cases b with
    | rounded => exact agrees_rounded _ _
    | exact n =>
      obtain ⟨rfl, rfl⟩ := ha m rfl
      obtain ⟨rfl, rfl⟩ := hb n rfl
      exact agrees_keep _ _

section
variable {a b : Unrounded} {x y : Float} {p q : ℚ} (ha : Agrees a x p) (hb : Agrees b y q)
include ha hb

theorem Agrees.add : Agrees (a + b) (x + y) (p + q) := ha.combine hb

theorem Agrees.mul : Agrees (a * b) (x * y) (p * q) := ha.combine hb

theorem Agrees.div : Agrees (a / b) (x / y) (p / q) := ha.combine hb

end

theorem agrees_one : Agrees 1 1 1 := agrees_keep 1 1

theorem zero_eq : (0 : Unrounded) = exact ⟨0, 0, toRat?_zero⟩ := dif_pos toRat?_zero

/-- The test for zero has one answer in all three arithmetics. -/
theorem beq_zero (n : Number) :
    (exact n == 0) = (n.double == 0) ∧ (n.value == 0) = (n.double == 0) := by
  constructor
  · rw [zero_eq]
    rfl
  · have zero : (n.double == 0) = true ↔ _ := beq_zero_iff
    rw [Bool.eq_iff_iff, beq_iff_eq, zero, n.stands, Option.some.injEq]

end Unrounded

end FiniteCalculus.Double
