import FiniteCalculus.Expression.Evaluator
import FiniteCalculus.Proofs.Value.Reals

/-! What an expression means, by recursion on its tree: each part is evaluated where
it stands, from left to right, and no evaluator is built. The main statement is that
an evaluator, built first and run afterwards, runs exactly like the tree. -/

namespace FiniteCalculus
set_option autoImplicit false

namespace Expression
variable {β : Type}

/-- An expression by its parts, which are expressions before it is. -/
theorem induction {motive : Expression → Prop}
    (node : ∀ (label : Label) (parts : List (String × Expression)),
      (∀ key part, (key, part) ∈ parts → motive part) → motive (.node label parts))
    (t : Expression) : motive t := by
  refine Expression.rec (motive_1 := motive)
    (motive_2 := fun parts => ∀ key part, (key, part) ∈ parts → motive part)
    (motive_3 := fun entry => motive entry.2) ?_ ?_ ?_ ?_ t
  · exact node
  · intro key part h
    cases h
  · intro entry rest hentry hrest key part h
    rcases List.mem_cons.mp h with rfl | h
    · exact hentry
    · exact hrest key part h
  · exact fun key part hpart => hpart

theorem mem_of_lookup {key : String} {part : β} {parts : List (String × β)}
    (h : parts.lookup key = some part) : (key, part) ∈ parts := by
  obtain ⟨before, after, rfl, _⟩ := List.lookup_eq_some_iff.mp h
  simp

theorem lookup_foldParts (combine : Label → List (String × β) → β) (key : String)
    (parts : List (String × Expression)) :
    (foldParts combine parts).lookup key = (parts.lookup key).map (fold combine) := by
  induction parts with
  | nil => rfl
  | cons entry rest ih =>
    obtain ⟨k, p⟩ := entry
    rw [foldParts, List.lookup_cons, List.lookup_cons]
    cases key == k with
    | true => rfl
    | false => exact ih

end Expression

namespace Label

/-- The evaluation of a node, given those of its parts by key. A sum, product or
difference takes its bounds, step, point and width before the body, each of them once. -/
def value (l : Label) (part? : String → Option (Evaluation Value)) : Evaluation Value :=
  let part (key : String) : Evaluation Value := (part? key).getD (throw (.missingPart key))
  match l.shape with
  | .constant c => pure c
  | .reference x => Evaluation.read x
  | .application f _ count => do
    Evaluation.call f (← (List.range count).mapM fun i => part (Key.arg i))
  | .scaling factor => do Evaluation.lift (factor.mul (← part Key.scaled))
  | .addition coefficient => do
    let v ← part Key.left
    let w ← part Key.right
    if coefficient.equal (.double 1.0) then Evaluation.lift (v.add w)
    else Evaluation.lift (do v.add (← coefficient.mul w))
  | .multiplication => do
    let v ← part Key.left
    let w ← part Key.right
    Evaluation.lift (v.mul w)
  | .iteration op index => do
    let first ← part Key.start
    let last ← part Key.stop
    let step ← part Key.step
    op.overRange (part Key.body) index ⟨first, last, step⟩
  | .difference d x =>
    match part? Key.point with
    | none => do
      let step ← part Key.width
      d.of (part Key.body) x none step
    | some point => do
      let v ← point
      let step ← part Key.width
      d.of (part Key.body) x (Evaluator.pointOf v) step

end Label

namespace Expression

/-- The evaluation of an expression, by recursion on its tree. -/
def value : Expression → Evaluation Value := fold fun l parts => l.value fun key => parts.lookup key

theorem value_node (l : Label) (parts : List (String × Expression)) :
    value (.node l parts) = l.value fun key => (parts.lookup key).map value := by
  simp only [value, fold]
  congr 1
  funext key
  exact lookup_foldParts _ key parts

section
variable {parts : List (String × Expression)}

/-- The evaluator of the part under a key. -/
def evaluatorOf (parts : List (String × Expression)) (key : String) : Except Fault Evaluator :=
  ((parts.lookup key).map evaluator).getD (.error (.missingPart key))

theorem lookup_of_evaluatorOf {key : String} {ev : Evaluator}
    (h : evaluatorOf parts key = .ok ev) :
    ∃ p, parts.lookup key = some p ∧ p.evaluator = .ok ev := by
  unfold evaluatorOf at h
  cases hp : parts.lookup key with
  | none => rw [hp] at h; cases h
  | some p => rw [hp] at h; exact ⟨p, rfl, h⟩

/-- What the evaluator of a node is, given those of its parts by key: one case for each class, and
two for differences. -/
inductive Assembles (name : String) (parts : List (String × Expression)) :
    Shape → Evaluator → Prop where
  | constant (c : Value) : Assembles name parts (.constant c) (.constant name c)
  | reference (x : Argument) : Assembles name parts (.reference x) (.reference name x)
  | application {f : NumericFunction} {description : String} {count : Nat} {args : List Evaluator} :
    (List.range count).mapM (fun i => evaluatorOf parts (Key.arg i)) = .ok args →
    Assembles name parts (.application f description count) (.application name f args)
  | scaling {factor : Value} {part : Evaluator} : evaluatorOf parts Key.scaled = .ok part →
    Assembles name parts (.scaling factor) (.scaling name factor part)
  | addition {coefficient : Value} {left right : Evaluator} :
    evaluatorOf parts Key.left = .ok left → evaluatorOf parts Key.right = .ok right →
    Assembles name parts (.addition coefficient) (.addition name coefficient left right)
  | multiplication {left right : Evaluator} :
    evaluatorOf parts Key.left = .ok left → evaluatorOf parts Key.right = .ok right →
    Assembles name parts .multiplication (.multiplication name left right)
  | iteration {op : Iteration} {index : Argument} {body start stop step : Evaluator} :
    evaluatorOf parts Key.body = .ok body → evaluatorOf parts Key.start = .ok start →
    evaluatorOf parts Key.stop = .ok stop → evaluatorOf parts Key.step = .ok step →
    Assembles name parts (.iteration op index) (.iteration name op index body start stop step)
  | difference {d : Difference} {x : Argument} {body width : Evaluator} :
    evaluatorOf parts Key.body = .ok body → evaluatorOf parts Key.width = .ok width →
    parts.lookup Key.point = none →
    Assembles name parts (.difference d x) (.difference name d x body width none)
  | differenceAt {d : Difference} {x : Argument} {body width point : Evaluator} :
    evaluatorOf parts Key.body = .ok body → evaluatorOf parts Key.width = .ok width →
    evaluatorOf parts Key.point = .ok point →
    Assembles name parts (.difference d x) (.difference name d x body width (some point))

theorem assembles_of_evaluator {l : Label} {ev : Evaluator}
    (h : (Expression.node l parts).evaluator = .ok ev) : Assembles l.name parts l.shape ev := by
  simp only [evaluator, fold, Label.evaluator, lookup_foldParts] at h
  generalize l.shape = shape at h ⊢
  cases shape with
  | constant c =>
    cases h
    exact .constant c
  | reference x =>
    cases h
    exact .reference x
  | application f description count =>
    obtain ⟨args, hargs, h⟩ := bind_eq_ok h
    cases h
    exact .application hargs
  | scaling factor =>
    obtain ⟨part, hpart, h⟩ := bind_eq_ok h
    cases h
    exact .scaling hpart
  | addition coefficient =>
    obtain ⟨left, hleft, h⟩ := bind_eq_ok h
    obtain ⟨right, hright, h⟩ := bind_eq_ok h
    cases h
    exact .addition hleft hright
  | multiplication =>
    obtain ⟨left, hleft, h⟩ := bind_eq_ok h
    obtain ⟨right, hright, h⟩ := bind_eq_ok h
    cases h
    exact .multiplication hleft hright
  | iteration op index =>
    obtain ⟨body, hbody, h⟩ := bind_eq_ok h
    obtain ⟨start, hstart, h⟩ := bind_eq_ok h
    obtain ⟨stop, hstop, h⟩ := bind_eq_ok h
    obtain ⟨step, hstep, h⟩ := bind_eq_ok h
    cases h
    exact .iteration hbody hstart hstop hstep
  | difference d x =>
    obtain ⟨body, hbody, h⟩ := bind_eq_ok h
    obtain ⟨width, hwidth, h⟩ := bind_eq_ok h
    cases hp : parts.lookup Key.point with
    | none =>
      rw [hp] at h
      cases h
      exact .difference hbody hwidth hp
    | some p =>
      rw [hp] at h
      obtain ⟨point, hpoint, h⟩ := bind_eq_ok h
      cases h
      exact .differenceAt hbody hwidth (by rw [evaluatorOf, hp]; exact hpoint)

theorem values_of_evaluatorOf {part : String → Evaluation Value}
    (same : ∀ key ev, evaluatorOf parts key = .ok ev → ev.value = part key)
    {places : List Nat} {evs : List Evaluator}
    (h : (places.mapM fun i => evaluatorOf parts (Key.arg i)) = .ok evs) :
    Evaluator.values evs = places.mapM fun i => part (Key.arg i) := by
  induction places generalizing evs with
  | nil => cases h; rfl
  | cons i places ih =>
    rw [List.mapM_cons] at h
    obtain ⟨ev, hev, h⟩ := bind_eq_ok h
    obtain ⟨rest, hrest, h⟩ := bind_eq_ok h
    cases h
    rw [Evaluator.values, List.mapM_cons, same _ ev hev, ih hrest]

end

/-- An evaluator runs like the tree it was built for. -/
theorem value_of_evaluator {t : Expression} {ev : Evaluator} (h : t.evaluator = .ok ev) :
    ev.value = t.value := by
  induction t using induction generalizing ev with
  | node l parts ih =>
    have same (key : String) (ev : Evaluator) (h : evaluatorOf parts key = .ok ev) :
        ev.value = ((parts.lookup key).map value).getD (throw (.missingPart key)) := by
      obtain ⟨p, hp, hev⟩ := lookup_of_evaluatorOf h
      rw [hp]
      exact ih key p (mem_of_lookup hp) hev
    have assembled := assembles_of_evaluator h
    rw [value_node, Label.value]
    generalize l.shape = shape at assembled ⊢
    cases assembled with
    | constant c => rw [Evaluator.value]
    | reference x => rw [Evaluator.value]
    | application hargs => rw [Evaluator.value, values_of_evaluatorOf same hargs]
    | scaling hpart => rw [Evaluator.value, same _ _ hpart]
    | addition hleft hright => rw [Evaluator.value, same _ _ hleft, same _ _ hright]
    | multiplication hleft hright => rw [Evaluator.value, same _ _ hleft, same _ _ hright]
    | iteration hbody hstart hstop hstep =>
      rw [Evaluator.value, same _ _ hbody, same _ _ hstart, same _ _ hstop, same _ _ hstep]
    | difference hbody hwidth absent =>
      rw [Evaluator.value, same _ _ hbody, same _ _ hwidth]
      simp only [absent, Option.map_none]
    | differenceAt hbody hwidth hpoint =>
      obtain ⟨p, hp, _⟩ := lookup_of_evaluatorOf hpoint
      rw [Evaluator.value, same _ _ hbody, same _ _ hwidth, same _ _ hpoint]
      simp only [hp, Option.map_some, Option.getD_some]

end Expression

end FiniteCalculus
