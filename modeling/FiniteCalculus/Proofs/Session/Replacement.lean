import FiniteCalculus.Proofs.Graph.Replacement
import FiniteCalculus.Proofs.Session.Walks

/-! Replacing parts in a session is all or nothing. One operand that cannot be a part leaves the
session as it was. If all of them can, every view of an expression that contains the node shows all
the new parts, each under its key and in the place that the key has had before. -/

namespace FiniteCalculus
set_option autoImplicit false

theorem bind_eq_error {ε α β : Type} {r : Except ε α} {f : α → Except ε β} {e : ε}
    (h : r >>= f = .error e) : r = .error e ∨ ∃ a, r = .ok a ∧ f a = .error e := by
  cases r with
  | error e' =>
    obtain rfl : e' = e := Except.error.inj h
    exact .inl rfl
  | ok a => exact .inr ⟨a, rfl, h⟩

namespace Graph
variable {g g' : Graph} {operands : List (String × Operand)} {misuse : Misuse}

theorem adopt_error {operand : Operand} (h : g.adopt operand = .error misuse) :
    ¬ operand.Adoptable ∧ misuse = .constantNotReal (g.typeName operand) := by
  cases operand with
  | expression e => cases h
  | argument x => cases h
  | value v =>
    simp only [adopt] at h
    split at h
    · cases h
    · rename_i unreal
      cases h
      exact ⟨unreal, rfl⟩
  | evaluator ev =>
    cases h
    exact ⟨id, rfl⟩

theorem adoptable_of_adopt {operand : Operand} {adopted : ExprId × Graph}
    (h : g.adopt operand = .ok adopted) : operand.Adoptable := by
  cases operand with
  | expression e => trivial
  | argument x => trivial
  | value v =>
    simp only [adopt] at h
    split at h
    · assumption
    · cases h
  | evaluator ev => cases h

theorem adoptable_of_adoptAll {adopted : List (String × ExprId) × Graph}
    (h : g.adoptAll operands = .ok adopted) :
    ∀ operand ∈ operands.map Prod.snd, operand.Adoptable := by
  induction operands generalizing g adopted with
  | nil => simp
  | cons entry rest ih =>
    obtain ⟨first, hfirst, h⟩ := bind_eq_ok h
    obtain ⟨others, hothers, _⟩ := bind_eq_ok h
    rw [List.map_cons, List.forall_mem_cons]
    exact ⟨adoptable_of_adopt hfirst, ih hothers⟩

theorem typeName_eq_of_not_adoptable {operand : Operand} (h : ¬ operand.Adoptable) :
    g'.typeName operand = g.typeName operand := by
  cases operand with
  | expression e => exact absurd trivial h
  | argument x => exact absurd trivial h
  | value v => rfl
  | evaluator ev => rfl

/-- It is the first operand that cannot be a part which is reported. -/
theorem adoptAll_error (h : g.adoptAll operands = .error misuse) :
    ∃ before key operand after, operands = before ++ (key, operand) :: after ∧
      (∀ earlier ∈ before, earlier.2.Adoptable) ∧ ¬ operand.Adoptable ∧
      misuse = .constantNotReal (g.typeName operand) := by
  induction operands generalizing g with
  | nil => cases h
  | cons entry rest ih =>
    obtain ⟨key, operand⟩ := entry
    rcases bind_eq_error h with hadopt | ⟨⟨e, g₁⟩, hadopt, h⟩
    · obtain ⟨unfit, named⟩ := adopt_error hadopt
      exact ⟨[], key, operand, rest, rfl, by simp, unfit, named⟩
    · rcases bind_eq_error h with hrest | ⟨others, _, h⟩
      · obtain ⟨before, key', operand', after, rfl, fits, unfit, named⟩ := ih hrest
        refine ⟨(key, operand) :: before, key', operand', after, rfl, ?_, unfit, ?_⟩
        · exact List.forall_mem_cons.mpr ⟨adoptable_of_adopt hadopt, fits⟩
        · rw [named, typeName_eq_of_not_adoptable unfit]
      · cases h

theorem setParts_error {e : ExprId} (h : g.setParts e operands = .error misuse) :
    g.adoptAll operands = .error misuse := by
  rcases bind_eq_error h with refused | ⟨adopted, _, h⟩
  · exact refused
  · cases h

theorem adoptable_of_setParts {e : ExprId} (h : g.setParts e operands = .ok g') :
    ∀ operand ∈ operands.map Prod.snd, operand.Adoptable := by
  obtain ⟨adopted, hadopted, _⟩ := bind_eq_ok h
  exact adoptable_of_adoptAll hadopted

theorem exists_setParts (e : ExprId) (fit : ∀ operand ∈ operands.map Prod.snd, operand.Adoptable) :
    ∃ g', g.setParts e operands = .ok g' := by
  obtain ⟨adopted, hadopted⟩ := g.exists_adoptAll fit
  exact ⟨_, by rw [setParts, hadopted]; rfl⟩

end Graph

namespace Session

variable {s : Session} {e : ExprId} {operands : List (String × Operand)}

theorem perform_replace_error {misuse : Misuse}
    (h : s.workspace.graph.setParts e operands = .error misuse) :
    s.perform (.replace e operands) = s := by
  rw [perform, h]
  rfl

theorem perform_replace_ok {g : Graph} (h : s.workspace.graph.setParts e operands = .ok g) :
    s.perform (.replace e operands) = { s with workspace := { s.workspace with graph := g } } := by
  rw [perform, h]
  rfl

/-- Replacing parts is refused just if some operand can be no part, with the type of the first such
operand, and then the session stays as it is. Otherwise every operand becomes the part under its
key, in both stores of the node, while all other keys keep their parts and the keys that were there
their places, and new ones follow; no other node changes. So every view of an expression shows the
tree that it had with the new parts put in wherever it contains the node. -/
theorem replace_all_or_nothing (reached : s.Reachable) (e : ExprId)
    (operands : List (String × Operand))
    (lawful : Action.Lawful s.workspace.graph (.replace e operands))
    (given : (operands.map Prod.fst).Nodup) :
    let g := s.workspace.graph
    let after := s.perform (.replace e operands)
    let g' := after.workspace.graph
    ((∃ misuse, g.setParts e operands = .error misuse) ↔
      ∃ operand ∈ operands.map Prod.snd, ¬ operand.Adoptable) ∧
    (∀ misuse, g.setParts e operands = .error misuse → after = s ∧
      ∃ before key operand rest, operands = before ++ (key, operand) :: rest ∧
        (∀ earlier ∈ before, earlier.2.Adoptable) ∧ ¬ operand.Adoptable ∧
        misuse = .constantNotReal (g.typeName operand)) ∧
    ((∀ operand ∈ operands.map Prod.snd, operand.Adoptable) →
      after = { s with workspace := { s.workspace with graph := g' } } ∧
      ∃ adopted, g.Replaces e operands adopted g' ∧
        (∀ node node', g.node? e = some node → g'.node? e = some node' →
          node'.listed = node'.parts ∧
          (∀ key, node'.parts.lookup key = (adopted.lookup key).or (node.parts.lookup key)) ∧
          node'.listed.map Prod.fst = node.listed.map Prod.fst ++
            (operands.map Prod.fst).filter fun key => key ∉ node.listed.map Prod.fst) ∧
        (∀ e' t, g.HasTree e' t → e ∉ t.labels.map Label.id → after.Shows e' t) ∧
        ∀ new, Correspond g'.HasTree adopted new →
          ∀ e' t, g.HasTree e' t → after.Shows e' (t.replaceAt e new)) := by
  intro g after g'
  have consistent := reachable_consistent reached
  have keyed := reachable_wellKeyed reached
  have reached' : after.Reachable := Leads.perform reached lawful
  have refused (misuse : Misuse) (h : g.setParts e operands = .error misuse) :=
    Graph.adoptAll_error (Graph.setParts_error h)
  refine ⟨⟨?_, ?_⟩, fun misuse h => ⟨perform_replace_error h, refused misuse h⟩, fun fit => ?_⟩
  · rintro ⟨misuse, h⟩
    obtain ⟨before, key, operand, rest, rfl, _, unfit, _⟩ := refused misuse h
    exact ⟨operand, by simp, unfit⟩
  · rintro ⟨operand, mem, unfit⟩
    cases h : g.setParts e operands with
    | error misuse => exact ⟨misuse, rfl⟩
    | ok g₁ => exact absurd (Graph.adoptable_of_setParts h operand mem) unfit
  · obtain ⟨g₁, h⟩ := g.exists_setParts e fit
    have performed := perform_replace_ok h
    obtain ⟨node, hnode, _⟩ := lawful
    have changed : g' = g₁ := congrArg (·.workspace.graph) performed
    obtain ⟨adopted, replaces⟩ :=
      Graph.setParts_replaces consistent keyed given ⟨node, hnode⟩ (changed ▸ h)
    refine ⟨changed ▸ performed, adopted, replaces, fun old new hold hnew => ?_,
      fun e' t tree absent => ?_, fun new below e' t tree => ?_⟩
    · obtain ⟨found, hfound, _, _, _, parts, listed⟩ := replaces.node old hold
      obtain rfl := Option.some.inj (hfound.symm.trans hnew)
      refine ⟨(Leads.extends reached').listed_eq hnew, fun key => ?_, ?_⟩
      · rw [parts, lookup_replaceKeys]
      · rw [listed, keys_replaceKeys, Graph.keys_of_forall₂ replaces.becomes]
    · exact shows_of_hasTree reached' (replaces.hasTree_of_not_mem tree absent)
    · exact shows_of_hasTree reached' (replaces.hasTree below tree)

/-- The square of twice `x`, with one node for both factors. -/
def squareOfDouble : Session :=
  ((({} : Session).perform (.declare (.value (.text "x")) (.int 3))).perform
    (.make (.scaling (.argument ⟨0⟩) (.int 2)) none)).perform
    (.make (.multiplication (.expression ⟨1⟩) (.expression ⟨1⟩)) none)

/-- In the square of twice `x`, a text under one key keeps the other from being replaced, and the
part of the node that is shared is replaced in both factors. -/
theorem squareOfDouble_replaced :
    squareOfDouble.perform
      (.replace ⟨2⟩ [(Key.left, .argument ⟨0⟩), (Key.right, .value (.text "y"))]) = squareOfDouble ∧
    let after := squareOfDouble.perform (.replace ⟨1⟩ [(Key.scaled, .value (.int 5))])
    (after.workspace.calculate (.expression ⟨2⟩)).result = .ok (.int 100) ∧
      after.workspace.graph.arguments ⟨2⟩ = .ok [] := by
  have reached : squareOfDouble.Reachable := by
    refine Leads.perform (Leads.perform (Leads.perform Leads.refl ?_) ?_) ?_ <;> trivial
  have tree : squareOfDouble.workspace.graph.HasTree ⟨2⟩ _ := Graph.expression_eq_ok_iff.mp
    (show squareOfDouble.workspace.graph.expression ⟨2⟩ = .ok _ from rfl)
  constructor
  · obtain ⟨refused, unchanged, _⟩ := replace_all_or_nothing reached ⟨2⟩
      [(Key.left, .argument ⟨0⟩), (Key.right, .value (.text "y"))] ⟨_, rfl, by decide⟩ (by decide)
    obtain ⟨misuse, h⟩ := refused.mpr ⟨.value (.text "y"), by simp, Bool.false_ne_true⟩
    exact (unchanged misuse h).1
  · obtain ⟨_, _, replaced⟩ := replace_all_or_nothing reached ⟨1⟩ [(Key.scaled, .value (.int 5))]
      ⟨_, rfl, by decide⟩ (by decide)
    obtain ⟨_, adopted, replaces, _, _, views⟩ :=
      replaced (by simp [Operand.Adoptable, Value.isReal])
    obtain ⟨⟨_, part⟩, _, ⟨rfl, fresh⟩, none, rfl⟩ := List.forall₂_cons_left_iff.mp replaces.becomes
    cases none
    have five := Graph.hasTree_node.mpr ⟨_, fresh.2, rfl, .nil⟩
    have shown := views [(Key.scaled, _)] (.cons ⟨rfl, five⟩ .nil) ⟨2⟩ _ tree
    exact ⟨(congrArg Outcome.result shown.calculate).trans rfl, shown.arguments.trans rfl⟩

end Session

end FiniteCalculus
