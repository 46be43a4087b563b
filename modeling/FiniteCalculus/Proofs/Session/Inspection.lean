import FiniteCalculus.Proofs.Evaluator.Memory
import FiniteCalculus.Proofs.Session.Replacement

/-! Evaluators that are looked at. Along with a session there is the memory in which its evaluators
lie; each of them can be asked for its parts, and the lists that are handed out can be written to.
The main statement is that an evaluator has the shape of the tree that it was made of, and keeps it
whatever is done to the nodes of that tree and to those lists. -/

namespace FiniteCalculus
set_option autoImplicit false

structure Inspection where
  session : Session := {}
  memory : Memory := {}
  /-- The evaluators of the session, in the same order. -/
  roots : List EvaluatorId := []
  /-- The lists that were handed out. -/
  copies : List ListId := []

inductive Move where
  | act (action : Action)
  | ask (e : EvaluatorId)
  | write (l : ListId) (members : List EvaluatorId)

/-- Only lists that were handed out are written to. -/
def Move.Lawful (i : Inspection) : Move → Prop
  | act action => action.Lawful i.session.workspace.graph
  | ask _ => True
  | write l _ => l ∈ i.copies

namespace Inspection

def perform (i : Inspection) : Move → Inspection
  | .act (.snapshot e) =>
    let session := i.session.perform (.snapshot e)
    match i.session.workspace.graph.evaluator e with
    | .ok ev =>
      let (root, memory) := Memory.create ev i.memory
      { i with session := session, memory := memory, roots := i.roots ++ [root] }
    | .error _ => { i with session := session }
  | .act action => { i with session := i.session.perform action }
  | .ask e =>
    match i.memory.subEvaluators e with
    | some (l, memory) => { i with memory := memory, copies := i.copies ++ [l] }
    | none => i
  | .write l members => { i with memory := i.memory.write l members }

def Step (i i' : Inspection) : Prop := ∃ move : Move, move.Lawful i ∧ i' = i.perform move

def Leads : Inspection → Inspection → Prop := Relation.ReflTransGen Step

def Reachable (i : Inspection) : Prop := Leads {} i

variable {i i' : Inspection}

theorem Leads.perform (h : i.Leads i') {move : Move} (lawful : move.Lawful i') :
    i.Leads (i'.perform move) := Relation.ReflTransGen.tail h ⟨move, lawful, rfl⟩

/-- No evaluator keeps its parts in a list that was handed out. -/
structure Sound (i : Inspection) : Prop where
  intact : i.memory.Intact
  listed : ∀ l ∈ i.copies, ∃ members, i.memory.list? l = some members
  apart : ∀ e kept, i.memory.kept? e = some kept → kept.parts ∉ i.copies

/-- All evaluators are there as they were. -/
def Keeps (i i' : Inspection) : Prop :=
  ∀ e ev, i.memory.evaluator? e = some ev → i'.memory.evaluator? e = some ev

theorem Sound.extend (h : i.Sound) (extended : i.memory.Extends i'.memory)
    (intact : i'.memory.Intact) (copies : i'.copies = i.copies) : i'.Sound where
  intact := intact
  listed l hl := by
    rw [copies] at hl
    obtain ⟨members, found⟩ := h.listed l hl
    exact ⟨members, extended.lists l members found⟩
  apart e kept hkept hl := by
    rw [copies] at hl
    rcases extended.fresh e kept hkept with old | new
    · exact h.apart e kept old hl
    · obtain ⟨members, found⟩ := h.listed _ hl
      cases new.symm.trans found

theorem Sound.copy (h : i.Sound) (members : List EvaluatorId) :
    Sound { i with memory := (Memory.newList members i.memory).2
                   copies := i.copies ++ [(Memory.newList members i.memory).1] } where
  intact := h.intact.newList members
  listed l hl := by
    rcases List.mem_append.mp hl with old | new
    · obtain ⟨found, hfound⟩ := h.listed l old
      exact ⟨found, (Memory.newList_extends members i.memory).lists l found hfound⟩
    · rw [List.mem_singleton.mp new]
      exact ⟨members, Memory.list?_newList members i.memory⟩
  apart e kept hkept hl := by
    rcases List.mem_append.mp hl with old | new
    · exact h.apart e kept hkept old
    · obtain ⟨found, hfound, _⟩ := h.intact e kept hkept
      rw [List.mem_singleton.mp new, Memory.list?_newList_eq_none] at hfound
      cases hfound

theorem Sound.write (h : i.Sound) {l : ListId} (copied : l ∈ i.copies)
    (members : List EvaluatorId) : Sound { i with memory := i.memory.write l members } where
  intact := by
    refine h.intact.write (fun e kept hkept same => ?_) members
    exact h.apart e kept hkept (same ▸ copied)
  listed l' hl' := by
    by_cases same : l' = l
    · subst same
      exact ⟨members, Memory.list?_write_self (h.listed l' hl') members⟩
    · rw [Memory.list?_write_of_ne same]
      exact h.listed l' hl'
  apart := h.apart

theorem session_act (i : Inspection) (action : Action) :
    (i.perform (.act action)).session = i.session.perform action := by
  cases action with
  | snapshot e =>
    simp only [perform]
    split <;> rfl
  | _ => rfl

/-- Evaluators are made and never changed, and the lists they are kept in are never handed out. -/
theorem Sound.perform (h : i.Sound) {move : Move} (lawful : move.Lawful i) :
    (i.perform move).Sound ∧ i.Keeps (i.perform move) := by
  cases move with
  | act action =>
    cases action with
    | snapshot e =>
      simp only [Inspection.perform]
      split
      · rename_i ev _
        have created := Memory.create_gains ev h.intact
        exact ⟨h.extend created.extended created.intact rfl,
          fun _ _ => created.extended.evaluator?⟩
      · exact ⟨h.extend (.refl _) h.intact rfl, fun _ _ => id⟩
    | _ => exact ⟨h.extend (.refl _) h.intact rfl, fun _ _ => id⟩
  | ask e =>
    simp only [Inspection.perform]
    split
    · rename_i l memory asked
      obtain ⟨members, copied⟩ := Memory.newList_of_subEvaluators asked
      cases copied
      exact ⟨h.copy members, fun _ _ => (Memory.newList_extends members i.memory).evaluator?⟩
    · exact ⟨h, fun _ _ => id⟩
  | write l members => exact ⟨h.write lawful members, fun _ _ => id⟩

theorem Leads.sound (h : i.Leads i') (sound : i.Sound) : i'.Sound ∧ i.Keeps i' := by
  induction h with
  | refl => exact ⟨sound, fun _ _ => id⟩
  | tail _ step ih =>
    obtain ⟨move, lawful, rfl⟩ := step
    obtain ⟨sound', keeps⟩ := ih
    obtain ⟨sound'', keeps'⟩ := sound'.perform lawful
    exact ⟨sound'', fun e ev found => keeps' e ev (keeps e ev found)⟩

theorem sound_empty : Sound {} where
  intact _ _ h := by simp [Memory.kept?] at h
  listed _ h := by cases h
  apart _ _ _ h := by cases h

theorem Leads.session (h : i.Leads i') : i.session.Leads i'.session := by
  induction h with
  | refl => exact Session.Leads.refl
  | tail _ step ih =>
    obtain ⟨move, lawful, rfl⟩ := step
    cases move with
    | act action =>
      rw [session_act]
      exact ih.perform lawful
    | ask e =>
      simp only [Inspection.perform]
      split <;> exact ih
    | write l members => exact ih

theorem perform_snapshot {e : ExprId} {ev : Evaluator}
    (h : i.session.workspace.graph.evaluator e = .ok ev) : i.perform (.act (.snapshot e)) =
      { session := { i.session with evaluators := i.session.evaluators ++ [ev] }
        memory := (Memory.create ev i.memory).2
        roots := i.roots ++ [(Memory.create ev i.memory).1]
        copies := i.copies } := by
  simp only [perform, Session.perform, h]
  rfl

/-- The evaluator of a node has the shape of the tree at that node: a walk that asks it and all
below it for their parts comes to the names that a walk through the tree comes to, in the same order
and each below the same names. It keeps this shape whatever happens to the nodes afterwards and
whatever is written to the lists that were handed out. -/
theorem evaluator_mirrors_tree (reached : i.Reachable) {e : ExprId}
    (acyclic : i.session.workspace.graph.AcyclicBelow e) :
    let g := i.session.workspace.graph
    let made := i.perform (.act (.snapshot e))
    ∃ ev root visits, g.evaluator e = .ok ev ∧ g.traverse e true = .ok visits ∧
      made.session.evaluators = i.session.evaluators ++ [ev] ∧ made.roots = i.roots ++ [root] ∧
      ∀ later, made.Leads later →
        later.session.evaluators[i.session.evaluators.length]? = some ev ∧
        later.memory.evaluator? root = some ev ∧
        ∃ after, later.memory.walk root = some (visits.map Visit.named, after) := by
  intro g made
  have session : i.session.Reachable := Leads.session reached
  obtain ⟨sound, _⟩ := Leads.sound reached sound_empty
  obtain ⟨t, tree⟩ := Graph.acyclicBelow_iff.mp acyclic
  have shown := Session.shows_of_hasTree session tree
  obtain ⟨ev, compiled, hev⟩ := shown.evaluator
  have created := Memory.create_gains ev sound.intact
  have mirrored := tree.mirroredBy (Session.reachable_wellKeyed session) hev
  have performed : made = _ := perform_snapshot compiled
  refine ⟨ev, (Memory.create ev i.memory).1, t.traverse, compiled, shown.traverse true,
    by rw [performed], by rw [performed], fun later leads => ?_⟩
  have lawful : Move.Lawful i (.act (.snapshot e)) := trivial
  obtain ⟨soundLater, keeps⟩ := leads.sound (sound.perform lawful).1
  have found : later.memory.evaluator? (Memory.create ev i.memory).1 = some ev := by
    apply keeps
    rw [performed]
    exact created.found
  obtain ⟨rest, same⟩ := leads.session.evaluators
  refine ⟨?_, found, Memory.walk_of_mirroredBy mirrored soundLater.intact found⟩
  rw [← same, performed]
  simp

/-- The square of `x`, called so, and its difference in another argument of the same name, to which
a point was added. -/
def namedSquare : Inspection :=
  ((((((({} : Inspection).perform (.act (.declare (.value (.text "x")) (.int 3)))).perform
    (.act (.declare (.value (.text "x")) (.int 4)))).perform
    (.act (.make (.reference (.argument ⟨0⟩)) none))).perform
    (.act (.make (.multiplication (.expression ⟨0⟩) (.expression ⟨0⟩)) none))).perform
    (.act (.make Session.differenceInNamesake none))).perform
    (.act (.replace ⟨3⟩ [(Key.point, .argument ⟨1⟩)]))).perform (.act (.rename ⟨1⟩ "square"))

/-- Its evaluator is asked for its parts, and the list of them is emptied; the square is renamed,
and the step of the difference is replaced. -/
def namedSquareLater : Inspection :=
  ((((namedSquare.perform (.act (.snapshot ⟨3⟩))).perform (.ask ⟨5⟩)).perform
    (.write ⟨6⟩ [])).perform (.act (.rename ⟨1⟩ "area"))).perform
    (.act (.replace ⟨3⟩ [(Key.width, .argument ⟨0⟩)]))

theorem namedSquare_walked :
    (namedSquareLater.memory.walk ⟨5⟩).map Prod.fst = some [([], "fwd-diff"),
      (["fwd-diff"], "square"), (["fwd-diff", "square"], "x"), (["fwd-diff", "square"], "x"),
      (["fwd-diff"], "const"), (["fwd-diff"], "x")] ∧
    (namedSquareLater.session.workspace.graph.traverse ⟨3⟩ true).map (·.map Visit.named) =
      .ok [([], "fwd-diff"), (["fwd-diff"], "area"), (["fwd-diff", "area"], "x"),
        (["fwd-diff", "area"], "x"), (["fwd-diff"], "x"), (["fwd-diff"], "x")] ∧
    namedSquareLater.memory.list? ⟨6⟩ = some [] := by
  have reached : namedSquare.Reachable := by
    refine Leads.perform (Leads.perform (Leads.perform (Leads.perform (Leads.perform (Leads.perform
      (Leads.perform .refl ?_) ?_) ?_) ?_) ?_) ?_) ?_
    on_goal 6 => exact ⟨_, rfl, by decide⟩
    all_goals trivial
  have acyclic : namedSquare.session.workspace.graph.AcyclicBelow ⟨3⟩ :=
    Graph.acyclicBelow_iff.mpr ⟨_, Graph.expression_eq_ok_iff.mp rfl⟩
  have leads : (namedSquare.perform (.act (.snapshot ⟨3⟩))).Leads namedSquareLater := by
    refine Leads.perform (Leads.perform (Leads.perform (Leads.perform .refl ?_) ?_) ?_) ?_
    on_goal 2 => exact List.mem_singleton_self _
    on_goal 3 => exact ⟨_, rfl, by decide⟩
    all_goals trivial
  obtain ⟨ev, root, visits, _, traversed, _, made, mirrored⟩ :=
    evaluator_mirrors_tree reached acyclic
  obtain ⟨_, _, after, walked⟩ := mirrored _ leads
  have first : root = ⟨5⟩ := by
    have roots : [⟨5⟩] = [root] := (show _ = _ from rfl).trans made
    exact (List.singleton_injective roots).symm
  have snapshot : (namedSquare.perform (.act (.snapshot ⟨3⟩))).Reachable :=
    Leads.perform reached trivial
  have now : namedSquareLater.session.Reachable :=
    Leads.session (Relation.ReflTransGen.trans snapshot leads)
  rw [Graph.traverse, Session.reachable_listing_eq (Leads.session reached)] at traversed
  rw [Graph.traverse, Session.reachable_listing_eq now]
  refine ⟨?_, rfl, rfl⟩
  rw [← first, walked, ← Except.ok.inj ((show _ = Except.ok _ from rfl).trans traversed)]
  rfl

end Inspection

end FiniteCalculus
