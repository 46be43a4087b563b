import FiniteCalculus.Expression.Memory
import FiniteCalculus.Proofs.Evaluator.Mirrors

/-! Evaluators in memory and walks through them. As long as no list in which an evaluator keeps
its parts is written to, each evaluator has the evaluators of its parts in its list, and a walk
that asks one after the other for its parts goes through the tree that the evaluator mirrors. -/

namespace FiniteCalculus
set_option autoImplicit false

namespace Evaluator

/-- An evaluator by its parts, which are evaluators before it is. -/
theorem induction {motive : Evaluator → Prop}
    (ofParts : ∀ ev : Evaluator, (∀ part ∈ ev.parts, motive part) → motive ev) (ev : Evaluator) :
    motive ev := by
  refine Evaluator.rec (motive_1 := motive) (motive_2 := fun evs => ∀ ev ∈ evs, motive ev)
    (motive_3 := fun point => ∀ ev ∈ point.toList, motive ev) ?_ ?_ ?_ ?_ ?_ ?_ ?_ ?_ ?_ ?_ ?_ ?_ ev
  · intro name c
    exact ofParts _ (by simp [parts])
  · intro name x
    exact ofParts _ (by simp [parts])
  · intro name f args hargs
    exact ofParts _ hargs
  · intro name factor part hpart
    exact ofParts _ (by simp [parts, hpart])
  · intro name coefficient left right hleft hright
    exact ofParts _ (by simp [parts, hleft, hright])
  · intro name left right hleft hright
    exact ofParts _ (by simp [parts, hleft, hright])
  · intro name op index body start stop step hbody hstart hstop hstep
    exact ofParts _ (by simp [parts, hbody, hstart, hstop, hstep])
  · intro name d x body width point hbody hwidth hpoint
    exact ofParts _ (by simpa [parts, hbody, hwidth] using hpoint)
  · simp
  · intro head tail hhead htail
    exact List.forall_mem_cons.mpr ⟨hhead, htail⟩
  · simp
  · intro point hpoint
    simpa using hpoint

end Evaluator

namespace Memory
variable {m m' m'' : Memory} {e : EvaluatorId} {ev : Evaluator}

/-- What is kept stays, no list is written to, and what is new keeps its parts in a new list. -/
structure Extends (m m' : Memory) : Prop where
  kept : ∀ e kept, m.kept? e = some kept → m'.kept? e = some kept
  lists : ∀ l members, m.list? l = some members → m'.list? l = some members
  fresh : ∀ e kept, m'.kept? e = some kept → m.kept? e = some kept ∨ m.list? kept.parts = none

/-- In its list an evaluator has one for each of its parts, in their order, all of them made before
it was. -/
def Intact (m : Memory) : Prop :=
  ∀ e kept, m.kept? e = some kept → ∃ members, m.list? kept.parts = some members ∧
    List.Forall₂ (fun member part => member.index < e.index ∧ m.evaluator? member = some part)
      members kept.evaluator.parts

theorem Extends.refl (m : Memory) : m.Extends m :=
  ⟨fun _ _ h => h, fun _ _ h => h, fun _ _ h => .inl h⟩

theorem Extends.trans (h : m.Extends m') (h' : m'.Extends m'') : m.Extends m'' where
  kept e kept hkept := h'.kept e kept (h.kept e kept hkept)
  lists l members hl := h'.lists l members (h.lists l members hl)
  fresh e kept hkept := by
    rcases h'.fresh e kept hkept with old | new
    · exact h.fresh e kept old
    · refine .inr (Option.eq_none_iff_forall_ne_some.mpr fun members hl => ?_)
      cases new.symm.trans (h.lists _ members hl)

theorem evaluator?_eq_some_iff : m.evaluator? e = some ev ↔
    ∃ kept, m.kept? e = some kept ∧ kept.evaluator = ev := Option.map_eq_some_iff

theorem Extends.evaluator? (h : m.Extends m') (he : m.evaluator? e = some ev) :
    m'.evaluator? e = some ev := by
  obtain ⟨kept, hkept, rfl⟩ := evaluator?_eq_some_iff.mp he
  exact evaluator?_eq_some_iff.mpr ⟨kept, h.kept e kept hkept, rfl⟩

theorem index_lt (he : m.evaluator? e = some ev) : e.index < m.kept.size := by
  obtain ⟨kept, hkept, _⟩ := evaluator?_eq_some_iff.mp he
  exact (Array.getElem?_eq_some_iff.mp hkept).1

theorem newList_extends (members : List EvaluatorId) (m : Memory) :
    m.Extends (newList members m).2 where
  kept _ _ h := h
  lists l found h := by
    have inside := (Array.getElem?_eq_some_iff.mp h).1
    simpa [newList, list?, Array.getElem?_push, Nat.ne_of_lt inside] using h
  fresh _ _ h := .inl h

theorem list?_newList (members : List EvaluatorId) (m : Memory) :
    (newList members m).2.list? (newList members m).1 = some members := by
  simp [newList, list?]

theorem list?_newList_eq_none (members : List EvaluatorId) (m : Memory) :
    m.list? (newList members m).1 = none := by
  simp [newList, list?]

theorem Intact.newList (h : m.Intact) (members : List EvaluatorId) :
    (newList members m).2.Intact := by
  intro e kept hkept
  obtain ⟨found, hl, aligned⟩ := h e kept hkept
  exact ⟨found, (newList_extends members m).lists _ _ hl, aligned⟩

theorem kept?_keep (ev : Evaluator) (members : List EvaluatorId) (m : Memory) (e : EvaluatorId) :
    (keep ev members m).2.kept? e =
      if e.index = m.kept.size then some ⟨ev, (newList members m).1⟩ else m.kept? e :=
  Array.getElem?_push

theorem list?_keep (ev : Evaluator) (members : List EvaluatorId) (m : Memory) (l : ListId) :
    (keep ev members m).2.list? l = (newList members m).2.list? l := rfl

theorem keep_extends (ev : Evaluator) (members : List EvaluatorId) (m : Memory) :
    m.Extends (keep ev members m).2 where
  kept e kept h := by
    have inside := (Array.getElem?_eq_some_iff.mp h).1
    rw [kept?_keep, if_neg (Nat.ne_of_lt inside)]
    exact h
  lists l found h := by
    rw [list?_keep]
    exact (newList_extends members m).lists l found h
  fresh e kept h := by
    rw [kept?_keep] at h
    split at h
    · cases h
      exact .inr (list?_newList_eq_none members m)
    · exact .inl h

/-- The evaluator is added, and found where it was put. -/
structure Gains (m : Memory) (ev : Evaluator) (made : EvaluatorId × Memory) : Prop where
  extended : m.Extends made.2
  intact : made.2.Intact
  found : made.2.evaluator? made.1 = some ev

theorem keep_gains (h : m.Intact) {members : List EvaluatorId}
    (below : List.Forall₂ (fun member part => m.evaluator? member = some part) members ev.parts) :
    m.Gains ev (keep ev members m) := by
  have extended := keep_extends ev members m
  have found : (keep ev members m).2.kept? ⟨m.kept.size⟩ = some ⟨ev, (newList members m).1⟩ := by
    rw [kept?_keep, if_pos rfl]
  refine ⟨extended, fun e kept hkept => ?_, evaluator?_eq_some_iff.mpr ⟨_, found, rfl⟩⟩
  rw [kept?_keep] at hkept
  split at hkept
  · rename_i last
    cases hkept
    refine ⟨members, list?_newList members m, below.imp fun member part hmember => ?_⟩
    exact ⟨last ▸ index_lt hmember, extended.evaluator? hmember⟩
  · obtain ⟨old, hl, aligned⟩ := h e kept hkept
    refine ⟨old, extended.lists _ _ hl, aligned.imp fun member part head => ?_⟩
    exact ⟨head.1, extended.evaluator? head.2⟩

/-- An evaluator is made after its parts. -/
theorem create_eq (ev : Evaluator) : create ev = createAll ev.parts >>= keep ev := by
  cases ev with
  | difference name d x body width point => cases point <;> rfl
  | _ => rfl

theorem createAll_gains {evs : List Evaluator}
    (each : ∀ ev ∈ evs, ∀ m : Memory, m.Intact → m.Gains ev (create ev m)) (h : m.Intact) :
    m.Extends (createAll evs m).2 ∧ (createAll evs m).2.Intact ∧
      List.Forall₂ (fun member part => (createAll evs m).2.evaluator? member = some part)
        (createAll evs m).1 evs := by
  induction evs generalizing m with
  | nil => exact ⟨.refl m, h, .nil⟩
  | cons ev rest ih =>
    rw [List.forall_mem_cons] at each
    have first := each.1 m h
    obtain ⟨extended, intact, others⟩ := ih each.2 first.intact
    exact ⟨first.extended.trans extended, intact, .cons (extended.evaluator? first.found) others⟩

theorem create_gains (ev : Evaluator) (h : m.Intact) : m.Gains ev (create ev m) := by
  induction ev using Evaluator.induction generalizing m with
  | ofParts ev ih =>
    obtain ⟨extended, intact, below⟩ := createAll_gains (fun part mem m h => ih part mem h) h
    have kept := keep_gains intact below
    rw [create_eq]
    exact ⟨extended.trans kept.extended, kept.intact, kept.found⟩

/-- What is handed out is a new list. -/
theorem newList_of_subEvaluators {made : ListId × Memory} (h : m.subEvaluators e = some made) :
    ∃ members, made = newList members m := by
  obtain ⟨_, _, h⟩ := Option.bind_eq_some_iff.mp h
  obtain ⟨members, _, h⟩ := Option.bind_eq_some_iff.mp h
  cases h
  exact ⟨members, rfl⟩

/-- Who asks for the parts of an evaluator gets a new list of evaluators for them. -/
theorem subEvaluators_spec (h : m.Intact) (he : m.evaluator? e = some ev) :
    ∃ members, m.subEvaluators e = some (newList members m) ∧
      List.Forall₂ (fun member part => member.index < e.index ∧ m.evaluator? member = some part)
        members ev.parts := by
  obtain ⟨kept, hkept, rfl⟩ := evaluator?_eq_some_iff.mp he
  obtain ⟨members, hl, aligned⟩ := h e kept hkept
  refine ⟨members, ?_, aligned⟩
  rw [subEvaluators, hkept, Option.bind_eq_bind, Option.bind_some, hl]
  rfl

theorem list?_write_of_ne {l l' : ListId} (apart : l' ≠ l) (members : List EvaluatorId) :
    (m.write l members).list? l' = m.list? l' := by
  have places : l.index ≠ l'.index := fun same => apart (congrArg ListId.mk same.symm)
  simp [write, list?, places]

theorem list?_write_self {l : ListId} (h : ∃ members, m.list? l = some members)
    (members : List EvaluatorId) : (m.write l members).list? l = some members := by
  obtain ⟨_, found⟩ := h
  have inside := (Array.getElem?_eq_some_iff.mp found).1
  simp [write, list?, inside]

theorem Intact.write (h : m.Intact) {l : ListId}
    (apart : ∀ e kept, m.kept? e = some kept → kept.parts ≠ l) (members : List EvaluatorId) :
    (m.write l members).Intact := by
  intro e kept hkept
  rw [list?_write_of_ne (apart e kept hkept)]
  exact h e kept hkept

/-- The evaluators that a walk comes to, each with the names of those above it, given that no way
down has more of them than the bound. An evaluator comes before its parts, which it is asked
for. -/
def visits : Nat → List String → EvaluatorId → StateT Memory Option (List (List String × String))
  | 0, _, _ => fun _ => none
  | bound + 1, above, e => fun m => do
    let ev ← m.evaluator? e
    let (parts, m) ← m.subEvaluators e
    let members ← m.list? parts
    let (below, m) ← members.mapM (visits bound (above ++ [ev.name])) m
    return ((above, ev.name) :: below.flatten, m)

/-- The walk from an evaluator. No way down has more of them than there are. -/
def walk (m : Memory) (e : EvaluatorId) : Option (List (List String × String) × Memory) :=
  visits m.kept.size [] e m

/-- What is read is this, and reading it only adds to the memory. -/
def Yields {α : Type} (m : Memory) (reading : StateT Memory Option α) (shown : α) : Prop :=
  ∃ m', reading m = some (shown, m') ∧ m.Extends m' ∧ m'.Intact

theorem mapM_yields {α β : Type} {f : α → StateT Memory Option β} {as : List α} {bs : List β}
    (each : List.Forall₂ (fun a b => ∀ m', m.Extends m' → m'.Intact → m'.Yields (f a) b) as bs)
    (start : m.Extends m') (h : m'.Intact) : m'.Yields (as.mapM f) bs := by
  induction each generalizing m' with
  | nil => exact ⟨m', rfl, .refl m', h⟩
  | @cons a b as bs head _ ih =>
    obtain ⟨m₁, hfirst, extended, intact⟩ := head m' start h
    obtain ⟨m₂, hrest, extended', intact'⟩ := ih (start.trans extended) intact
    refine ⟨m₂, ?_, extended.trans extended', intact'⟩
    rw [List.mapM_cons]
    change (f a m').bind (fun made => (as.mapM f made.2).bind fun others =>
      some (made.1 :: others.1, others.2)) = _
    rw [hfirst, Option.bind_some, hrest, Option.bind_some]

/-- A walk comes to an evaluator and then, one after the other, goes on from those of its parts. -/
theorem visits_yields (h : m.Intact) (he : m.evaluator? e = some ev) {bound : Nat}
    {above : List String} {below : List (List (List String × String))}
    (parts : ∀ members, List.Forall₂ (fun member part => member.index < e.index ∧
        m.evaluator? member = some part) members ev.parts →
      List.Forall₂ (fun member shown => ∀ m', m.Extends m' → m'.Intact →
        m'.Yields (visits bound (above ++ [ev.name]) member) shown) members below) :
    m.Yields (visits (bound + 1) above e) ((above, ev.name) :: below.flatten) := by
  obtain ⟨members, asked, aligned⟩ := subEvaluators_spec h he
  have copied := newList_extends members m
  obtain ⟨m', hbelow, extended, intact⟩ :=
    mapM_yields (parts members aligned) copied (h.newList members)
  refine ⟨m', ?_, copied.trans extended, intact⟩
  simp only [visits, he, asked, list?_newList, hbelow, Option.bind_eq_bind, Option.bind_some]
  rfl

end Memory

/-- What a visit shows of names: those of the nodes above, and the one of the node. -/
def Visit.named (visit : Visit) : List String × String :=
  (visit.parents.map Label.name, visit.label.name)

theorem Expression.named_visits (label : Label) (parts : List (String × Expression))
    (parents : List Label) (key : String) :
    ((node label parts).visits parents key).map Visit.named =
      (parents.map Label.name, label.name) :: (parts.map fun part =>
        (part.2.visits (parents ++ [label]) part.1).map Visit.named).flatten := by
  rw [visits, visitsOfParts_eq_flatMap, List.map_cons, List.map_flatMap]
  rfl

namespace Memory
variable {m : Memory} {e : EvaluatorId} {ev : Evaluator}

/-- A walk from an evaluator goes through the names of the tree that it mirrors. -/
theorem visits_of_mirroredBy {t : Expression} (mirrored : t.MirroredBy ev) (h : m.Intact)
    (he : m.evaluator? e = some ev) {bound : Nat} (enough : e.index < bound)
    (parents : List Label) (key : String) :
    m.Yields (visits bound (parents.map Label.name) e)
      ((t.visits parents key).map Visit.named) := by
  induction t using Expression.induction generalizing m e ev bound parents key with
  | node label parts ih =>
    obtain ⟨name, below⟩ := Expression.mirroredBy_node.mp mirrored
    obtain ⟨bound, rfl⟩ := Nat.exists_eq_add_one_of_ne_zero (Nat.ne_zero_of_lt enough)
    rw [Expression.named_visits, ← name]
    refine visits_yields h he fun members aligned => ?_
    have deeper : parents.map Label.name ++ [ev.name] = (parents ++ [label]).map Label.name := by
      rw [name, List.map_append]
      rfl
    rw [deeper, List.forall₂_map_right_iff]
    refine forall₂_imp_mem (forall₂_comp aligned below.flip) ?_
    rintro member part mem ⟨ev', ⟨earlier, found⟩, mirrored'⟩ m' extended intact
    have enough' : member.index < bound := earlier.trans_le (Nat.le_of_lt_succ enough)
    exact ih part.1 part.2 mem mirrored' intact (extended.evaluator? found) enough' _ _

theorem walk_of_mirroredBy {t : Expression} (mirrored : t.MirroredBy ev) (h : m.Intact)
    (he : m.evaluator? e = some ev) :
    ∃ m', m.walk e = some (t.traverse.map Visit.named, m') := by
  obtain ⟨m', walked, _⟩ := visits_of_mirroredBy mirrored h he (index_lt he) [] ""
  exact ⟨m', walked⟩

end Memory

end FiniteCalculus
