import FiniteCalculus.Proofs.Graph.Walks

/-! Replacing the parts of a node. What is given is converted first, from left to right, and one
operand that cannot become a part stops it before any node is touched. Then the node has all of it
at once, and in every tree that contains the node, as often as it does, the new parts stand in the
place of the old ones. -/

namespace FiniteCalculus
set_option autoImplicit false

section
variable {β γ : Type}

/-- The parts with others put in. A part under a key that is there takes its place, and the rest
follow in the order in which they are given. -/
def replaceKeys (new old : List (String × β)) : List (String × β) :=
  old.map (fun part => (part.1, (new.lookup part.1).getD part.2)) ++
    new.filter fun part => part.1 ∉ old.map Prod.fst

theorem lookup_cons_of_ne {key k : String} (h : key ≠ k) (p : β) (parts : List (String × β)) :
    ((k, p) :: parts).lookup key = parts.lookup key := by
  rw [List.lookup_cons, beq_false_of_ne h]

theorem lookup_map_value (f : String × β → γ) (key : String) (parts : List (String × β)) :
    (parts.map fun part => (part.1, f part)).lookup key =
      (parts.lookup key).map fun p => f (key, p) := by
  induction parts with
  | nil => rfl
  | cons part parts ih =>
    obtain ⟨k, p⟩ := part
    rw [List.map_cons, List.lookup_cons, List.lookup_cons, ih]
    cases hk : key == k with
    | true => rw [← eq_of_beq hk, Option.map_some]
    | false => rfl

theorem lookup_filter_keys (keep : String → Bool) {key : String} (kept : keep key = true)
    (parts : List (String × β)) :
    (parts.filter fun part => keep part.1).lookup key = parts.lookup key := by
  induction parts with
  | nil => rfl
  | cons part parts ih =>
    obtain ⟨k, p⟩ := part
    rw [List.filter_cons, List.lookup_cons]
    cases hk : key == k with
    | true =>
      obtain rfl := eq_of_beq hk
      rw [if_pos kept, List.lookup_cons, hk]
    | false =>
      split
      · rw [List.lookup_cons, hk, ih]
      · exact ih

/-- A given part stands under its key, and every other key keeps the part that it had. -/
theorem lookup_replaceKeys (new old : List (String × β)) (key : String) :
    (replaceKeys new old).lookup key = (new.lookup key).or (old.lookup key) := by
  rw [replaceKeys, List.lookup_append, lookup_map_value]
  by_cases present : key ∈ old.map Prod.fst
  · obtain ⟨p, hp⟩ := exists_lookup present
    rw [hp, Option.map_some, Option.some_or]
    cases new.lookup key <;> rfl
  · have absent := lookup_eq_none present
    rw [absent, lookup_filter_keys (fun key => key ∉ old.map Prod.fst) (by simpa using present)]
    simp

/-- Keys keep their places; those that were not there come after them, in the order given. -/
theorem keys_replaceKeys (new old : List (String × β)) :
    (replaceKeys new old).map Prod.fst =
      old.map Prod.fst ++ (new.map Prod.fst).filter fun key => key ∉ old.map Prod.fst := by
  rw [replaceKeys, List.map_append, List.map_map, List.filter_map]
  rfl

/-- Parts that correspond are replaced by parts that correspond. -/
theorem Correspond.replaceKeys {R : β → γ → Prop} {new old : List (String × β)}
    {new' old' : List (String × γ)} (hnew : Correspond R new new')
    (hold : Correspond R old old') :
    Correspond R (replaceKeys new old) (replaceKeys new' old') := by
  refine List.rel_append ?_ (List.rel_filter ?_ hnew)
  · rw [List.forall₂_map_left_iff, List.forall₂_map_right_iff]
    refine hold.imp fun part below head => ⟨head.1, ?_⟩
    rw [head.1]
    rcases hnew.lookup below.1 with ⟨absent, absent'⟩ | ⟨p, b, present, present', related⟩
    · rw [absent, absent']
      exact head.2
    · rw [present, present']
      exact related
  · rintro part below ⟨same, _⟩
    simp only [same, Graph.keys_of_forall₂ hold]

end

namespace Graph

theorem putPart_of_mem {key : String} {e : ExprId} {parts : List (String × ExprId)}
    (once : (parts.map Prod.fst).Nodup) (h : key ∈ parts.map Prod.fst) :
    putPart key e parts = parts.map fun part => (part.1, if part.1 = key then e else part.2) := by
  induction parts with
  | nil => cases h
  | cons part parts ih =>
    obtain ⟨k, old⟩ := part
    rw [List.map_cons, List.nodup_cons] at once
    rw [putPart, List.map_cons]
    by_cases hk : k = key
    · subst hk
      have others : parts.map (fun part => (part.1, if part.1 = k then e else part.2)) = parts := by
        refine (List.map_congr_left fun part mem => ?_).trans (List.map_id parts)
        rw [if_neg (fst_ne_of_not_mem once.1 mem)]
        rfl
      rw [if_pos rfl, if_pos rfl, others]
    · have later := (List.mem_cons.mp h).resolve_left (Ne.symm hk)
      rw [if_neg hk, if_neg hk, ih once.2 later]

theorem putPart_of_not_mem {key : String} {e : ExprId} {parts : List (String × ExprId)}
    (h : key ∉ parts.map Prod.fst) : putPart key e parts = parts ++ [(key, e)] := by
  induction parts with
  | nil => rfl
  | cons part parts ih =>
    rw [List.map_cons, List.mem_cons, not_or] at h
    rw [putPart, if_neg (Ne.symm h.1), ih h.2, List.cons_append]

/-- Putting parts in one after the other comes to replacing them together. -/
theorem putParts_eq {new old : List (String × ExprId)} (given : (new.map Prod.fst).Nodup)
    (once : (old.map Prod.fst).Nodup) : putParts new old = replaceKeys new old := by
  induction new generalizing old with
  | nil => simp [putParts, replaceKeys]
  | cons part new ih =>
    obtain ⟨key, e⟩ := part
    rw [List.map_cons, List.nodup_cons] at given
    have absent : new.lookup key = none := lookup_eq_none given.1
    change putParts new (putPart key e old) = _
    by_cases present : key ∈ old.map Prod.fst
    · have keys := keys_putPart_of_mem (e := e) present
      rw [ih given.2 (keys ▸ once), replaceKeys, keys, putPart_of_mem once present, List.map_map,
        replaceKeys]
      refine congrArg₂ _ (List.map_congr_left fun part _ => ?_) ?_
      · by_cases hk : part.1 = key
        · simp [hk, absent]
        · simp [hk, lookup_cons_of_ne hk]
      · rw [List.filter_cons_of_neg (by simpa using present)]
    · have keys := keys_putPart_of_not_mem (e := e) present
      have later : ((putPart key e old).map Prod.fst).Nodup := by
        rw [keys, ← List.concat_eq_append]
        exact once.concat present
      rw [ih given.2 later, replaceKeys, keys, putPart_of_not_mem present, List.map_append,
        replaceKeys, List.filter_cons_of_pos (by simpa using present), List.append_assoc]
      refine congrArg₂ _ (List.map_congr_left fun part mem => ?_) ?_
      · rw [lookup_cons_of_ne (fst_ne_of_not_mem present mem)]
      · rw [List.map_singleton, absent, List.singleton_append]
        refine congrArg _ (List.filter_congr fun part mem => ?_)
        simp [fst_ne_of_not_mem given.1 mem]

end Graph

namespace Expression

/-- The tree with parts put in wherever it has the node. -/
def replaceAt (e : ExprId) (new : List (String × Expression)) : Expression → Expression :=
  fold fun label parts => .node label (if label.id = e then replaceKeys new parts else parts)

theorem replaceAt_node (e : ExprId) (new : List (String × Expression)) (label : Label)
    (parts : List (String × Expression)) : (node label parts).replaceAt e new =
      let replaced := parts.map fun part => (part.1, part.2.replaceAt e new)
      .node label (if label.id = e then replaceKeys new replaced else replaced) := by
  simp only [replaceAt, fold, foldParts_eq_map]

end Expression

namespace Graph
variable {g g' g'' : Graph} {e : ExprId} {operands : List (String × Operand)}
  {adopted : List (String × ExprId)}

theorem chosenName_congr (names : g'.argumentNames = g.argumentNames) (shape : Shape)
    (choice : Option String) : g'.chosenName shape choice = g.chosenName shape choice := by
  have same : g'.argumentName = g.argumentName := by
    funext x
    rw [argumentName, names, argumentName]
  have usual : g'.usualName shape = g.usualName shape := by
    cases shape <;> simp only [usualName, same]
  have plain : g'.plainName shape = g.plainName shape := by
    cases shape <;> simp only [plainName, same]
  simp only [chosenName, usual, plain]

/-- A node that was not there before, without parts. -/
def NewLeaf (g g' : Graph) (e : ExprId) (shape : Shape) : Prop :=
  g.node? e = none ∧
    g'.node? e = some { shape := shape, name := g.chosenName shape none, parts := [] }

/-- The node that an operand becomes: an expression is one, an argument comes to stand in a
reference, and a number in a constant. -/
def Becomes (g g' : Graph) : Operand → ExprId → Prop
  | .expression e, part => part = e
  | .argument x, part => NewLeaf g g' part (.reference x)
  | .value v, part => NewLeaf g g' part (.constant v)
  | .evaluator _, _ => False

theorem newLeaf_leaf (g : Graph) (shape : Shape) :
    NewLeaf g (g.leaf shape none).2 (g.leaf shape none).1 shape := by
  simp [NewLeaf, leaf, insert, node?]

theorem adopt_becomes {operand : Operand} (h : g.adopt operand = .ok (e, g')) :
    g.Becomes g' operand e ∧ g'.argumentNames = g.argumentNames := by
  cases operand with
  | expression e' =>
    cases h
    exact ⟨rfl, rfl⟩
  | argument x =>
    cases h
    exact ⟨g.newLeaf_leaf _, rfl⟩
  | value v =>
    simp only [adopt] at h
    split at h
    · cases h
      exact ⟨g.newLeaf_leaf _, rfl⟩
    · cases h
  | evaluator ev => cases h

theorem Becomes.later {operand : Operand} (h : g.Becomes g' operand e)
    (keeps : ∀ e node, g'.node? e = some node → g''.node? e = some node) :
    g.Becomes g'' operand e := by
  cases operand with
  | expression e' => exact h
  | argument x => exact ⟨h.1, keeps _ _ h.2⟩
  | value v => exact ⟨h.1, keeps _ _ h.2⟩
  | evaluator ev => exact h

theorem NewLeaf.earlier {shape : Shape} (h : NewLeaf g' g'' e shape)
    (keeps : ∀ e node, g.node? e = some node → g'.node? e = some node)
    (names : g'.argumentNames = g.argumentNames) : NewLeaf g g'' e shape := by
  refine ⟨Option.eq_none_iff_forall_ne_some.mpr fun node found => ?_, ?_⟩
  · cases h.1.symm.trans (keeps e node found)
  · rw [← chosenName_congr names]
    exact h.2

theorem Becomes.earlier {operand : Operand} (h : g'.Becomes g'' operand e)
    (keeps : ∀ e node, g.node? e = some node → g'.node? e = some node)
    (names : g'.argumentNames = g.argumentNames) : g.Becomes g'' operand e := by
  cases operand with
  | expression e' => exact h
  | argument x => exact NewLeaf.earlier h keeps names
  | value v => exact NewLeaf.earlier h keeps names
  | evaluator ev => exact h

theorem adoptAll_becomes (h : g.adoptAll operands = .ok (adopted, g')) :
    Correspond (g.Becomes g') operands adopted ∧ g'.argumentNames = g.argumentNames := by
  induction operands generalizing g adopted with
  | nil =>
    cases h
    exact ⟨.nil, rfl⟩
  | cons entry rest ih =>
    obtain ⟨key, operand⟩ := entry
    obtain ⟨⟨e, g₁⟩, hadopt, h⟩ := bind_eq_ok h
    obtain ⟨⟨others, g₂⟩, hothers, h⟩ := bind_eq_ok h
    cases h
    obtain ⟨becomes, names⟩ := adopt_becomes hadopt
    obtain ⟨becomesRest, namesRest⟩ := ih hothers
    have keeps := (adopt_spec hadopt).1
    have keepsRest := (adoptAll_spec hothers).2.1
    refine ⟨.cons ⟨rfl, becomes.later keepsRest⟩ (becomesRest.imp ?_), namesRest.trans names⟩
    exact fun _ _ head => ⟨head.1, head.2.earlier keeps names⟩

/-- One graph is the other after operands were put in as parts of a node: no other node that was
there has changed, and the node itself only in its parts. They stand together in both stores. -/
structure Replaces (g : Graph) (e : ExprId) (operands : List (String × Operand))
    (adopted : List (String × ExprId)) (g' : Graph) : Prop where
  becomes : Correspond (g.Becomes g') operands adopted
  names : g'.argumentNames = g.argumentNames
  others : ∀ e' node, e' ≠ e → g.node? e' = some node → g'.node? e' = some node
  node : ∀ node, g.node? e = some node → ∃ node', g'.node? e = some node' ∧
    node'.shape = node.shape ∧ node'.name = node.name ∧ node'.verbosity = node.verbosity ∧
    node'.parts = replaceKeys adopted node.parts ∧ node'.listed = replaceKeys adopted node.listed

theorem setParts_replaces (consistent : g.Consistent) (keyed : g.WellKeyed)
    (given : (operands.map Prod.fst).Nodup) (present : ∃ node, g.node? e = some node)
    (h : g.setParts e operands = .ok g') : ∃ adopted, g.Replaces e operands adopted g' := by
  obtain ⟨⟨adopted, g₁⟩, hadopted, h⟩ := bind_eq_ok h
  cases h
  obtain ⟨keys, keeps, _⟩ := adoptAll_spec hadopted
  obtain ⟨becomes, names⟩ := adoptAll_becomes hadopted
  obtain ⟨node, hnode⟩ := present
  have once : (adopted.map Prod.fst).Nodup := keys ▸ given
  -- What was adopted is older than the node is changed, so the change does not touch a new leaf.
  have leaves {shape : Shape} {part : ExprId} (leaf : NewLeaf g g₁ part shape) (change) :
      NewLeaf g (g₁.modify e change) part shape := by
    have apart : part ≠ e := by
      rintro rfl
      cases hnode.symm.trans leaf.1
    exact ⟨leaf.1, (node?_modify_of_ne change apart).trans leaf.2⟩
  refine ⟨adopted, becomes.imp ?_, names, fun e' node apart found => ?_, fun node' found => ?_⟩
  · rintro ⟨_, operand⟩ ⟨_, part⟩ ⟨same, became⟩
    refine ⟨same, ?_⟩
    cases operand with
    | expression e' => exact became
    | argument x => exact leaves became _
    | value v => exact leaves became _
    | evaluator ev => exact became
  · exact (node?_modify_of_ne _ apart).trans (keeps e' node found)
  · refine ⟨_, node?_modify_self _ (keeps e node' found), rfl, rfl, rfl, ?_, ?_⟩
    · exact putParts_eq once (keyed e node' found).nodup
    · exact putParts_eq once (consistent e node' found).once

/-- In every tree that contains the node the parts are replaced, wherever the node stands. -/
theorem Replaces.hasTree (h : g.Replaces e operands adopted g') {new : List (String × Expression)}
    (below : Correspond g'.HasTree adopted new) {e' : ExprId} {t : Expression}
    (tree : g.HasTree e' t) : g'.HasTree e' (t.replaceAt e new) := by
  induction t using Expression.induction generalizing e' with
  | node label parts ih =>
    obtain ⟨node, hnode, rfl, hparts⟩ := hasTree_node.mp tree
    have replaced : Correspond g'.HasTree node.parts
        (parts.map fun part => (part.1, part.2.replaceAt e new)) := by
      rw [Correspond, List.forall₂_map_right_iff]
      exact forall₂_imp_mem hparts fun part below mem head =>
        ⟨head.1, ih below.1 below.2 mem head.2⟩
    rw [Expression.replaceAt_node]
    by_cases same : e' = e
    · subst same
      obtain ⟨node', hnode', shape, name, _, parts', _⟩ := h.node node hnode
      refine hasTree_node.mpr ⟨node', hnode', by rw [shape, name], ?_⟩
      rw [if_pos rfl, parts']
      exact below.replaceKeys replaced
    · refine hasTree_node.mpr ⟨node, h.others e' node same hnode, rfl, ?_⟩
      rw [if_neg same]
      exact replaced

/-- A tree whose nodes stay as they are stays as it is. -/
theorem HasTree.of_kept {t : Expression} (tree : g.HasTree e t) (kept : ∀ l ∈ t.labels, ∀ node,
    g.node? l.id = some node → g'.node? l.id = some node) : g'.HasTree e t := by
  induction t using Expression.induction generalizing e with
  | node label parts ih =>
    obtain ⟨node, hnode, rfl, hparts⟩ := hasTree_node.mp tree
    simp only [Expression.labels_node, List.mem_cons, List.mem_flatMap] at kept
    refine hasTree_node.mpr ⟨node, kept _ (.inl rfl) node hnode, rfl, ?_⟩
    refine forall₂_imp_mem hparts fun part below mem head => ⟨head.1, ?_⟩
    exact ih below.1 below.2 mem head.2 fun l inside => kept l (.inr ⟨below, mem, inside⟩)

/-- A tree without the node stays as it is. -/
theorem Replaces.hasTree_of_not_mem (h : g.Replaces e operands adopted g') {e' : ExprId}
    {t : Expression} (tree : g.HasTree e' t) (absent : e ∉ t.labels.map Label.id) :
    g'.HasTree e' t := by
  refine tree.of_kept fun l inside node hnode => h.others l.id node ?_ hnode
  rintro rfl
  exact absent (List.mem_map_of_mem inside)

end Graph

end FiniteCalculus
