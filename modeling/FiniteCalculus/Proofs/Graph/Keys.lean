import FiniteCalculus.Expression.Building
import FiniteCalculus.Proofs.Graph.Trees

/-! The keys under which a node has its parts. It is made with a part under every key
that its shape asks for, and what is put in later stands under one of these or is the
point of a difference. So wherever there is a tree there is an evaluator. -/

namespace FiniteCalculus
set_option autoImplicit false

theorem Key.arg_injective : Function.Injective Key.arg := by
  intro i j same
  have digits := congrArg String.toList same
  simp only [Key.arg, Nat.toString_eq_repr, String.toList_append, Nat.toList_repr] at digits
  have numbers := congrArg (Nat.ofDigitChars 10 · 0) (List.append_cancel_left digits)
  simpa using numbers

namespace Shape

/-- The keys that a shape asks for, in order. -/
def keys : Shape → List String
  | constant _ | reference _ => []
  | application _ _ count => (List.range count).map Key.arg
  | scaling _ => [Key.scaled]
  | addition _ | multiplication => [Key.left, Key.right]
  | iteration .. => [Key.body, Key.start, Key.stop, Key.step]
  | difference .. => [Key.body, Key.width]

/-- The keys that a shape has a use for without asking for them. -/
def spareKeys : Shape → List String
  | difference .. => [Key.point]
  | _ => []

def Accepts (shape : Shape) (keys : List String) : Prop :=
  keys = shape.keys ∨ keys = shape.keys ++ shape.spareKeys

theorem keys_nodup (shape : Shape) : (shape.keys ++ shape.spareKeys).Nodup := by
  cases shape with
  | application f description count =>
    rw [keys, spareKeys, List.append_nil]
    · exact List.nodup_range.map Key.arg_injective
    · nofun
  | _ =>
    simp [keys, spareKeys, Key.left, Key.right, Key.body, Key.start, Key.stop, Key.step,
      Key.width, Key.point]

theorem Accepts.nodup {shape : Shape} {keys : List String} (h : shape.Accepts keys) :
    keys.Nodup := by
  rcases h with rfl | rfl
  · exact (List.nodup_append.mp shape.keys_nodup).1
  · exact shape.keys_nodup

theorem spareKeys_eq_of_mem {shape : Shape} {key : String} (h : key ∈ shape.spareKeys) :
    shape.spareKeys = [key] := by
  cases shape with
  | difference d x =>
    rw [List.mem_singleton.mp h]
    rfl
  | _ => cases h

theorem Accepts.mem {shape : Shape} {keys : List String} (h : shape.Accepts keys) {key : String}
    (asked : key ∈ shape.keys) : key ∈ keys := by
  rcases h with rfl | rfl
  · exact asked
  · exact List.mem_append_left _ asked

theorem Accepts.subset {shape : Shape} {keys : List String} (h : shape.Accepts keys) {key : String}
    (given : key ∈ keys) : key ∈ shape.keys ++ shape.spareKeys := by
  rcases h with rfl | rfl
  · exact List.mem_append_left _ given
  · exact given

theorem Accepts.eq_keys {shape : Shape} {keys : List String} (h : shape.Accepts keys)
    (bare : shape.spareKeys = []) : keys = shape.keys := by
  rcases h with same | same
  · exact same
  · rw [same, bare, List.append_nil]

end Shape

namespace Graph

theorem keys_putPart_of_not_mem {key : String} {e : ExprId} {parts : List (String × ExprId)}
    (h : key ∉ parts.map Prod.fst) :
    (putPart key e parts).map Prod.fst = parts.map Prod.fst ++ [key] := by
  induction parts with
  | nil => rfl
  | cons part rest ih =>
    obtain ⟨k, old⟩ := part
    rw [List.map_cons, List.mem_cons, not_or] at h
    rw [putPart, if_neg (Ne.symm h.1), List.map_cons, ih h.2]
    rfl

theorem accepts_putPart {shape : Shape} {key : String} (e : ExprId)
    {parts : List (String × ExprId)} (h : shape.Accepts (parts.map Prod.fst))
    (defined : key ∈ shape.keys ++ shape.spareKeys) :
    shape.Accepts ((putPart key e parts).map Prod.fst) := by
  by_cases present : key ∈ parts.map Prod.fst
  · rw [keys_putPart_of_mem present]
    exact h
  · rw [keys_putPart_of_not_mem present]
    -- A key that is allowed and not there yet is the spare one.
    rcases h with h | h
    · rcases List.mem_append.mp defined with asked | spare
      · exact absurd (h ▸ asked) present
      · exact .inr (by rw [h, Shape.spareKeys_eq_of_mem spare])
    · exact absurd (h ▸ defined) present

theorem accepts_putParts {shape : Shape} {new old : List (String × ExprId)}
    (h : shape.Accepts (old.map Prod.fst))
    (defined : ∀ key ∈ new.map Prod.fst, key ∈ shape.keys ++ shape.spareKeys) :
    shape.Accepts ((putParts new old).map Prod.fst) := by
  induction new generalizing old with
  | nil => exact h
  | cons part new ih =>
    refine ih (accepts_putPart part.2 h (defined part.1 List.mem_cons_self)) ?_
    intro key hkey
    exact defined key (List.mem_cons_of_mem _ hkey)

/-- Every node has its parts under the keys of its shape. -/
def WellKeyed (g : Graph) : Prop :=
  ∀ e node, g.node? e = some node → node.shape.Accepts (node.parts.map Prod.fst)

theorem wellKeyed_empty : WellKeyed {} := by
  intro e node h
  simp [node?] at h

section
variable {g g' : Graph}

theorem node?_insert {node : Node} {e : ExprId} {old : Node} (h : g.node? e = some old) :
    (g.insert node).2.node? e = some old := by
  obtain ⟨inside, rfl⟩ := Array.getElem?_eq_some_iff.mp h
  simp only [insert, node?, Array.getElem?_push]
  rw [if_neg (Nat.ne_of_lt inside)]
  exact h

theorem WellKeyed.insert (hg : g.WellKeyed) {node : Node}
    (hnode : node.shape.Accepts (node.parts.map Prod.fst)) : (g.insert node).2.WellKeyed := by
  intro e found h
  simp only [Graph.insert, node?, Array.getElem?_push] at h
  split at h
  · cases h
    exact hnode
  · exact hg e found h

theorem node?_modify (g : Graph) (e e' : ExprId) (change : Node → Node) :
    (g.modify e change).node? e' = if e' = e then (g.node? e').map change else g.node? e' := by
  simp only [modify, node?, Array.getElem?_modify]
  by_cases same : e' = e
  · rw [if_pos same, if_pos (congrArg ExprId.index same).symm]
  · rw [if_neg same, if_neg fun places => same (congrArg ExprId.mk places.symm)]

theorem node?_modify_self {e : ExprId} {node : Node} (change : Node → Node)
    (h : g.node? e = some node) : (g.modify e change).node? e = some (change node) := by
  rw [node?_modify, if_pos rfl, h, Option.map_some]

theorem node?_modify_of_ne {e e' : ExprId} (change : Node → Node) (apart : e' ≠ e) :
    (g.modify e change).node? e' = g.node? e' := by
  rw [node?_modify, if_neg apart]

theorem WellKeyed.modify (hg : g.WellKeyed) {e : ExprId} {change : Node → Node}
    (keeps : ∀ node, g.node? e = some node → node.shape.Accepts (node.parts.map Prod.fst) →
      (change node).shape.Accepts ((change node).parts.map Prod.fst)) :
    (g.modify e change).WellKeyed := by
  intro e' found h
  rw [node?_modify] at h
  split at h
  · rename_i same
    obtain ⟨node, hnode, rfl⟩ := Option.map_eq_some_iff.mp h
    exact keeps node (same ▸ hnode) (hg e' node hnode)
  · exact hg e' found h

/-- What is adopted is a node already or becomes a leaf. -/
theorem adopt_cases {operand : Operand} {e : ExprId} (h : g.adopt operand = .ok (e, g')) :
    g' = g ∨ ∃ shape : Shape, shape.keys = [] ∧ g' = (g.leaf shape none).2 := by
  cases operand with
  | expression e =>
    cases h
    exact .inl rfl
  | argument x =>
    cases h
    exact .inr ⟨.reference x, rfl, rfl⟩
  | value v =>
    simp only [adopt] at h
    split at h
    · cases h
      exact .inr ⟨.constant v, rfl, rfl⟩
    · cases h
  | evaluator ev => cases h

theorem adopt_spec {operand : Operand} {e : ExprId} (h : g.adopt operand = .ok (e, g')) :
    (∀ e' node, g.node? e' = some node → g'.node? e' = some node) ∧
      (g.WellKeyed → g'.WellKeyed) := by
  rcases adopt_cases h with rfl | ⟨shape, bare, rfl⟩
  · exact ⟨fun _ _ h => h, id⟩
  · exact ⟨fun _ _ => node?_insert, fun hg => hg.insert (.inl bare.symm)⟩

theorem adoptAll_spec {operands : List (String × Operand)} {parts : List (String × ExprId)}
    (h : g.adoptAll operands = .ok (parts, g')) :
    parts.map Prod.fst = operands.map Prod.fst ∧
      (∀ e node, g.node? e = some node → g'.node? e = some node) ∧
      (g.WellKeyed → g'.WellKeyed) := by
  induction operands generalizing g parts with
  | nil =>
    cases h
    exact ⟨rfl, fun _ _ h => h, id⟩
  | cons entry rest ih =>
    obtain ⟨key, operand⟩ := entry
    obtain ⟨⟨e, g₁⟩, hadopt, h⟩ := bind_eq_ok h
    obtain ⟨⟨others, g₂⟩, hothers, h⟩ := bind_eq_ok h
    cases h
    obtain ⟨keeps, keyed⟩ := adopt_spec hadopt
    obtain ⟨keys, keepsRest, keyedRest⟩ := ih hothers
    refine ⟨?_, ?_, ?_⟩
    · rw [List.map_cons, List.map_cons, keys]
    · exact fun e node h => keepsRest e node (keeps e node h)
    · exact fun hg => keyedRest (keyed hg)

/-- One graph is the other with operands taken in and a new node that has them as its parts. -/
inductive Gains (g : Graph) (shape : Shape) (choice : Option String)
    (operands : List (String × Operand)) (adopted : List (String × ExprId)) :
    ExprId → Graph → Prop where
  | node {g' g'' : Graph} {e : ExprId} : g.adoptAll operands = .ok (adopted, g') →
    g'.insert
      { shape := shape, name := g'.chosenName shape choice, parts := adopted, listed := adopted } =
      (e, g'') → Gains g shape choice operands adopted e g''

section
variable {shape : Shape} {choice : Option String} {operands : List (String × Operand)}
  {adopted : List (String × ExprId)} {e : ExprId} {made : Made}

theorem leaf_gains (g : Graph) (shape : Shape) (choice : Option String) :
    g.Gains shape choice [] [] (g.leaf shape choice).1 (g.leaf shape choice).2 :=
  .node rfl rfl

theorem compose_gains (h : g.compose shape choice operands = .ok made) :
    ∃ adopted, g.Gains shape choice operands adopted made.id made.graph := by
  obtain ⟨⟨adopted, g₁⟩, hadopted, h⟩ := bind_eq_ok h
  cases h
  exact ⟨adopted, .node hadopted rfl⟩

theorem binding_gains {shape : Argument → Shape} {role : Role} {bound : Operand}
    (h : g.binding shape role bound choice operands = .ok made) :
    ∃ x adopted, bound = .argument x ∧
      g.Gains (shape x) choice operands adopted made.id made.graph := by
  obtain ⟨⟨adopted, g₁⟩, hadopted, h⟩ := bind_eq_ok h
  cases bound with
  | argument x =>
    cases h
    exact ⟨x, adopted, rfl, .node hadopted rfl⟩
  | _ => cases h

theorem Gains.wellKeyed (h : g.Gains shape choice operands adopted e g') (hg : g.WellKeyed)
    (accepts : shape.Accepts (operands.map Prod.fst)) : g'.WellKeyed := by
  obtain ⟨hadopted, inserted⟩ := h
  cases inserted
  obtain ⟨keys, _, keyed⟩ := adoptAll_spec hadopted
  exact (keyed hg).insert (by rw [keys]; exact accepts)

end

theorem setParts_wellKeyed (hg : g.WellKeyed) {e : ExprId} {node : Node}
    {operands : List (String × Operand)} (h : g.setParts e operands = .ok g')
    (hnode : g.node? e = some node)
    (defined : ∀ key ∈ operands.map Prod.fst, key ∈ node.shape.keys ++ node.shape.spareKeys) :
    g'.WellKeyed := by
  obtain ⟨⟨parts, g₁⟩, hparts, h⟩ := bind_eq_ok h
  cases h
  obtain ⟨keys, keeps, keyed⟩ := adoptAll_spec hparts
  refine (keyed hg).modify fun found hfound accepts => ?_
  obtain rfl : node = found := Option.some.inj ((keeps e node hnode).symm.trans hfound)
  exact accepts_putParts accepts (by rw [keys]; exact defined)

end

end Graph

theorem exists_lookup {β : Type} {key : String} {parts : List (String × β)}
    (h : key ∈ parts.map Prod.fst) : ∃ p, parts.lookup key = some p := by
  induction parts with
  | nil => cases h
  | cons part rest ih =>
    obtain ⟨k, p⟩ := part
    rw [List.lookup_cons]
    cases hk : key == k with
    | true => exact ⟨p, rfl⟩
    | false => exact ih ((List.mem_cons.mp h).resolve_left (ne_of_beq_false hk))

theorem fst_ne_of_not_mem {β : Type} {key : String} {part : String × β} {parts : List (String × β)}
    (h : key ∉ parts.map Prod.fst) (mem : part ∈ parts) : part.1 ≠ key := by
  intro same
  exact h (same ▸ List.mem_map_of_mem (f := Prod.fst) mem)

theorem lookup_eq_none {β : Type} {key : String} {parts : List (String × β)}
    (h : key ∉ parts.map Prod.fst) : parts.lookup key = none := by
  rw [List.lookup_eq_none_iff]
  intro part mem
  exact bne_iff_ne.mpr (fst_ne_of_not_mem h mem).symm

/-- Under keys that differ, the part that is looked up is the one that is there. -/
theorem lookup_eq_some_iff_mem {β : Type} {parts : List (String × β)}
    (once : (parts.map Prod.fst).Nodup) {key : String} {part : β} :
    parts.lookup key = some part ↔ (key, part) ∈ parts := by
  rw [List.lookup_eq_some_iff]
  constructor
  · rintro ⟨before, after, rfl, _⟩
    simp
  · intro h
    obtain ⟨before, after, rfl⟩ := List.append_of_mem h
    refine ⟨before, after, rfl, fun other hother => ?_⟩
    rw [List.map_append, List.nodup_append] at once
    have differ := once.2.2 other.1 (List.mem_map_of_mem hother) key (by simp)
    simpa using differ.symm

/-- Lists of parts under the same keys. -/
abbrev Correspond {β γ : Type} (R : β → γ → Prop) : List (String × β) → List (String × γ) → Prop :=
  List.Forall₂ fun part below => part.1 = below.1 ∧ R part.2 below.2

theorem Correspond.lookup {β γ : Type} {R : β → γ → Prop} {parts : List (String × β)}
    {below : List (String × γ)} (h : Correspond R parts below) (key : String) :
    (parts.lookup key = none ∧ below.lookup key = none) ∨
      ∃ p b, parts.lookup key = some p ∧ below.lookup key = some b ∧ R p b := by
  induction h with
  | nil => exact .inl ⟨rfl, rfl⟩
  | @cons part b parts below head _ ih =>
    obtain ⟨k, p⟩ := part
    obtain ⟨k', b⟩ := b
    obtain ⟨rfl, related⟩ : k = k' ∧ R p b := head
    rw [List.lookup_cons, List.lookup_cons]
    cases key == k with
    | true => exact .inr ⟨p, b, rfl, rfl, related⟩
    | false => exact ih

theorem exists_ok_bind {ε α β : Type} {x : Except ε α} {f : α → Except ε β}
    (hx : ∃ a, x = .ok a) (hf : ∀ a, ∃ b, f a = .ok b) : ∃ b, (x >>= f) = .ok b := by
  obtain ⟨a, rfl⟩ := hx
  exact hf a

theorem exists_ok_mapM {ε α β : Type} {f : α → Except ε β} {as : List α}
    (h : ∀ a ∈ as, ∃ b, f a = .ok b) : ∃ bs, as.mapM f = .ok bs := by
  induction as with
  | nil => exact ⟨[], rfl⟩
  | cons a as ih =>
    rw [List.mapM_cons]
    have rest := ih fun a ha => h a (List.mem_cons_of_mem _ ha)
    exact exists_ok_bind (h a List.mem_cons_self) fun b => exists_ok_bind rest fun bs => ⟨_, rfl⟩

namespace Expression

theorem exists_evaluator_node {l : Label} {parts : List (String × Expression)}
    (asked : ∀ key ∈ l.shape.keys, ∃ p, parts.lookup key = some p)
    (below : ∀ key p, (key, p) ∈ parts → ∃ ev, p.evaluator = .ok ev) :
    ∃ ev, (Expression.node l parts).evaluator = .ok ev := by
  have part (key : String) (h : key ∈ l.shape.keys) :
      ∃ ev, evaluatorOf parts key = .ok ev := by
    obtain ⟨p, hp⟩ := asked key h
    obtain ⟨ev, hev⟩ := below key p (mem_of_lookup hp)
    exact ⟨ev, by rw [evaluatorOf, hp]; exact hev⟩
  change ∃ ev, l.evaluator (foldParts Label.evaluator parts) = .ok ev
  unfold Label.evaluator
  simp only [lookup_foldParts]
  cases hs : l.shape with
  | constant c => exact ⟨_, rfl⟩
  | reference x => exact ⟨_, rfl⟩
  | application f description count =>
    refine exists_ok_bind (exists_ok_mapM fun i hi => part (Key.arg i) ?_) fun args => ⟨_, rfl⟩
    rw [hs]
    exact List.mem_map_of_mem hi
  | scaling factor =>
    exact exists_ok_bind (part Key.scaled (by simp [hs, Shape.keys])) fun ev => ⟨_, rfl⟩
  | addition coefficient =>
    exact exists_ok_bind (part Key.left (by simp [hs, Shape.keys])) fun left =>
      exists_ok_bind (part Key.right (by simp [hs, Shape.keys])) fun right => ⟨_, rfl⟩
  | multiplication =>
    exact exists_ok_bind (part Key.left (by simp [hs, Shape.keys])) fun left =>
      exists_ok_bind (part Key.right (by simp [hs, Shape.keys])) fun right => ⟨_, rfl⟩
  | iteration op index =>
    exact exists_ok_bind (part Key.body (by simp [hs, Shape.keys])) fun body =>
      exists_ok_bind (part Key.start (by simp [hs, Shape.keys])) fun start =>
      exists_ok_bind (part Key.stop (by simp [hs, Shape.keys])) fun stop =>
      exists_ok_bind (part Key.step (by simp [hs, Shape.keys])) fun step => ⟨_, rfl⟩
  | difference d x =>
    refine exists_ok_bind (part Key.body (by simp [hs, Shape.keys])) fun body =>
      exists_ok_bind (part Key.width (by simp [hs, Shape.keys])) fun width => ?_
    cases hp : parts.lookup Key.point with
    | none => exact ⟨_, rfl⟩
    | some p => exact exists_ok_bind (below Key.point p (mem_of_lookup hp)) fun point => ⟨_, rfl⟩

theorem exists_evaluator_of_accepts {l : Label} {parts : List (String × Expression)}
    (keys : l.shape.Accepts (parts.map Prod.fst))
    (below : ∀ part ∈ parts, ∃ ev, part.2.evaluator = .ok ev) :
    ∃ ev, (Expression.node l parts).evaluator = .ok ev := by
  apply exists_evaluator_node
  · intro key asked
    exact exists_lookup (keys.mem asked)
  · intro key p mem
    exact below (key, p) mem

end Expression

namespace Graph
variable {g : Graph}

theorem keys_of_forall₂ {β γ : Type} {R : β → γ → Prop} {parts : List (String × β)}
    {below : List (String × γ)}
    (h : List.Forall₂ (fun part below => part.1 = below.1 ∧ R part.2 below.2) parts below) :
    parts.map Prod.fst = below.map Prod.fst := by
  induction h with
  | nil => rfl
  | cons same _ ih => rw [List.map_cons, List.map_cons, same.1, ih]

/-- In a graph whose nodes have all their parts, a tree always has an evaluator. -/
theorem HasTree.exists_evaluator (hg : g.WellKeyed) {e : ExprId} {t : Expression}
    (h : g.HasTree e t) : ∃ ev, t.evaluator = .ok ev := by
  induction t using Expression.induction generalizing e with
  | node label parts ih =>
    obtain ⟨node, hnode, rfl, hparts⟩ := hasTree_node.mp h
    apply Expression.exists_evaluator_of_accepts
    · rw [← keys_of_forall₂ hparts]
      exact hg e node hnode
    · intro part hpart
      obtain ⟨⟨_, e'⟩, _, _, tree⟩ := forall₂_exists_left hparts hpart
      exact ih part.1 part.2 hpart tree

end Graph

end FiniteCalculus
