import FiniteCalculus.Proofs.Expression.Calculation
import FiniteCalculus.Proofs.Function.Undefined
import FiniteCalculus.Proofs.Graph.Keys
import FiniteCalculus.Proofs.Session.Basic

/-! Trees without an operator. They are put together of constants, arguments, functions,
scalings, sums and products, and an undefined leaf makes such a tree undefined, since it
makes every node on the way up undefined. -/

namespace FiniteCalculus
set_option autoImplicit false

open Value

/-- A shape without an operator, over some functions and with real constants of its own. -/
def Shape.IsPlain (functions : NumericFunction → Prop) : Shape → Prop
  | constant _ | reference _ | multiplication => True
  | application f _ _ => functions f
  | scaling c | addition c => c.isReal
  | iteration .. | difference .. => False

namespace Expression

/-- A tree of such shapes, with the parts that they ask for. -/
def IsPlain (functions : NumericFunction → Prop) : Expression → Prop :=
  fold fun l parts => l.shape.IsPlain functions ∧ l.shape.Accepts (parts.map Prod.fst) ∧
    ∀ part ∈ parts, part.2

/-- The values of the leaves from left to right, for what the arguments hold. -/
def leaves (store : Store) : Expression → List Value :=
  fold fun l parts =>
    match l.shape with
    | .constant c => [c]
    | .reference x => [store.get x]
    | _ => parts.flatMap Prod.snd

section
variable {functions : NumericFunction → Prop} {store : Store} {l : Label}
  {parts : List (String × Expression)}

theorem isPlain_node : IsPlain functions (.node l parts) ↔
    l.shape.IsPlain functions ∧ l.shape.Accepts (parts.map Prod.fst) ∧
      ∀ part ∈ parts, part.2.IsPlain functions := by
  simp only [IsPlain, fold, foldParts_eq_map, List.map_map, List.forall_mem_map]
  rfl

theorem leaves_node : leaves store (.node l parts) =
    match l.shape with
    | .constant c => [c]
    | .reference x => [store.get x]
    | _ => parts.flatMap fun part => part.2.leaves store := by
  simp only [leaves, fold, foldParts_eq_map, List.flatMap_map]

end

end Expression

namespace Evaluation
variable {m : Evaluation Value} {store : Store} {undefined : Prop}

/-- From the store, a run that does not fault leaves it as it is and comes to a real number,
which is undefined under the condition. -/
def ComesTo (m : Evaluation Value) (store : Store) (undefined : Prop) : Prop :=
  ∀ s t v, s.store = store → m s = .ok v t →
    t.store = store ∧ v.isReal ∧ (undefined → v = nan)

theorem exists_of_bind_eq_ok {α β : Type} {m : Evaluation α} {f : α → Evaluation β}
    {s t : Situation} {b : β} (h : (m >>= f) s = .ok b t) :
    ∃ a u, m s = .ok a u ∧ f a u = .ok b t := by
  simp only [bind, EStateM.bind] at h
  cases hm : m s with
  | error fault u =>
    rw [hm] at h
    cases h
  | ok a u =>
    rw [hm] at h
    exact ⟨a, u, rfl, h⟩

theorem lift_eq_ok {α : Type} {r : Except Fault α} {s t : Situation} {a : α}
    (h : lift r s = .ok a t) : r = .ok a ∧ t = s := by
  cases r with
  | error fault => cases h
  | ok b =>
    cases h
    exact ⟨rfl, rfl⟩

theorem comesTo_pure {v : Value} (hv : v.isReal) (undefined : Prop) (h : undefined → v = nan) :
    ComesTo (pure v) store undefined := by
  intro s t u hs run
  cases run
  exact ⟨hs, hv, h⟩

theorem comesTo_throw (fault : Fault) : ComesTo (throw fault) store undefined := by
  intro s t v _ run
  cases run

theorem ComesTo.mono {other : Prop} (h : m.ComesTo store undefined)
    (imp : other → undefined) : m.ComesTo store other := by
  intro s t v hs run
  obtain ⟨same, real, result⟩ := h s t v hs run
  exact ⟨same, real, fun condition => result (imp condition)⟩

/-- The value of one part goes through an operation. -/
theorem ComesTo.lift_bind {op : Value → Except Fault Value} (h : m.ComesTo store undefined)
    (hop : ∀ v u, v.isReal → op v = .ok u → u.isReal ∧ (v = nan → u = nan)) :
    ComesTo (m >>= fun v => lift (op v)) store undefined := by
  intro s t u hs run
  obtain ⟨v, s', hm, run⟩ := exists_of_bind_eq_ok run
  obtain ⟨hu, rfl⟩ := lift_eq_ok run
  obtain ⟨same, real, result⟩ := h s _ v hs hm
  obtain ⟨realResult, keeps⟩ := hop v u real hu
  exact ⟨same, realResult, fun condition => keeps (result condition)⟩

/-- The values of two parts go through an operation. -/
theorem ComesTo.lift_bind₂ {n : Evaluation Value} {other : Prop}
    {op : Value → Value → Except Fault Value} (hm : m.ComesTo store undefined)
    (hn : n.ComesTo store other)
    (hop : ∀ v w u, v.isReal → w.isReal → op v w = .ok u →
      u.isReal ∧ (v = nan ∨ w = nan → u = nan)) :
    ComesTo (m >>= fun v => n >>= fun w => lift (op v w)) store (undefined ∨ other) := by
  intro s t u hs run
  obtain ⟨v, s', runLeft, run⟩ := exists_of_bind_eq_ok run
  obtain ⟨sameLeft, realLeft, left⟩ := hm s s' v hs runLeft
  obtain ⟨w, s'', runRight, run⟩ := exists_of_bind_eq_ok run
  obtain ⟨sameRight, realRight, right⟩ := hn s' s'' w sameLeft runRight
  obtain ⟨hu, rfl⟩ := lift_eq_ok run
  obtain ⟨real, keeps⟩ := hop v w u realLeft realRight hu
  exact ⟨sameRight, real, fun condition => keeps (condition.imp left right)⟩

theorem mapM_comesTo {f : Nat → Evaluation Value} {undefinedAt : Nat → Prop} {places : List Nat}
    (hf : ∀ i ∈ places, (f i).ComesTo store (undefinedAt i)) {s t : Situation}
    {args : List Value} (hs : s.store = store) (run : places.mapM f s = .ok args t) :
    t.store = store ∧ (∀ v ∈ args, v.isReal) ∧ ((∃ i ∈ places, undefinedAt i) → nan ∈ args) := by
  induction places generalizing s t args with
  | nil =>
    cases run
    exact ⟨hs, by simp, by simp⟩
  | cons i places ih =>
    obtain ⟨first, rest⟩ := List.forall_mem_cons.mp hf
    rw [List.mapM_cons] at run
    obtain ⟨v, s', runFirst, run⟩ := exists_of_bind_eq_ok run
    obtain ⟨sameFirst, realFirst, undefinedFirst⟩ := first s s' v hs runFirst
    obtain ⟨vs, s'', runRest, run⟩ := exists_of_bind_eq_ok run
    obtain ⟨sameRest, realRest, undefinedRest⟩ := ih rest sameFirst runRest
    cases run
    refine ⟨sameRest, List.forall_mem_cons.mpr ⟨realFirst, realRest⟩, ?_⟩
    rintro ⟨j, hj, condition⟩
    rcases List.mem_cons.mp hj with rfl | hj
    · rw [undefinedFirst condition]
      exact List.mem_cons_self
    · exact List.mem_cons_of_mem _ (undefinedRest ⟨j, hj, condition⟩)

theorem call_comesTo {f : NumericFunction} {args : List Value} {s t : Situation} {v : Value}
    (propagates : f.Propagates) (real : ∀ u ∈ args, u.isReal) (run : call f args s = .ok v t) :
    t.store = s.store ∧ v.isReal ∧ (nan ∈ args → v = nan) := by
  obtain ⟨applied, same⟩ := apply_eq_ok_iff.mp run
  rw [result_call] at applied
  rw [final_call] at same
  have body : f.body args = .ok v := by
    unfold NumericFunction.apply at applied
    split at applied
    · exact applied
    · cases applied
  refine ⟨by rw [← same]; rfl, propagates.real args v real body, fun undefined => ?_⟩
  exact (propagates.undefined args undefined).eq_of_ok body

end Evaluation

open Evaluation

theorem scale_undefined {c v u : Value} (hc : c.isReal) (hv : v.isReal) (h : c.mul v = .ok u) :
    u.isReal ∧ (v = nan → u = nan) :=
  ⟨isReal_of_mul hc hv h, fun undefined => mul_undefined hc hv (.inr undefined) h⟩

theorem combine_undefined {c v w u : Value} (hc : c.isReal) (hv : v.isReal) (hw : w.isReal)
    (h : (if c.equal (.double 1.0) then v.add w else c.mul w >>= v.add) = .ok u) :
    u.isReal ∧ (v = nan ∨ w = nan → u = nan) := by
  split at h
  · exact ⟨isReal_of_add hv hw h, fun undefined => add_undefined hv hw undefined h⟩
  · obtain ⟨scaled, hscaled, h⟩ := bind_eq_ok h
    obtain ⟨real, keeps⟩ := scale_undefined hc hw hscaled
    exact ⟨isReal_of_add hv real h,
      fun undefined => add_undefined hv real (undefined.imp_right keeps) h⟩

namespace Expression
variable {functions : NumericFunction → Prop} {store : Store}

/-- One node: it comes to the undefined number if a part that it asks for does. -/
theorem label_comesTo {l : Label} (plain : l.shape.IsPlain functions)
    (propagates : ∀ f, functions f → f.Propagates)
    {part? : String → Option (Evaluation Value)} (undefinedAt : String → Prop)
    (hpart : ∀ key m, part? key = some m → m.ComesTo store (undefinedAt key))
    (hconstant : ∀ c, l.shape = .constant c → c.isReal)
    (hreference : ∀ x, l.shape = .reference x → (store.get x).isReal) :
    (l.value part?).ComesTo store
      (l.shape = .constant nan ∨ (∃ x, l.shape = .reference x ∧ store.get x = nan) ∨
        ∃ key ∈ l.shape.keys, undefinedAt key) := by
  have part (key : String) :
      ((part? key).getD (throw (.missingPart key))).ComesTo store (undefinedAt key) := by
    cases hp : part? key with
    | none => exact comesTo_throw _
    | some m => exact hpart key m hp
  unfold Label.value
  cases hs : l.shape with
  | constant c =>
    refine comesTo_pure (hconstant c hs) _ ?_
    simp [Shape.keys]
  | reference x =>
    intro s t v same run
    cases run
    refine ⟨same, ?_, ?_⟩
    · rw [same]
      exact hreference x hs
    · rw [same]
      simp [Shape.keys]
  | application f description count =>
    intro s t v same run
    obtain ⟨args, s', runArgs, run⟩ := exists_of_bind_eq_ok run
    obtain ⟨sameArgs, real, undefinedArgs⟩ :=
      mapM_comesTo (fun i _ => part (Key.arg i)) same runArgs
    rw [hs] at plain
    obtain ⟨sameCall, realCall, undefinedCall⟩ := call_comesTo (propagates f plain) real run
    refine ⟨sameCall.trans sameArgs, realCall, fun condition => undefinedCall (undefinedArgs ?_)⟩
    simpa [Shape.keys] using condition
  | scaling factor =>
    rw [hs] at plain
    refine ((part Key.scaled).lift_bind fun v u hv => scale_undefined plain hv).mono ?_
    simp [Shape.keys]
  | addition coefficient =>
    rw [hs] at plain
    have choice (v w : Value) :
        (if coefficient.equal (.double 1.0) then lift (v.add w)
          else lift (coefficient.mul w >>= v.add)) =
        lift (if coefficient.equal (.double 1.0) then v.add w
          else coefficient.mul w >>= v.add) := (apply_ite lift _ _ _).symm
    have node := (part Key.left).lift_bind₂ (part Key.right) fun v w _ hv hw =>
      combine_undefined plain hv hw
    simp only [← choice] at node
    exact node.mono (by simp [Shape.keys])
  | multiplication =>
    refine ((part Key.left).lift_bind₂ (part Key.right) fun v w u hv hw h =>
      ⟨isReal_of_mul hv hw h, fun undefined => mul_undefined hv hw undefined h⟩).mono ?_
    simp [Shape.keys]
  | iteration op index =>
    rw [hs] at plain
    cases plain
  | difference d x =>
    rw [hs] at plain
    cases plain

theorem mem_leaves_of_part {l : Label} {parts : List (String × Expression)}
    (plain : (Expression.node l parts).IsPlain functions) {key : String} {p : Expression}
    (hpart : (key, p) ∈ parts) {v : Value} (hv : v ∈ p.leaves store) :
    v ∈ leaves store (.node l parts) := by
  obtain ⟨_, keys, _⟩ := isPlain_node.mp plain
  have known : key ∈ l.shape.keys ++ l.shape.spareKeys := by
    have asked : key ∈ parts.map Prod.fst := List.mem_map_of_mem hpart
    rcases keys with h | h
    · rw [h] at asked
      exact List.mem_append_left _ asked
    · rwa [h] at asked
  have below : v ∈ parts.flatMap fun part => part.2.leaves store :=
    List.mem_flatMap.mpr ⟨(key, p), hpart, hv⟩
  rw [leaves_node]
  cases hs : l.shape with
  | constant c =>
    rw [hs] at known
    cases known
  | reference x =>
    rw [hs] at known
    cases known
  | _ => exact below

theorem nan_mem_leaves {l : Label} {parts : List (String × Expression)}
    (plain : (Expression.node l parts).IsPlain functions)
    (undefined : nan ∈ leaves store (.node l parts)) :
    l.shape = .constant nan ∨ (∃ x, l.shape = .reference x ∧ store.get x = nan) ∨
      ∃ key ∈ l.shape.keys, ∃ p, parts.lookup key = some p ∧ nan ∈ p.leaves store := by
  obtain ⟨shape, keys, _⟩ := isPlain_node.mp plain
  have below (h : nan ∈ parts.flatMap fun part => part.2.leaves store)
      (own : l.shape.spareKeys = []) :
      ∃ key ∈ l.shape.keys, ∃ p, parts.lookup key = some p ∧ nan ∈ p.leaves store := by
    obtain ⟨⟨key, p⟩, hpart, hp⟩ := List.mem_flatMap.mp h
    have asked : key ∈ parts.map Prod.fst := List.mem_map_of_mem hpart
    refine ⟨key, ?_, p, (lookup_eq_some_iff_mem keys.nodup).mpr hpart, hp⟩
    rcases keys with h | h
    · rwa [h] at asked
    · rwa [h, own, List.append_nil] at asked
  rw [leaves_node] at undefined
  cases hs : l.shape with
  | constant c =>
    rw [hs] at undefined
    exact .inl (by rw [List.mem_singleton.mp undefined])
  | reference x =>
    rw [hs] at undefined
    exact .inr (.inl ⟨x, rfl, (List.mem_singleton.mp undefined).symm⟩)
  | iteration op index =>
    rw [hs] at shape
    cases shape
  | difference d x =>
    rw [hs] at shape
    cases shape
  | _ =>
    rw [hs] at undefined below
    exact .inr (.inr (below undefined rfl))

/-- A tree without an operator comes to a real number, and to the undefined one if a leaf
is undefined. -/
theorem value_comesTo (propagates : ∀ f, functions f → f.Propagates) {t : Expression}
    (plain : t.IsPlain functions) (real : ∀ v ∈ t.leaves store, v.isReal) :
    t.value.ComesTo store (nan ∈ t.leaves store) := by
  induction t using induction with
  | node l parts ih =>
    obtain ⟨shape, _, plainParts⟩ := isPlain_node.mp plain
    rw [value_node]
    refine ComesTo.mono (label_comesTo shape propagates
      (fun key => ∃ p, parts.lookup key = some p ∧ nan ∈ p.leaves store) ?_ ?_ ?_)
      (nan_mem_leaves plain)
    · intro key m hm
      obtain ⟨p, hp, rfl⟩ := Option.map_eq_some_iff.mp hm
      have hmem := mem_of_lookup hp
      have realPart : ∀ v ∈ p.leaves store, v.isReal :=
        fun v hv => real v (mem_leaves_of_part plain hmem hv)
      refine (ih key p hmem (plainParts _ hmem) realPart).mono ?_
      rintro ⟨q, hq, undefined⟩
      obtain rfl := Option.some.inj (hp.symm.trans hq)
      exact undefined
    · intro c hc
      exact real c (by rw [leaves_node, hc]; exact List.mem_singleton_self c)
    · intro x hx
      exact real _ (by rw [leaves_node, hx]; exact List.mem_singleton_self _)

end Expression

theorem Workspace.calculate_undefined {functions : NumericFunction → Prop}
    (propagates : ∀ f, functions f → f.Propagates) {w : Workspace} {e : ExprId} {t : Expression}
    (tree : w.graph.HasTree e t) (plain : t.IsPlain functions)
    (real : ∀ v ∈ t.leaves w.store, v.isReal) (undefined : nan ∈ t.leaves w.store) :
    (w.calculate (.expression e)).result = .ok nan ∨
      ∃ fault, (w.calculate (.expression e)).result = .error fault := by
  have result : (w.calculate (.expression e)).result =
      t.calculation.result { store := w.store } := by
    rw [calculate, body_of_hasTree tree, run_eq]
  rw [result]
  rcases t.calculation_eq with h | ⟨fault, h⟩
  · rw [h]
    cases hv : t.value.result { store := w.store } with
    | error fault => exact .inr ⟨fault, rfl⟩
    | ok v =>
      have run := apply_eq_ok_iff.mpr ⟨hv, rfl⟩
      obtain ⟨_, _, value⟩ := Expression.value_comesTo propagates plain real _ _ v rfl run
      exact .inl (congrArg Except.ok (value undefined))
  · exact .inr ⟨fault, by rw [h, result_throw]⟩

/-- An undefined argument makes the result of a function undefined, unless it is a least
common multiple that is settled by a zero before. An undefined leaf makes a tree of the
other functions undefined, if its calculation does not fault. -/
theorem Catalogue.undefined_throughout [Transcendentals] :
    (∀ f ∈ all, f.name ≠ "lcm" → ∀ args : List Value, f.accepts args.length →
      (∀ v ∈ args, v.IsRepresentable) → (∃ x, .double x ∈ args ∧ x.isNaN = true) →
      f.apply args = .ok nan) ∧
    (∀ f ∈ special, f.name = "lcm" → ∀ args : List Value, f.accepts args.length →
      (∀ v ∈ args, v.IsRepresentable) → (∃ x, .double x ∈ args ∧ x.isNaN = true) →
      (Rounding.ZeroFirst args → f.apply args = .ok (.double 0.0)) ∧
        (¬ Rounding.ZeroFirst args → f.apply args = .ok nan)) ∧
    ∀ (w : Workspace) (e : ExprId) (t : Expression), w.graph.HasTree e t →
      t.IsPlain (fun f => f ∈ all ∧ f.name ≠ "lcm") → (∀ v ∈ t.leaves w.store, v.isReal) →
      (∃ x, .double x ∈ t.leaves w.store ∧ x.isNaN = true) →
      (w.calculate (.expression e)).result = .ok nan ∨
        ∃ fault, (w.calculate (.expression e)).result = .error fault := by
  refine ⟨?_, ?_, ?_⟩
  · intro f hf other args accepted range undefined
    rw [NumericFunction.apply_of_accepts accepted]
    exact ((all_propagates f hf other).undefined args (nan_mem_iff.mpr undefined)).eq_ok range
  · intro f hf lcm args accepted range undefined
    rw [NumericFunction.apply_of_accepts accepted]
    rcases lcm_zeroFirst hf lcm range (nan_mem_iff.mpr undefined) with ⟨zero, h⟩ | ⟨zero, h⟩
    · exact ⟨fun _ => h, fun other => absurd zero other⟩
    · exact ⟨fun other => absurd other zero, fun _ => h⟩
  · intro w e t tree plain real undefined
    exact w.calculate_undefined (fun f hf => all_propagates f hf.1 hf.2) tree plain real
      (nan_mem_iff.mpr undefined)

/-- The tree of `0 * min(x, 3)`. -/
def leastTerm : Expression :=
  .node ⟨⟨3⟩, .scaling (.int 0), "scale"⟩
    [(Key.scaled, .node ⟨⟨2⟩, .application (.ofValues "min" Elementary.least) "min" 2, "min"⟩
      [(Key.arg 0, .node ⟨⟨0⟩, .reference ⟨0⟩, "x"⟩ []),
        (Key.arg 1, .node ⟨⟨1⟩, .constant (.int 3), "const"⟩ [])])]

/-- With that expression, and `x` undefined. -/
def zeroTimesLeast : Workspace :=
  ([.declare (.value (.text "x")) nan,
    .make (.application (some (.ofValues "min" Elementary.least)) [.argument ⟨0⟩, .value (.int 3)]
      none) none,
    .make (.scaling (.expression ⟨2⟩) (.int 0)) none].foldl Session.perform {}).workspace

theorem zeroTimesLeast_undefined :
    (NumericFunction.ofDoublePair "power" Transcendentals.power).apply [.int 1, nan] = .ok nan ∧
      (Catalogue.rounded (Discrete.ofIntegers "lcm" Discrete.leastCommonMultiple)).apply
        [.int 4, .bool false, nan] = .ok (.double 0.0) ∧
      (Catalogue.rounded (Discrete.ofIntegers "lcm" Discrete.leastCommonMultiple)).apply
        [.int 4, nan, .bool false] = .ok nan ∧
      ((zeroTimesLeast.calculate (.expression ⟨3⟩)).result = .ok nan ∨
        ∃ fault, (zeroTimesLeast.calculate (.expression ⟨3⟩)).result = .error fault) := by
  obtain ⟨functions, lcm, trees⟩ := Catalogue.undefined_throughout
  have undefined {args : List Value} (h : nan ∈ args) : ∃ x, .double x ∈ args ∧ x.isNaN = true :=
    nan_mem_iff.mp h
  have representable {n : Int} (h : n.natAbs ≤ 2 ^ 53) (args : List Value)
      (rest : ∀ v ∈ args, v.IsRepresentable) : ∀ v ∈ .int n :: args, v.IsRepresentable :=
    List.forall_mem_cons.mpr ⟨isRepresentable_int h, rest⟩
  have hnan : nan.IsRepresentable := ⟨_, toDouble_nan⟩
  have hfalse : (Value.bool false).IsRepresentable := ⟨_, rfl⟩
  have special : Catalogue.rounded (Discrete.ofIntegers "lcm" Discrete.leastCommonMultiple) ∈
      Catalogue.special := List.mem_map_of_mem (by simp [Catalogue.integers])
  refine ⟨?_, ?_, ?_, ?_⟩
  · refine functions _ (List.mem_append_left _ (by simp [Catalogue.elementary])) (by decide) _ rfl
      (representable (by decide) _ (by simp [hnan])) (undefined (by simp))
  · refine (lcm _ special (by decide) _ rfl (representable (by decide) _ (by simp [hnan, hfalse]))
      (undefined (by simp))).1 ?_
    exact .later rfl (.here rfl (isNearestInteger_intCast 0))
  · refine (lcm _ special (by decide) _ rfl (representable (by decide) _ (by simp [hnan, hfalse]))
      (undefined (by simp))).2 ?_
    rintro (⟨number, zero⟩ | ⟨_, later⟩)
    · cases number
      exact absurd (isNearestInteger_intCast_iff.mp zero) (by decide)
    · exact Rounding.not_zeroFirst (.inl (by decide)) later
  · have tree : zeroTimesLeast.graph.expression ⟨3⟩ = .ok leastTerm := rfl
    have plain : leastTerm.IsPlain fun f => f ∈ Catalogue.all ∧ f.name ≠ "lcm" := by
      have least : NumericFunction.ofValues "min" Elementary.least ∈ Catalogue.all ∧
          (NumericFunction.ofValues "min" Elementary.least).name ≠ "lcm" :=
        ⟨List.mem_append_left _ (by simp [Catalogue.elementary]), by decide⟩
      simp only [leastTerm, Expression.isPlain_node, List.forall_mem_cons, Shape.IsPlain]
      refine ⟨rfl, .inl rfl, ⟨least, .inl rfl, ⟨trivial, .inl rfl, ?_⟩, ⟨trivial, .inl rfl, ?_⟩,
        ?_⟩, ?_⟩ <;> simp
    have leaves : leastTerm.leaves zeroTimesLeast.store = [nan, .int 3] := rfl
    refine trees _ _ _ (Graph.expression_eq_ok_iff.mp tree) plain ?_ (undefined ?_)
    · rw [leaves]
      simp [nan, isReal]
    · rw [leaves]
      exact List.mem_cons_self

end FiniteCalculus
