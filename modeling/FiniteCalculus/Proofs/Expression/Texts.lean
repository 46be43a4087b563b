import FiniteCalculus.Expression.Text
import FiniteCalculus.Proofs.Graph.Keys

/-! Expressions in print. The text of a node has in it the text of every part that stands under one
of its keys, after a mark that tells the key, and a function has the texts of its arguments in
their order. -/

namespace FiniteCalculus
set_option autoImplicit false

/-- The one text stands in the other. -/
def OccursIn (s text : String) : Prop := s.toList <:+: text.toList

theorem occursIn_of_eq {s text before after : String} (h : text = before ++ s ++ after) :
    OccursIn s text :=
  ⟨before.toList, after.toList, by rw [h, String.toList_append, String.toList_append]⟩

theorem OccursIn.trans {s t u : String} (h : OccursIn s t) (h' : OccursIn t u) : OccursIn s u :=
  List.IsInfix.trans h h'

theorem occursIn_intercalate {separator s : String} {texts : List String} (h : s ∈ texts) :
    OccursIn s (separator.intercalate texts) := by
  rw [OccursIn, String.toList_intercalate]
  induction texts with
  | nil => cases h
  | cons text rest ih =>
    cases rest with
    | nil =>
      rw [List.mem_singleton.mp h]
      simp
    | cons next rest =>
      rw [List.map_cons, List.map_cons, List.intercalate_cons_cons]
      rcases List.mem_cons.mp h with rfl | h
      · exact (List.prefix_append _ _).isInfix.trans (List.prefix_append _ _).isInfix
      · exact (ih h).trans (List.suffix_append _ _).isInfix

/-- What stands before a part in the text of its node. -/
def Shape.mark (argumentName : Argument → String) : Shape → String → String
  | constant _, _ | reference _, _ | application .., _ => ""
  | scaling _, _ => "f="
  | addition _, key | multiplication, key => key ++ "="
  | iteration .., key =>
    if key = Key.start then "a=" else if key = Key.stop then "b="
    else if key = Key.step then "d=" else "f="
  | difference _ x, key => if key = Key.point then argumentName x ++ "=" else key ++ "="

section
variable (argumentName : Argument → String) (part : String → String) {key : String}

theorem sides_have_part (asked : key = Key.left ∨ key = Key.right) :
    OccursIn (key ++ "=" ++ part key) ("e1=" ++ part Key.left ++ ", e2=" ++ part Key.right) := by
  rcases asked with rfl | rfl
  · refine occursIn_of_eq (?_ : _ = "" ++ _ ++ (", e2=" ++ part Key.right))
    simp [Key.left, String.ext_iff]
  · refine occursIn_of_eq (?_ : _ = "e1=" ++ part Key.left ++ ", " ++ _ ++ "")
    simp [Key.right, String.ext_iff]

theorem range_has_part {op : Iteration} {index : Argument}
    (asked : key ∈ (Shape.iteration op index).keys) :
    OccursIn ((Shape.iteration op index).mark argumentName key ++ part key)
      ("a=" ++ part Key.start ++ ", b=" ++ part Key.stop ++ ", d=" ++ part Key.step ++
        ", f=" ++ part Key.body) := by
  rw [Shape.mark]
  rcases (by simpa [Shape.keys] using asked :
    key = Key.body ∨ key = Key.start ∨ key = Key.stop ∨ key = Key.step) with rfl | rfl | rfl | rfl
  · refine occursIn_of_eq (?_ : _ = "a=" ++ part Key.start ++ ", b=" ++ part Key.stop ++
      ", d=" ++ part Key.step ++ ", " ++ _ ++ "")
    simp [Key.body, Key.start, Key.stop, Key.step, String.ext_iff]
  · refine occursIn_of_eq (?_ : _ = "" ++ _ ++
      (", b=" ++ part Key.stop ++ ", d=" ++ part Key.step ++ ", f=" ++ part Key.body))
    simp [String.ext_iff]
  · refine occursIn_of_eq (?_ : _ = "a=" ++ part Key.start ++ ", " ++ _ ++
      (", d=" ++ part Key.step ++ ", f=" ++ part Key.body))
    simp [Key.start, Key.stop, String.ext_iff]
  · refine occursIn_of_eq (?_ : _ = "a=" ++ part Key.start ++ ", b=" ++ part Key.stop ++ ", " ++
      _ ++ (", f=" ++ part Key.body))
    simp [Key.start, Key.stop, Key.step, String.ext_iff]

theorem place_has_part {d : Difference} {x : Argument} {point : String}
    (asked : key ∈ (Shape.difference d x).keys ++ (Shape.difference d x).spareKeys)
    (here : key = Key.point → point = part key) :
    OccursIn ((Shape.difference d x).mark argumentName key ++ part key)
      (argumentName x ++ "=" ++ point ++ ", where h=" ++ part Key.width ++
        ", f=" ++ part Key.body) := by
  rw [Shape.mark]
  rcases (by simpa [Shape.keys, Shape.spareKeys] using asked :
    key = Key.body ∨ key = Key.width ∨ key = Key.point) with rfl | rfl | rfl
  · refine occursIn_of_eq (?_ : _ = argumentName x ++ "=" ++ point ++ ", where h=" ++
      part Key.width ++ ", " ++ _ ++ "")
    simp [Key.body, Key.point, String.ext_iff]
  · refine occursIn_of_eq (?_ : _ = argumentName x ++ "=" ++ point ++ ", where " ++ _ ++
      (", f=" ++ part Key.body))
    simp [Key.width, Key.point, String.ext_iff]
  · refine occursIn_of_eq (?_ : _ = "" ++ _ ++
      (", where h=" ++ part Key.width ++ ", f=" ++ part Key.body))
    simp [here rfl, String.ext_iff]

end

namespace Label
variable {argumentName : Argument → String} {l : Label} {texts : List (String × String)}

/-- A formula has the text of every part in it, after the mark of its key. -/
theorem formula_has_part (keys : l.shape.Accepts (texts.map Prod.fst)) {key text : String}
    (mem : (key, text) ∈ texts) :
    OccursIn (l.shape.mark argumentName key ++ text) (l.formula argumentName texts) := by
  have found : texts.lookup key = some text := (lookup_eq_some_iff_mem keys.nodup).mpr mem
  have asked : key ∈ l.shape.keys ++ l.shape.spareKeys := keys.subset (List.mem_map_of_mem mem)
  let part (key : String) : String := (texts.lookup key).getD ""
  obtain rfl : part key = text := by simp only [part, found, Option.getD_some]
  unfold formula
  generalize l.shape = shape at asked ⊢
  cases shape with
  | constant c => cases asked
  | reference x => cases asked
  | application f description count =>
    obtain ⟨i, hi, rfl⟩ : ∃ i < count, Key.arg i = key := by
      simpa only [Shape.keys, Shape.spareKeys, List.append_nil, List.mem_map, List.mem_range] using
        asked
    have listed : part (Key.arg i) ∈ (List.range count).map fun i => part (Key.arg i) :=
      List.mem_map_of_mem (List.mem_range.mpr hi)
    rw [Shape.mark, String.empty_append]
    exact (occursIn_intercalate listed).trans (occursIn_of_eq rfl)
  | scaling factor =>
    obtain rfl : key = Key.scaled := by simpa [Shape.keys, Shape.spareKeys] using asked
    refine occursIn_of_eq (?_ : _ = "a f, where a=" ++ factor.toText ++ ", " ++ _ ++ "")
    simp [part, Shape.mark, String.ext_iff]
  | addition coefficient =>
    refine (sides_have_part part (by simpa [Shape.keys, Shape.spareKeys] using asked)).trans ?_
    dsimp only
    split
    · exact occursIn_of_eq String.append_empty.symm
    · exact occursIn_of_eq String.append_empty.symm
    · exact occursIn_of_eq (String.append_assoc ..)
  | multiplication =>
    refine (sides_have_part part (by simpa [Shape.keys, Shape.spareKeys] using asked)).trans ?_
    refine occursIn_of_eq (?_ : _ = "e1 * e2, where " ++ _ ++ "")
    simp [part, String.ext_iff]
  | iteration op index =>
    refine (range_has_part argumentName part (by simpa [Shape.spareKeys] using asked)).trans ?_
    refine occursIn_of_eq (?_ : _ = op.symbol ++ "_\x7b" ++ argumentName index ++
      "=a\x7d^\x7bb\x7d f by d, where " ++ _ ++ "")
    simp [part, String.ext_iff]
  | difference d x =>
    have here : key = Key.point → (texts.lookup Key.point).getD (argumentName x) = part key := by
      rintro rfl
      rw [found, Option.getD_some]
    refine (place_has_part argumentName part asked here).trans ?_
    refine occursIn_of_eq (?_ : _ = d.symbol ++ "_h f at " ++ _ ++ "")
    simp [part, String.ext_iff]

/-- The formula of a function has the texts of its arguments in their order. -/
theorem formula_application {f : NumericFunction} {description : String} {count : Nat}
    (shape : l.shape = .application f description count)
    (keys : l.shape.Accepts (texts.map Prod.fst)) : l.formula argumentName texts =
      description ++ "(" ++ ", ".intercalate (texts.map Prod.snd) ++ ")" := by
  have asked : texts.map Prod.fst = (List.range count).map Key.arg := by
    rw [shape] at keys
    exact keys.eq_keys rfl
  have found : (texts.map Prod.fst).map (fun key => (texts.lookup key).getD "") =
      texts.map Prod.snd := by
    rw [List.map_map]
    refine List.map_congr_left fun entry mem => ?_
    rw [Function.comp_apply, (lookup_eq_some_iff_mem keys.nodup).mpr mem, Option.getD_some]
  rw [asked, List.map_map] at found
  unfold formula
  rw [shape]
  exact congrArg (fun texts => description ++ "(" ++ ", ".intercalate texts ++ ")") found

end Label

namespace Expression
variable {argumentName : Argument → String} {label : Label} {parts : List (String × Expression)}

theorem toText_node : (node label parts).toText argumentName =
    "(" ++ label.formula argumentName
      (parts.map fun part => (part.1, part.2.toText argumentName)) ++ ")" := by
  simp only [toText, fold, foldParts_eq_map]

variable (keys : label.shape.Accepts (parts.map Prod.fst))
include keys

theorem toText_has_part {part : String × Expression} (mem : part ∈ parts) :
    OccursIn (label.shape.mark argumentName part.1 ++ part.2.toText argumentName)
      ((node label parts).toText argumentName) := by
  let texts := parts.map fun part => (part.1, part.2.toText argumentName)
  have written : label.shape.Accepts (texts.map Prod.fst) := by
    rw [List.map_map]
    exact keys
  have there : (part.1, part.2.toText argumentName) ∈ texts := List.mem_map_of_mem mem
  exact (Label.formula_has_part written there).trans (occursIn_of_eq toText_node)

theorem toText_application {f : NumericFunction} {description : String} {count : Nat}
    (shape : label.shape = .application f description count) :
    (node label parts).toText argumentName = "(" ++ description ++ "(" ++
      ", ".intercalate (parts.map fun part => part.2.toText argumentName) ++ "))" := by
  let texts := parts.map fun part => (part.1, part.2.toText argumentName)
  have written : label.shape.Accepts (texts.map Prod.fst) := by
    rw [List.map_map]
    exact keys
  have in_order : texts.map Prod.snd = parts.map fun part => part.2.toText argumentName :=
    List.map_map
  rw [toText_node, Label.formula_application shape written, in_order]
  generalize ", ".intercalate (parts.map fun part => part.2.toText argumentName) = arguments
  simp [String.ext_iff]

end Expression

end FiniteCalculus
