import FiniteCalculus.Expression.Text
import FiniteCalculus.Expression.Evaluator

/-! Making and editing nodes. Wherever a part is wanted a number or an argument may
stand, and becomes a constant or a reference of its own. A step converts all that
it is given before it changes anything, so a refused step leaves no trace. -/

namespace FiniteCalculus
set_option autoImplicit false

/-- What can be handed to a step. -/
inductive Operand where
  | value (v : Value)
  | argument (x : Argument)
  | expression (e : ExprId)
  | evaluator (ev : Evaluator)

/-- What an operator binds its argument as. -/
inductive Role where
  | index
  | argument
deriving DecidableEq, Repr

/-- Why a step is refused. Types are reported by name. -/
inductive Misuse where
  | constantNotReal (type : String)
  | notAnArgument (type : String)
  | nameNotText (type : String)
  | functionNotCallable
  | bodyNotCallable
  | bindsNoArgument (role : Role) (type : String)
deriving DecidableEq, Repr

def Role.name : Role → String
  | index => "index"
  | argument => "argument"

def Role.title : Role → String
  | index => "Index"
  | argument => "Argument"

def Misuse.message : Misuse → String
  | constantNotReal type => "Constant must be a real number, not " ++ type ++ "."
  | notAnArgument type => "Expected an Argument, got " ++ type ++ "."
  | nameNotText type => "Argument name must be a string, not " ++ type ++ "."
  | functionNotCallable => "`func` argument must be callable."
  | bodyNotCallable => "`f` argument must be callable."
  | bindsNoArgument role type =>
    "The " ++ role.name ++ " must be an Argument, not " ++ type ++ "."

/-- An operator binds an argument that its body does not contain. -/
structure Warning where
  role : Role
  argument : String
  body : String

def Warning.message (w : Warning) : String :=
  w.role.title ++ " " ++ Text.quoted w.argument ++ " does not occur in the expression " ++
    w.body ++ "."

/-- A node that was made, the graph with it, and what there is to warn about. -/
structure Made where
  id : ExprId
  graph : Graph
  warnings : List Warning := []

namespace Graph

def className (g : Graph) (e : ExprId) : String :=
  match g.node? e with
  | some node => node.shape.className
  | none => ""

def typeName (g : Graph) : Operand → String
  | .value v => v.kind.name
  | .argument _ => "Argument"
  | .expression e => g.className e
  | .evaluator ev => ev.className

/-- The name of a node for which none is chosen. -/
def usualName (g : Graph) : Shape → String
  | .constant _ => "const"
  | .reference x => g.argumentName x
  | .application _ description _ => description
  | .scaling _ => "scale"
  | .addition _ => "add"
  | .multiplication => "mult"
  | .iteration op _ => op.symbol
  | .difference .forward _ => "fwd-diff"
  | .difference .backward _ => "bwd-diff"

/-- The name of a node for which an empty one is chosen. -/
def plainName (g : Graph) : Shape → String
  | .reference x => g.argumentName x
  | .application _ description _ => description
  | _ => ""

/-- The name of a new node, given the choice of one. A node that is left without a
name is called by its class. -/
def chosenName (g : Graph) (shape : Shape) (choice : Option String) : String :=
  let name := match choice with
    | none => g.usualName shape
    | some name => if name.isEmpty then g.plainName shape else name
  if name.isEmpty then shape.className else name

def insert (g : Graph) (node : Node) : ExprId × Graph :=
  (⟨g.nodes.size⟩, { g with nodes := g.nodes.push node })

/-- A new node without parts. -/
def leaf (g : Graph) (shape : Shape) (name : Option String) : ExprId × Graph :=
  g.insert { shape := shape, name := g.chosenName shape name, parts := [] }

/-- The node that an operand is or becomes. -/
def adopt (g : Graph) : Operand → Except Misuse (ExprId × Graph)
  | .expression e => .ok (e, g)
  | .argument x => .ok (g.leaf (.reference x) none)
  | .value v =>
    if v.isReal then .ok (g.leaf (.constant v) none) else .error (.constantNotReal v.kind.name)
  | .evaluator ev => .error (.constantNotReal ev.className)

/-- Adopts operands from left to right. -/
def adoptAll (g : Graph) : List (String × Operand) → Except Misuse (List (String × ExprId) × Graph)
  | [] => .ok ([], g)
  | (key, operand) :: rest => do
    let (e, g) ← g.adopt operand
    let (parts, g) ← adoptAll g rest
    return ((key, e) :: parts, g)

/-- A new node with parts. -/
def compose (g : Graph) (shape : Shape) (name : Option String) (operands : List (String × Operand)) :
    Except Misuse Made := do
  let (parts, g) ← g.adoptAll operands
  let (id, g) := g.insert
    { shape := shape, name := g.chosenName shape name, parts := parts, listed := parts }
  return { id := id, graph := g }

def constant (g : Graph) (operand : Operand) (name : Option String) : Except Misuse Made :=
  match operand with
  | .value v =>
    if v.isReal then
      let (id, g) := g.leaf (.constant v) name
      .ok { id := id, graph := g }
    else .error (.constantNotReal v.kind.name)
  | _ => .error (.constantNotReal (g.typeName operand))

def reference (g : Graph) (operand : Operand) (name : Option String) : Except Misuse Made :=
  match operand with
  | .argument x =>
    let (id, g) := g.leaf (.reference x) name
    .ok { id := id, graph := g }
  | _ => .error (.notAnArgument (g.typeName operand))

/-- A function applied to operands; `none` stands for what is no function. An empty
description is none. -/
def application (g : Graph) (f : Option NumericFunction) (args : List Operand)
    (description : Option String) (name : Option String) : Except Misuse Made :=
  match f with
  | none => .error .functionNotCallable
  | some f =>
    let description := match description with
      | some text => if text.isEmpty then f.name else text
      | none => f.name
    g.compose (.application f description args.length) name
      (args.mapIdx fun i arg => (Key.arg i, arg))

def scaling (g : Graph) (part : Operand) (factor : Value) (name : Option String) :
    Except Misuse Made :=
  g.compose (.scaling factor) name [(Key.scaled, part)]

def addition (g : Graph) (left right : Operand) (coefficient : Value) (name : Option String) :
    Except Misuse Made :=
  g.compose (.addition coefficient) name [(Key.left, left), (Key.right, right)]

def multiplication (g : Graph) (left right : Operand) (name : Option String) :
    Except Misuse Made :=
  g.compose .multiplication name [(Key.left, left), (Key.right, right)]

/-- The warning for an operator that binds an argument over a body. -/
def unusedArgument (g : Graph) (role : Role) (x : Argument) (body : ExprId) : List Warning :=
  match g.arguments body, g.expression body with
  | .ok arguments, .ok e =>
    if x ∈ arguments then []
    else [{ role := role, argument := g.argumentName x, body := e.toText g.argumentName }]
  | _, _ => []

/-- A new operator that binds an argument over the part under the key of bodies.
The parts are converted before the argument is looked at. -/
def binding (g : Graph) (shape : Argument → Shape) (role : Role) (bound : Operand)
    (name : Option String) (operands : List (String × Operand)) : Except Misuse Made := do
  let (parts, g) ← g.adoptAll operands
  match bound with
  | .argument x =>
    let (id, g) := g.insert
      { shape := shape x, name := g.chosenName (shape x) name, parts := parts, listed := parts }
    let warnings := match parts.lookup Key.body with
      | some body => g.unusedArgument role x body
      | none => []
    return { id := id, graph := g, warnings := warnings }
  | _ => throw (.bindsNoArgument role (g.typeName bound))

def iteration (g : Graph) (op : Iteration) (body index start stop step : Operand)
    (name : Option String) : Except Misuse Made :=
  g.binding (.iteration op) .index index name
    [(Key.body, body), (Key.start, start), (Key.stop, stop), (Key.step, step)]

/-- A difference, at the value of its argument if no point is given. -/
def difference (g : Graph) (d : Difference) (body x : Operand) (point : Option Operand)
    (width : Operand) (name : Option String) : Except Misuse Made :=
  g.binding (.difference d) .argument x name
    ([(Key.body, body), (Key.width, width)] ++ point.toList.map fun p => (Key.point, p))

/-- The parts with one more, in the place of the part under its key if there is one. -/
def putPart (key : String) (e : ExprId) : List (String × ExprId) → List (String × ExprId)
  | [] => [(key, e)]
  | (k, part) :: rest => if k = key then (key, e) :: rest else (k, part) :: putPart key e rest

def modify (g : Graph) (e : ExprId) (change : Node → Node) : Graph :=
  { g with nodes := g.nodes.modify e.index change }

/-- The parts with more of them put in, one after the other. -/
def putParts (new old : List (String × ExprId)) : List (String × ExprId) :=
  new.foldl (fun old (key, part) => putPart key part old) old

/-- Replaces or adds parts of a node, among its own and in its list. -/
def setParts (g : Graph) (e : ExprId) (operands : List (String × Operand)) :
    Except Misuse Graph := do
  let (parts, g) ← g.adoptAll operands
  return g.modify e fun node =>
    { node with parts := putParts parts node.parts, listed := putParts parts node.listed }

def rename (g : Graph) (e : ExprId) (name : String) : Graph :=
  g.modify e fun node => { node with name := name }

def setVerbosity (g : Graph) (e : ExprId) (v : Value) : Graph :=
  g.modify e fun node => { node with verbosity := v }

/-- Assigns the coefficient of an addition. -/
def setCoefficient (g : Graph) (e : ExprId) (c : Value) : Graph :=
  g.modify e fun node =>
    match node.shape with
    | .addition _ => { node with shape := .addition c }
    | _ => node

/-- Assigns the factor of a scaling. -/
def setFactor (g : Graph) (e : ExprId) (a : Value) : Graph :=
  g.modify e fun node =>
    match node.shape with
    | .scaling _ => { node with shape := .scaling a }
    | _ => node

/-- A new argument. -/
def declare (g : Graph) (name : Operand) : Except Misuse (Argument × Graph) :=
  match name with
  | .value (.text s) =>
    .ok (⟨g.argumentNames.size⟩, { g with argumentNames := g.argumentNames.push s })
  | _ => .error (.nameNotText (g.typeName name))

/-- An evaluator made by hand. Only an evaluator can be run, so nothing else serves. -/
def evaluatorFrom : Operand → Except Misuse Evaluator
  | .evaluator ev => .ok ev
  | _ => .error .bodyNotCallable

/-- The evaluator of a node as the graph is now. -/
def evaluator (g : Graph) (e : ExprId) : Except Fault Evaluator := do
  (← g.expression e).evaluator

/-- The nodes that a function is applied to, in order. -/
def operands (g : Graph) (e : ExprId) : Except Fault (List ExprId) :=
  match g.node? e with
  | some ⟨.application _ _ count, _, _, parts, _⟩ =>
    (List.range count).mapM fun i =>
      match parts.lookup (Key.arg i) with
      | some part => .ok part
      | none => .error (.missingPart (Key.arg i))
  | _ => .ok []

theorem adopt_expression (g : Graph) (e : ExprId) : g.adopt (.expression e) = .ok (e, g) := rfl

theorem keys_putPart_of_mem {key : String} {e : ExprId} {parts : List (String × ExprId)}
    (h : key ∈ parts.map Prod.fst) : (putPart key e parts).map Prod.fst = parts.map Prod.fst := by
  induction parts with
  | nil => simp at h
  | cons part rest ih =>
    obtain ⟨k, old⟩ := part
    by_cases hk : k = key
    · simp [putPart, hk]
    · have hr : key ∈ rest.map Prod.fst := by
        simpa [Ne.symm hk] using h
      simp [putPart, hk, ih hr]

end Graph

end FiniteCalculus
