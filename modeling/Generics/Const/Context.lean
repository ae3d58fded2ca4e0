import Generics.Const.Eval
import Generics.Text.Ident

/-!
# Const parameters

The const parameters of a generic item, the values bound to them, and the identifiers of its
instances. Binding fails and changes nothing if the name is not a parameter or the value does not fit.
-/

namespace Generics.Const

open Text

/-- A const parameter, possibly with a default. -/
structure Param where
  name : String
  type : Ty
  default : Option ConstValue

/-- The const parameters of an item and the values bound to them. -/
structure Context where
  owner : String
  params : List Param
  values : List (String × ConstValue) := []

/-- A value given by name; it may be left open. -/
structure Argument where
  name : String
  value : Option ConstValue

namespace Context

/-- The first parameter with the name. -/
def param? (c : Context) (name : String) : Option Param := c.params.find? fun p => p.name = name

/-- The value bound to a name. -/
def value? (c : Context) (name : String) : Option ConstValue := c.values.lookup name

/-- The name is a parameter, and the value fits its type. -/
def check (c : Context) (name : String) (value : ConstValue) : Except Error Unit :=
  match c.param? name with
  | none =>
    .error (.typeMismatch s!"a const parameter of {c.owner}" name s!"const argument {name} = {value}")
  | some p =>
    match value.misfit? p.type with
    | none => .ok ()
    | some m => .error (.typeMismatch p.type.render m.message s!"const parameter {name} of {c.owner}")

/-- Stores the value of a name in place of an earlier one. -/
def setValue (c : Context) (name : String) (value : ConstValue) : Context :=
  { c with values := (name, value) :: c.values.filter fun b => b.1 ≠ name }

/-- Binds a value to a parameter. -/
def bind (c : Context) (name : String) (value : ConstValue) : Context × Except Error Unit :=
  match c.check name value with
  | .ok () => (c.setValue name value, .ok ())
  | .error e => (c, .error e)

/-- Binds the value of an expression to a parameter. -/
def bindExpr (e : Evaluator) (c : Context) (name expr : String) :
    Evaluator × Context × Except Error Unit :=
  match e.evaluate expr with
  | (e, .ok value) => (e, c.bind name value)
  | (e, .error err) => (e, c, .error err)

/-- Fails for the first parameter with neither a value nor a default. -/
def validate (c : Context) : Except Error Unit :=
  match c.params.find? fun p => (c.value? p.name).isNone && p.default.isNone with
  | some p => .error (.missingConstParameter c.owner p.name)
  | none => .ok ()

/-- Every parameter has a value or a default. -/
def isComplete (c : Context) : Bool :=
  match c.validate with
  | .ok () => true
  | .error _ => false

/-- Checks the arguments of an instantiation one after the other. Each has a value, is given once and
fits. -/
def collect (c : Context) (given : List (String × ConstValue)) :
    List Argument → Except Error (List (String × ConstValue))
  | [] => .ok given
  | ⟨name, none⟩ :: _ => .error (.constEval name "no value given")
  | ⟨name, some value⟩ :: args =>
    if (given.lookup name).isSome then
      .error (.typeMismatch "one value per const parameter" s!"{name} given twice"
        s!"instantiation of {c.owner}")
    else do
      c.check name value
      c.collect ((name, value) :: given) args

/-- The part of an identifier for one parameter. -/
def mangled (name : String) (value : ConstValue) : String :=
  s!"__{identSafe name}_{String.ofList value.mangle}"

/-- The value of a parameter in an instantiation: given, bound or default. -/
def effective (c : Context) (given : List (String × ConstValue)) (p : Param) : Option ConstValue :=
  given.lookup p.name <|> c.value? p.name <|> p.default

/-- The identifier of the instance in which every parameter has a value. -/
def monomorphize (c : Context) (args : List Argument) : Except Error String := do
  let given ← c.collect [] args
  let parts ← c.params.mapM fun p =>
    match c.effective given p with
    | some value => .ok (mangled p.name value)
    | none => .error (.missingConstParameter c.owner p.name)
  return identSafe c.owner ++ String.join parts

/-- The identifier of the partial instance that fixes only the given parameters. -/
def specialize (c : Context) (args : List Argument) : Except Error String := do
  let given ← c.collect [] args
  let parts := c.params.filterMap fun p => (given.lookup p.name).map (mangled p.name)
  return identSafe c.owner ++ "__spec" ++ String.join parts

end Context

end Generics.Const
