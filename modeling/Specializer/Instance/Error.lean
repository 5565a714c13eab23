import Specializer.Diagnostic
import Specializer.Types.Store

/-!
# Refused instantiations

The causes for which a request for an instance, or the processing of one, is refused. Apart from the
limit each of them means that an ill-formed module tree was let through.
-/

set_option autoImplicit false

namespace Specializer

inductive TypeContext where
  | argument (index : Nat) (owner : String)
  | instantiation (owner : String)
  | moduleType (owner : String)
  | field (name owner : String)
  | closure (symbol : String)
  | capture (name symbol : String)
  deriving DecidableEq

def TypeContext.text : TypeContext → String
  | .argument index owner => "type argument " ++ toString index ++ " of '" ++ owner ++ "'"
  | .instantiation owner => "instantiating '" ++ owner ++ "'"
  | .moduleType owner => "type of '" ++ owner ++ "'"
  | .field name owner => "field '" ++ name ++ "' of '" ++ owner ++ "'"
  | .closure symbol => "closure '" ++ symbol ++ "'"
  | .capture name symbol => "capture '" ++ name ++ "' of closure '" ++ symbol ++ "'"

/-- What an initializer may name that is no value. -/
inductive NonValue where
  | typeConstant | nestedModule
  deriving DecidableEq

def NonValue.text : NonValue → String
  | .typeConstant => "type constant"
  | .nestedModule => "module"

inductive Refusal where
  /-- a number of arguments other than that of the template parameters -/
  | argumentCount (name : String) (expected found : Nat)
  /-- a type for a value parameter or the other way round -/
  | argumentKind (name : String) (index : Nat) (expectsType : Bool)
  /-- a scheme that does not quantify as many variables as there are type parameters -/
  | schemeArity (name : String) (expected found : Nat)
  | notAValue (field : String) (found : NonValue)
  | noField (owner field : String)
  /-- no instance of the module around the target can be told from where it is named -/
  | outsideInstance (name : String)
  | type (cause : TypeError) (context : TypeContext)
  | tooManyInstances (limit : Nat) (name : String)
  deriving DecidableEq

structure InstantiationError where
  refusal : Refusal
  span : Span
  deriving DecidableEq

namespace Refusal

def code : Refusal → String
  | .argumentCount _ _ _ => "M0001"
  | .argumentKind _ _ _ => "M0002"
  | .schemeArity _ _ _ => "M0003"
  | .notAValue _ _ => "M0004"
  | .noField _ _ => "M0005"
  | .outsideInstance _ => "M0006"
  | .type _ _ => "M0007"
  | .tooManyInstances _ _ => "M0008"

def message : Refusal → String
  | .argumentCount name expected found =>
      "module '" ++ name ++ "' declares " ++ toString expected ++
        " template parameter(s) but was given " ++ toString found ++ " argument(s)"
  | .argumentKind name index expectsType =>
      "argument " ++ toString index ++ " of module '" ++ name ++
        if expectsType then "' must be a type but a value was given"
        else "' must be a value but a type was given"
  | .schemeArity name expected found =>
      "scheme of module '" ++ name ++ "' quantifies " ++ toString expected ++ " variable(s) but " ++
        toString found ++ " type argument(s) were given"
  | .notAValue field found =>
      "field '" ++ field ++ "' resolves to a " ++ found.text ++
        ", which is neither a type nor a value"
  | .noField owner field => "module '" ++ owner ++ "' has no field '" ++ field ++ "'"
  | .outsideInstance name =>
      "module '" ++ name ++ "' is referenced outside of an instance of its enclosing module"
  | .type cause context => context.text ++ ": " ++ cause.message
  | .tooManyInstances limit name =>
      "instantiating module '" ++ name ++ "' exceeds the limit of " ++ toString limit ++
        " concrete module instances"

def note : Refusal → String
  | .tooManyInstances _ _ =>
      "generic modules are instantiated without bound; " ++
        "raise `mono.max_instances` only if this is expected"
  | _ => "internal compiler error: an earlier stage admitted an ill-formed instantiation"

end Refusal

/-- The diagnostic of an error; a missing field names the instance that lacks it. -/
def InstantiationError.report (e : InstantiationError) : Diagnostic where
  severity := .error
  code := e.refusal.code
  message := e.refusal.message
  span := e.span
  context := match e.refusal with
    | .noField owner _ => some owner
    | _ => none
  notes := [e.refusal.note]

end Specializer
