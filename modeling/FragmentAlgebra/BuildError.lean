import FragmentAlgebra.Json.Basic

/-! # Build errors

Why operands or a description give no fragment. `Offence` is the cause of an invalid operand, and
`message` is the text shown for each error.
-/

namespace FragmentAlgebra

/-- What stands in the place of an operand. -/
inductive Offence
  /-- A value that is neither a string nor an object. -/
  | bare (kind : Json.Kind)
  /-- An object that has not exactly one key. -/
  | keyCount (count : Nat)
  | unknownKey (key : String)
  | emptyBody (kind : Json.Kind)
  | symbolBody (kind : Json.Kind)
  | listBody (key : String) (kind : Json.Kind)
deriving DecidableEq

/-- Why no fragment can be built. -/
inductive BuildError
  | invalidOperand (found : Offence)
  | symbolOutOfRange (value : Nat)
  | noOperands
  | unreadable (fault : Json.Fault)
deriving DecidableEq

/-- What was found where an operand was wanted. -/
def Offence.text : Offence → String
  | .bare kind => kind.name
  | .keyCount count => "object with " ++ toString count ++ " keys"
  | .unknownKey key => "object with unknown key `" ++ key ++ "`"
  | .emptyBody kind => "`empty` with " ++ kind.name
  | .symbolBody kind => "`symbol` with " ++ kind.name
  | .listBody key kind => "`" ++ key ++ "` with " ++ kind.name ++ " instead of an array"

def BuildError.message : BuildError → String
  | .invalidOperand found =>
    "Invalid operand: expected an automaton, a symbol, or a symbol sequence, found " ++ found.text
  | .symbolOutOfRange value =>
    "Symbol " ++ toString value ++ " is outside the alphabet (0..256)"
  | .noOperands => "Union needs at least one operand"
  | .unreadable _ => "Malformed automaton description"

end FragmentAlgebra
