import FragmentAlgebra.Binary64.Rounding

/-! # JSON values

A `Json` value keeps the three kinds of numbers apart: unsigned integers, negative integers and
doubles. An object lists its members in the order of their first mention, each key once.

`Fault` says in which of three ways a text fails: it ends too early, it is not JSON, or it is JSON
of the wrong shape.
-/

namespace FragmentAlgebra

namespace Json

/-- A number as it was written. -/
inductive Number
  /-- An integer from `0` to `2 ^ 64 - 1`. -/
  | unsigned (n : Nat)
  /-- The integer `-n`, with `n` from `1` to `2 ^ 63`. -/
  | negative (n : Nat)
  /-- Every other number. -/
  | float (x : Binary64)
deriving DecidableEq

/-- The nearest double. -/
def Number.toBinary64 : Number → Binary64
  | .unsigned n => .ofInt n
  | .negative n => .ofInt (-n)
  | .float x => x

/-- The way in which a text fails. -/
inductive Fault
  /-- The text ends inside a value. -/
  | endOfText
  /-- The text is not JSON. -/
  | malformed
  /-- The text is JSON, but not of the wanted shape. -/
  | mismatch
deriving DecidableEq

end Json

/-- A value. The members of an object stand in their order. -/
inductive Json
  | null
  | bool (value : Bool)
  | number (value : Json.Number)
  | string (value : String)
  | array (items : List Json)
  | object (members : List (String × Json))

namespace Json

inductive Kind
  | null | boolean | number | string | array | object
deriving DecidableEq

def Kind.name : Kind → String
  | .null => "null"
  | .boolean => "boolean"
  | .number => "number"
  | .string => "string"
  | .array => "array"
  | .object => "object"

def kind : Json → Kind
  | .null => .null
  | .bool _ => .boolean
  | .number _ => .number
  | .string _ => .string
  | .array _ => .array
  | .object _ => .object

def nat (n : Nat) : Json := .number (.unsigned n)

/-- The first value under a key. -/
def member? (key : String) : List (String × Json) → Option Json
  | [] => none
  | (k, v) :: rest => if k = key then some v else member? key rest

/-- Set the member named `key`, in its old place if it has one. -/
def setMember (key : String) (value : Json) : List (String × Json) → List (String × Json)
  | [] => [(key, value)]
  | (k, v) :: rest => if k = key then (k, value) :: rest else (k, v) :: setMember key value rest

end Json

end FragmentAlgebra
