import FragmentAlgebra.Json.Parse
import FragmentAlgebra.Operand

/-! # Descriptions

A `Description` is a tree of operands, written in JSON:

* `"text"`: the bytes of the text; `{"symbol": 97}`: one symbol; `{"empty": null}`: the empty word;
* `{"concat": [..]}`, `{"union": [..]}`: product and sum; `{"repeat": ..}`: a loop.

`Description.ofJson` reads a tree, the first error in the order of the text first, and
`Description.build` builds its fragment, which always succeeds.
-/

namespace FragmentAlgebra

/-- A tree of operands. -/
inductive Description
  | text (value : String)
  | symbol (value : Symbol)
  | empty
  | concat (parts : List Description)
  | union (first : Description) (rest : List Description)
  | loop (body : Description)

namespace Description

/-! ## Reading -/

/-- A symbol as a number up to 255. -/
def symbolOfJson : Json → Except BuildError Description
  | .number (.unsigned n) =>
    if n < 256 then .ok (.symbol (UInt8.ofNat n)) else .error (.symbolOutOfRange n)
  | body => .error (.invalidOperand (.symbolBody body.kind))

def emptyOfJson : Json → Except BuildError Description
  | .null => .ok .empty
  | body => .error (.invalidOperand (.emptyBody body.kind))

/-- A sum has at least one part. -/
def unionOfParts : List Description → Except BuildError Description
  | [] => .error .noOperands
  | first :: rest => .ok (.union first rest)

mutual

/-- The description that a value writes down, or the error of its first offending node. -/
def ofJson : Json → Except BuildError Description
  | .string value => .ok (.text value)
  | .object [(key, body)] =>
    match key, body with
    | "symbol", body => symbolOfJson body
    | "empty", body => emptyOfJson body
    | "repeat", body => (ofJson body).map .loop
    | "concat", .array items => (ofJsonList items).map .concat
    | "union", .array items => ofJsonList items >>= unionOfParts
    | "concat", body => .error (.invalidOperand (.listBody "concat" body.kind))
    | "union", body => .error (.invalidOperand (.listBody "union" body.kind))
    | key, _ => .error (.invalidOperand (.unknownKey key))
  | .object members => .error (.invalidOperand (.keyCount members.length))
  | value => .error (.invalidOperand (.bare value.kind))

/-- The descriptions that values stand for, or the error of the first that fails. -/
def ofJsonList : List Json → Except BuildError (List Description)
  | [] => .ok []
  | item :: items => do
    let first ← ofJson item
    let rest ← ofJsonList items
    .ok (first :: rest)

end

/-! ## Building -/

mutual

/-- The fragment of a description, joined from the left. -/
def build : Description → Fragment
  | .text value => .ofBytes value.toUTF8.toList
  | .symbol value => .literal value
  | .empty => .empty
  | .concat [] => .empty
  | .concat (first :: rest) => concatOnto first.build rest
  | .union first rest => unionOnto first.build rest
  | .loop body => body.build.loop

/-- `acc` followed by the fragments of `rest`, combined from the left. -/
def concatOnto (acc : Fragment) : List Description → Fragment
  | [] => acc
  | next :: rest => concatOnto (acc.concat next.build) rest

/-- The sum of `acc` and the fragments of `rest`, combined from the left. -/
def unionOnto (acc : Fragment) : List Description → Fragment
  | [] => acc
  | next :: rest => unionOnto (acc.union next.build) rest

end

/-- The operand of a description: texts and symbols stay what they are. -/
def toOperand : Description → Operand
  | .text value => .ofString value
  | .symbol value => .symbol value
  | description => .fragment description.build

end Description

/-! ## From JSON -/

def Operand.ofJson (value : Json) : Except BuildError Operand :=
  (Description.ofJson value).map (·.toOperand)

/-- The fragment that a value describes. -/
def Fragment.ofJson (value : Json) : Except BuildError Fragment :=
  (Description.ofJson value).map (·.build)

def Fragment.ofText (text : String) : Except BuildError Fragment :=
  match Json.parse text with
  | .ok value => Fragment.ofJson value
  | .error fault => .error (.unreadable fault)

end FragmentAlgebra
