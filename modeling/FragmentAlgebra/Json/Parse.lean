import FragmentAlgebra.Json.Scan

/-! # Reading JSON values

`Json.parse` reads a whole text. At most `maxDepth` brackets may be open at once; one more is
malformed as soon as it is seen. A key that comes twice keeps its last value.
-/

namespace FragmentAlgebra

namespace Json

/-- The number of brackets that may be open at once. -/
def maxDepth : Nat := 127

def readMember (value : Reader Json) (members : List (String × Json)) (key : String) :
    Reader (List (String × Json)) := fun s => do
  let s ← skipMark ':' s
  let (v, s) ← value s
  .ok (setMember key v members, s)

/-- A value in which at most `depth` brackets are open at once. -/
def readValue (depth : Nat) : Reader Json := fun s =>
  match skipBlanks s with
  | [] => .error .endOfText
  | 'n' :: s => do
    let s ← skipWord ['u', 'l', 'l'] s
    .ok (.null, s)
  | 't' :: s => do
    let s ← skipWord ['r', 'u', 'e'] s
    .ok (.bool true, s)
  | 'f' :: s => do
    let s ← skipWord ['a', 'l', 's', 'e'] s
    .ok (.bool false, s)
  | '"' :: s => do
    let (text, s) ← readString s
    .ok (.string text, s)
  | '[' :: s =>
    match depth with
    | 0 => .error .malformed
    | depth + 1 => do
      let (items, s) ← readItems (readValue depth) s
      .ok (.array items, s)
  | '{' :: s =>
    match depth with
    | 0 => .error .malformed
    | depth + 1 => do
      let (members, s) ← foldMembers (readMember (readValue depth)) [] s
      .ok (.object members, s)
  | c :: s =>
    if c = '-' || c.isDigit then do
      let (n, s) ← readNumber (c :: s)
      .ok (.number n, s)
    else .error .malformed

/-- Read a whole text as one value, with at most `depth` brackets open at once. -/
def parseWithin (depth : Nat) (text : String) : Except Fault Json := do
  let (value, s) ← readValue depth text.toList
  finish s
  .ok value

def parse (text : String) : Except Fault Json := parseWithin maxDepth text

end Json

end FragmentAlgebra
