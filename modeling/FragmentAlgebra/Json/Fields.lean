import FragmentAlgebra.Json.Scan

/-! # Reading fields of a known shape

Readers for a value whose kind is fixed in advance. A value of another kind is a mismatch, but its
own token is read first, so a fault in the token wins.
-/

namespace FragmentAlgebra

namespace Json

/-- The fault of a value of the wrong kind, behind the blanks in front of it. -/
def wrongKind : List Char → Fault
  | [] => .endOfText
  | c :: s =>
    if c = '[' || c = '{' then .mismatch
    else
      let token := if c = '"' then (readString s).map fun _ => ()
        else if c = '-' || c.isDigit then (readNumber (c :: s)).map fun _ => ()
        else (skipScalar (c :: s)).map fun _ => ()
      match token with
      | .ok _ => .mismatch
      | .error fault => fault

/-- A number, if it is accepted. -/
def readNumberField {α : Type} (accept : Number → Option α) : Reader α := fun s =>
  match skipBlanks s with
  | [] => .error .endOfText
  | c :: s =>
    if c = '-' || c.isDigit then do
      let (n, s) ← readNumber (c :: s)
      match accept n with
      | some a => .ok (a, s)
      | none => .error .mismatch
    else .error (wrongKind (c :: s))

/-- A number without a fraction or a sign, below a bound. -/
def unsignedBelow? (bound : Nat) : Number → Option Nat
  | .unsigned n => if n < bound then some n else none
  | _ => none

/-- A natural number below a bound. -/
def readUnsigned (bound : Nat) : Reader Nat := readNumberField (unsignedBelow? bound)

def readDouble : Reader Binary64 := readNumberField fun n => some n.toBinary64

def readOptional {α : Type} (value : Reader α) : Reader (Option α) := fun s =>
  match skipBlanks s with
  | 'n' :: s => do
    let s ← skipWord ['u', 'l', 'l'] s
    .ok (none, s)
  | s => do
    let (a, s) ← value s
    .ok (some a, s)

def readBool : Reader Bool := fun s =>
  match skipBlanks s with
  | 't' :: s => do
    let s ← skipWord ['r', 'u', 'e'] s
    .ok (true, s)
  | 'f' :: s => do
    let s ← skipWord ['a', 'l', 's', 'e'] s
    .ok (false, s)
  | s => .error (wrongKind s)

/-- A text, if it is accepted. -/
def readTextField {α : Type} (accept : List Char → Option α) : Reader α := fun s =>
  match skipBlanks s with
  | '"' :: s => do
    let (text, s) ← readString s
    match accept text.toList with
    | some a => .ok (a, s)
    | none => .error .mismatch
  | s => .error (wrongKind s)

def readList {α : Type} (item : Reader α) : Reader (List α) := fun s =>
  match skipBlanks s with
  | '[' :: s => readItems item s
  | s => .error (wrongKind s)

/-- Behind the last wanted item of an array: its closing bracket, and nothing else. -/
def closeArray (s : List Char) : Except Fault (List Char) := skipMark ']' s

/-- The next item of an array that has to go on. -/
def readItem {α : Type} (first : Bool) (item : Reader α) : Reader α := fun s => do
  match ← nextItem first s with
  | some s => item s
  | none => .error .mismatch

/-- The value of a field behind its key; a field that is already known is a mismatch. -/
def readField {α : Type} (known : Option α) (value : Reader α) : Reader (Option α) := fun s =>
  match known with
  | some _ => .error .mismatch
  | none => do
    let s ← skipMark ':' s
    let (a, s) ← value s
    .ok (some a, s)

/-- Pass over a field that is not known. -/
def skipField {σ : Type} (state : σ) : Reader σ := fun s => do
  let s ← skipMark ':' s
  let s ← skipValue s
  .ok (state, s)

/-- Read a whole text. -/
def parseAs {α : Type} (value : Reader α) (text : String) : Except Fault α := do
  let (a, s) ← value text.toList
  finish s
  .ok a

end Json

end FragmentAlgebra
