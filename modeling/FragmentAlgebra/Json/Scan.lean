import FragmentAlgebra.Hexadecimal
import FragmentAlgebra.Json.Basic

/-! # Scanning JSON text

Readers of the parts of JSON text, each from left to right, so that the first fault wins: words,
strings, numerals, and the separators of arrays and objects. A reader takes the characters that are
left and gives what it read with the characters behind it.

* `readString`, `readNumber`: a string behind its opening quote, and a number.
* `nextItem`, `nextKey`: the step from one item or member to the next.
* `skipValue`: pass over a value of any depth, checking its grammar alone.
-/

namespace FragmentAlgebra

namespace Json

/-- A reader of the front of a text. -/
abbrev Reader (α : Type) := List Char → Except Fault (α × List Char)

/-! ## Blanks and words -/

/-- The four characters that may stand between tokens. -/
def isBlank (c : Char) : Bool := c = ' ' || c = '\t' || c = '\n' || c = '\r'

def skipBlanks (s : List Char) : List Char := s.dropWhile isBlank

def skipWord : List Char → List Char → Except Fault (List Char)
  | [], s => .ok s
  | _ :: _, [] => .error .endOfText
  | c :: word, d :: s => if c = d then skipWord word s else .error .malformed

/-- Accept a text of which only blanks are left. -/
def finish (s : List Char) : Except Fault Unit :=
  match skipBlanks s with
  | [] => .ok ()
  | _ :: _ => .error .malformed

/-! ## Strings -/

def utf8Length (s : List Char) : Nat := s.foldl (fun length c => length + c.utf8Size) 0

/-- Four hexadecimal digits. The next four bytes are taken whatever they are, so a text with fewer
left has ended too early. -/
def readQuad : Reader Nat
  | a :: b :: c :: d :: s =>
    match Hexadecimal.digit? a, Hexadecimal.digit? b, Hexadecimal.digit? c,
      Hexadecimal.digit? d with
    | some a, some b, some c, some d => .ok (((a * 16 + b) * 16 + c) * 16 + d, s)
    | _, _, _, _ => .error .malformed
  | s => .error (if utf8Length s < 4 then .endOfText else .malformed)

def isHighSurrogate (n : Nat) : Bool := 0xD800 ≤ n && n < 0xDC00

def isLowSurrogate (n : Nat) : Bool := 0xDC00 ≤ n && n < 0xE000

/-- The character behind `\u`. A high surrogate is joined with the low one that has to follow. -/
def readUnicode : Reader Char := fun s => do
  let (n, s) ← readQuad s
  if isLowSurrogate n then .error .malformed
  else if isHighSurrogate n then
    let s ← skipWord ['\\', 'u'] s
    let (low, s) ← readQuad s
    if isLowSurrogate low then
      .ok (Char.ofNat (0x10000 + (n - 0xD800) * 0x400 + (low - 0xDC00)), s)
    else .error .malformed
  else .ok (Char.ofNat n, s)

/-- What an escape of one letter stands for. -/
def simpleEscape? : Char → Option Char
  | '"' => some '"'
  | '\\' => some '\\'
  | '/' => some '/'
  | 'b' => some '\x08'
  | 'f' => some '\x0c'
  | 'n' => some '\n'
  | 'r' => some '\r'
  | 't' => some '\t'
  | _ => none

/-- The character behind a backslash. -/
def readEscape : Reader Char
  | [] => .error .endOfText
  | 'u' :: s => readUnicode s
  | c :: s =>
    match simpleEscape? c with
    | some escaped => .ok (escaped, s)
    | none => .error .malformed

/-- The rest of a string, up to and with its closing quote; `front` holds the characters read so
far, the last one first. Every round takes a character, so `fuel` beyond the length suffices. -/
def readStringFrom : Nat → List Char → Reader (List Char)
  | 0, _, _ => .error .endOfText
  | _ + 1, _, [] => .error .endOfText
  | fuel + 1, front, c :: s =>
    if c = '"' then .ok (front.reverse, s)
    else if c = '\\' then
      match readEscape s with
      | .ok (escaped, s) => readStringFrom fuel (escaped :: front) s
      | .error fault => .error fault
    else if c < ' ' then .error .malformed
    else readStringFrom fuel (c :: front) s

def readString : Reader String := fun s => do
  let (chars, s) ← readStringFrom (s.length + 1) [] s
  .ok (String.ofList chars, s)

def skipStringFrom : Nat → List Char → Except Fault (List Char)
  | 0, _ => .error .endOfText
  | _ + 1, [] => .error .endOfText
  | fuel + 1, c :: s =>
    if c = '"' then .ok s
    else if c = '\\' then
      match s with
      | [] => .error .endOfText
      | 'u' :: s =>
        match readQuad s with
        | .ok (_, s) => skipStringFrom fuel s
        | .error fault => .error fault
      | c :: s => if (simpleEscape? c).isSome then skipStringFrom fuel s else .error .malformed
    else if c < ' ' then .error .malformed
    else skipStringFrom fuel s

def skipString (s : List Char) : Except Fault (List Char) := skipStringFrom (s.length + 1) s

/-! ## Numbers -/

/-- A number as written: sign, all digits as one integer, and the power of ten they count. -/
structure Numeral where
  negative : Bool
  digits : Nat
  exponent : Int
  plain : Bool
deriving DecidableEq

/-- The digits in front, of which there must be one. -/
def readDigits : Reader (List Char)
  | [] => .error .endOfText
  | s =>
    match s.takeWhile Char.isDigit with
    | [] => .error .malformed
    | digits => .ok (digits, s.dropWhile Char.isDigit)

/-- The integer part; nothing but a lone zero starts with a zero. -/
def readWhole : Reader (List Char) := fun s => do
  let (digits, s) ← readDigits s
  match digits with
  | '0' :: _ :: _ => .error .malformed
  | _ => .ok (digits, s)

/-- The digits behind a point, if there is a point. -/
def readFraction : Reader (Option (List Char))
  | '.' :: s => do
    let (digits, s) ← readDigits s
    .ok (some digits, s)
  | s => .ok (none, s)

/-- The exponent, if there is one. -/
def readExponent : Reader (Option Int)
  | c :: s =>
    if c = 'e' || c = 'E' then do
      let (negative, s) := match s with
        | '-' :: s => (true, s)
        | '+' :: s => (false, s)
        | s => (false, s)
      let (digits, s) ← readDigits s
      let n : Int := Nat.ofDigitChars 10 digits 0
      .ok (some (if negative then -n else n), s)
    else .ok (none, c :: s)
  | [] => .ok (none, [])

def readNumeral : Reader Numeral := fun s => do
  let (negative, s) := match s with
    | '-' :: s => (true, s)
    | s => (false, s)
  let (whole, s) ← readWhole s
  let (fraction, s) ← readFraction s
  let (exponent, s) ← readExponent s
  let places := fraction.getD []
  let digits := Nat.ofDigitChars 10 (whole ++ places) 0
  .ok (⟨negative, digits, exponent.getD 0 - places.length,
    fraction.isNone && exponent.isNone⟩, s)

/-- The number that a numeral stands for; doubles have to be finite. -/
def Numeral.toNumber (n : Numeral) : Except Fault Number :=
  if n.plain && !n.negative && n.digits < 2 ^ 64 then .ok (.unsigned n.digits)
  else if n.plain && n.negative && 0 < n.digits && n.digits ≤ 2 ^ 63 then .ok (.negative n.digits)
  else
    let x := Binary64.ofDecimal n.negative n.digits n.exponent
    if x.isFinite then .ok (.float x) else .error .malformed

/-- A number, unsigned, negative or a double. -/
def readNumber : Reader Number := fun s => do
  let (numeral, s) ← readNumeral s
  let number ← numeral.toNumber
  .ok (number, s)

/-! ## Separators -/

/-- The start of the next item of an array, or `none` in front of the closing bracket. Between two
items stands a comma. -/
def nextItem (first : Bool) (s : List Char) : Except Fault (Option (List Char)) :=
  match skipBlanks s with
  | [] => .error .endOfText
  | ']' :: _ => .ok none
  | c :: s =>
    if first then .ok (some (c :: s))
    else if c = ',' then
      match skipBlanks s with
      | [] => .error .endOfText
      | ']' :: _ => .error .malformed
      | s => .ok (some s)
    else .error .malformed

/-- The text behind the opening quote of the next key of an object, or `none` in front of the
closing bracket. Between two members stands a comma. -/
def nextKey (first : Bool) (s : List Char) : Except Fault (Option (List Char)) :=
  match skipBlanks s with
  | [] => .error .endOfText
  | '}' :: _ => .ok none
  | c :: s =>
    if first then if c = '"' then .ok (some s) else .error .malformed
    else if c = ',' then
      match skipBlanks s with
      | [] => .error .endOfText
      | '"' :: s => .ok (some s)
      | _ => .error .malformed
    else .error .malformed

def skipMark (c : Char) (s : List Char) : Except Fault (List Char) :=
  skipWord [c] (skipBlanks s)

/-- The items of an array, behind its opening bracket. -/
def readItemsFrom {α : Type} (item : Reader α) : Nat → Bool → List α → Reader (List α)
  | 0, _, _, _ => .error .endOfText
  | fuel + 1, first, front, s =>
    match nextItem first s with
    | .error fault => .error fault
    | .ok none =>
      match skipMark ']' s with
      | .ok s => .ok (front.reverse, s)
      | .error fault => .error fault
    | .ok (some s) =>
      match item s with
      | .ok (a, s) => readItemsFrom item fuel false (a :: front) s
      | .error fault => .error fault

/-- The items of an array behind its opening bracket. -/
def readItems {α : Type} (item : Reader α) : Reader (List α) := fun s =>
  readItemsFrom item (s.length + 1) true [] s

/-- The members of an object, behind its opening bracket, folded into `state`. The step for a member
starts behind its key. -/
def foldMembersFrom {σ : Type} (step : σ → String → Reader σ) : Nat → Bool → σ → Reader σ
  | 0, _, _, _ => .error .endOfText
  | fuel + 1, first, state, s =>
    match nextKey first s with
    | .error fault => .error fault
    | .ok none =>
      match skipMark '}' s with
      | .ok s => .ok (state, s)
      | .error fault => .error fault
    | .ok (some s) =>
      match readString s with
      | .error fault => .error fault
      | .ok (key, s) =>
        match step state key s with
        | .ok (state, s) => foldMembersFrom step fuel false state s
        | .error fault => .error fault

/-- The members of an object behind its opening brace, each a step on a state. -/
def foldMembers {σ : Type} (step : σ → String → Reader σ) (state : σ) : Reader σ := fun s =>
  foldMembersFrom step (s.length + 1) true state s

/-! ## Passing over values -/

/-- An open array or object. -/
inductive Bracket
  | square | curly
deriving DecidableEq

def Bracket.closing : Bracket → Char
  | .square => ']'
  | .curly => '}'

/-- Pass over a value without brackets, behind the blanks in front of it. Of a number only the
grammar counts, and a number that breaks off is malformed. -/
def skipScalar : List Char → Except Fault (List Char)
  | [] => .error .endOfText
  | 'n' :: s => skipWord ['u', 'l', 'l'] s
  | 't' :: s => skipWord ['r', 'u', 'e'] s
  | 'f' :: s => skipWord ['a', 'l', 's', 'e'] s
  | '"' :: s => skipString s
  | c :: s =>
    if c = '-' || c.isDigit then
      match readNumeral (c :: s) with
      | .ok (_, s) => .ok s
      | .error _ => .error .malformed
    else .error .malformed

/-- Where a skip stands inside its open brackets. -/
inductive SkipPhase
  | value
  | opened
  | behind
deriving DecidableEq

/-- Pass over the front of an array or object, up to its first value. -/
def enterBracket (bracket : Bracket) (s : List Char) : Except Fault (List Char) :=
  match bracket with
  | .square => .ok s
  | .curly => do
    let s ← skipMark '"' s
    let s ← skipString s
    skipMark ':' s

/-- Pass over values until the brackets of `stack` are closed. At most two rounds go by without
taking a character. -/
def skipFrom : Nat → SkipPhase → List Bracket → List Char → Except Fault (List Char)
  | 0, _, _, _ => .error .endOfText
  | _ + 1, .behind, [], s => .ok s
  | _ + 1, .opened, [], s => .ok s
  | fuel + 1, .value, stack, s =>
    match skipBlanks s with
    | '[' :: s => skipFrom fuel .opened (.square :: stack) s
    | '{' :: s => skipFrom fuel .opened (.curly :: stack) s
    | s =>
      match skipScalar s with
      | .ok s => skipFrom fuel .behind stack s
      | .error fault => .error fault
  | fuel + 1, phase, bracket :: stack, s =>
    match skipBlanks s with
    | [] => .error .endOfText
    | c :: s =>
      if c = bracket.closing then skipFrom fuel .behind stack s
      else if phase = .behind && c ≠ ',' then .error .malformed
      else
        match enterBracket bracket (if phase = .behind then s else c :: s) with
        | .ok s => skipFrom fuel .value (bracket :: stack) s
        | .error fault => .error fault

def skipValue (s : List Char) : Except Fault (List Char) :=
  skipFrom (2 * s.length + 2) .value [] s

end Json

end FragmentAlgebra
