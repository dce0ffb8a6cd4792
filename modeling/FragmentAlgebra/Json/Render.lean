import FragmentAlgebra.Binary64.Shortest
import FragmentAlgebra.Json.Basic

/-! # Writing JSON values

`Json.render` writes a value without blanks. Doubles take the fewest digits that read back, the even
ones of two equally near choices; those with a leading digit from `10 ^ -5` to `10 ^ 15` are written
without an exponent.
-/

namespace FragmentAlgebra

namespace Json

def numberLayout : DecimalLayout :=
  ⟨.even, fun exponent => -5 ≤ exponent && exponent ≤ 15, true⟩

/-- A character inside a text. -/
def escapeChar (c : Char) : List Char :=
  if c = '"' then ['\\', '"']
  else if c = '\\' then ['\\', '\\']
  else if ' ' ≤ c then [c]
  else if c = '\x08' then ['\\', 'b']
  else if c = '\x0c' then ['\\', 'f']
  else if c = '\n' then ['\\', 'n']
  else if c = '\r' then ['\\', 'r']
  else if c = '\t' then ['\\', 't']
  else ['\\', 'u', '0', '0', Nat.digitChar (c.toNat / 16), Nat.digitChar (c.toNat % 16)]

def stringChars (text : String) : List Char := '"' :: text.toList.flatMap escapeChar ++ ['"']

/-- A number. What is not finite has no numeral and is written as `null`. -/
def Number.chars : Number → List Char
  | .unsigned n => Nat.toDigits 10 n
  | .negative n => '-' :: Nat.toDigits 10 n
  | .float x => if x.isFinite then x.render numberLayout else ['n', 'u', 'l', 'l']

def joinCommas : List (List Char) → List Char
  | [] => []
  | [text] => text
  | text :: rest => text ++ ',' :: joinCommas rest

mutual

/-- A value without white space. -/
def chars : Json → List Char
  | .null => ['n', 'u', 'l', 'l']
  | .bool true => ['t', 'r', 'u', 'e']
  | .bool false => ['f', 'a', 'l', 's', 'e']
  | .number n => n.chars
  | .string text => stringChars text
  | .array items => '[' :: joinCommas (itemChars items) ++ [']']
  | .object members => '{' :: joinCommas (memberChars members) ++ ['}']

def itemChars : List Json → List (List Char)
  | [] => []
  | item :: items => item.chars :: itemChars items

def memberChars : List (String × Json) → List (List Char)
  | [] => []
  | (key, value) :: members => (stringChars key ++ ':' :: value.chars) :: memberChars members

end

def render (value : Json) : String := String.ofList value.chars

end Json

end FragmentAlgebra
