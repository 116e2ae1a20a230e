/-!
# JSON values in print

Values are printed over several lines, two blanks for each level of depth. Only quotes, backslashes
and control characters are escaped.
-/

namespace XsdCatalog.Json

inductive Value
  | null
  | text (s : String)
  | array (items : List Value)
  /-- Fields are printed in the order in which they stand. -/
  | object (fields : List (String × Value))

namespace Value

def hexDigit (n : Nat) : Char :=
  Char.ofNat (if n < 10 then '0'.toNat + n else 'a'.toNat + (n - 10))

def escape (c : Char) : List Char :=
  if c = '"' then ['\\', '"']
  else if c = '\\' then ['\\', '\\']
  else if c = '\n' then ['\\', 'n']
  else if c = '\r' then ['\\', 'r']
  else if c = '\t' then ['\\', 't']
  else if c.toNat = 8 then ['\\', 'b']
  else if c.toNat = 12 then ['\\', 'f']
  else if c.toNat < 32 then
    ['\\', 'u', '0', '0', hexDigit (c.toNat / 16), hexDigit (c.toNat % 16)]
  else [c]

def quote (s : String) : String :=
  "\"" ++ String.ofList (s.toList.flatMap escape) ++ "\""

/-- A new line at a depth. -/
def newline (depth : Nat) : String :=
  "\n" ++ String.ofList (List.replicate (2 * depth) ' ')

mutual

/-- The text of a value that stands at a depth. -/
def print (depth : Nat) : Value → String
  | null => "null"
  | text s => quote s
  | array [] => "[]"
  | array (item :: items) =>
    "[" ++ newline (depth + 1) ++ print (depth + 1) item ++ printItems (depth + 1) items
      ++ newline depth ++ "]"
  | object [] => "\x7b\x7d"
  | object ((name, value) :: fields) =>
    "\x7b" ++ newline (depth + 1) ++ quote name ++ ": " ++ print (depth + 1) value
      ++ printFields (depth + 1) fields ++ newline depth ++ "\x7d"

/-- The items behind the first one. -/
def printItems (depth : Nat) : List Value → String
  | [] => ""
  | item :: items => "," ++ newline depth ++ print depth item ++ printItems depth items

/-- The fields behind the first one. -/
def printFields (depth : Nat) : List (String × Value) → String
  | [] => ""
  | (name, value) :: fields =>
    "," ++ newline depth ++ quote name ++ ": " ++ print depth value ++ printFields depth fields

end

def ofOption : Option String → Value
  | some s => text s
  | none => null

def texts (ss : List String) : Value :=
  array (ss.map text)

def pretty (v : Value) : String :=
  v.print 0

end Value

end XsdCatalog.Json
