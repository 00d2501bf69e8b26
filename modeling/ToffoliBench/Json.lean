import ToffoliBench.Text.Integer

namespace ToffoliBench

-- A number is kept as it is spelled and an object keeps the order of its fields.
inductive Json where
  | null
  | bool (b : Bool)
  | number (spelling : String)
  | string (s : String)
  | array (items : List Json)
  | object (fields : List (String × Json))
deriving Repr, Inhabited

namespace Json

def ofNat (n : Nat) : Json := .number (String.ofList (Text.ofNat n))
def ofInt (n : Int) : Json := .number (String.ofList (Text.ofInt n))

def ofOption (encode : α → Json) : Option α → Json
  | some a => encode a
  | none => .null

def ofList (encode : α → Json) (xs : List α) : Json := .array (xs.map encode)

def field? (name : String) : Json → Option Json
  | .object fields => fields.lookup name
  | _ => none

def hexDigit (n : Nat) : Char := if n < 10 then Char.ofNat (48 + n) else Char.ofNat (87 + n)

def escape (c : Char) : List Char :=
  if c = '"' then ['\\', '"']
  else if c = '\\' then ['\\', '\\']
  else if c = '\n' then ['\\', 'n']
  else if c = '\r' then ['\\', 'r']
  else if c = '\t' then ['\\', 't']
  else if c.toNat = 8 then ['\\', 'b']
  else if c.toNat = 12 then ['\\', 'f']
  else if c.toNat < 32 then ['\\', 'u', '0', '0', hexDigit (c.toNat / 16), hexDigit (c.toNat % 16)]
  else [c]

def quoted (s : String) : String := String.ofList ('"' :: s.toList.flatMap escape ++ ['"'])

def lineBreak (depth : Nat) : String := "\n" ++ String.ofList (List.replicate (2 * depth) ' ')

mutual

def indented (depth : Nat) : Json → String
  | .null => "null"
  | .bool b => if b then "true" else "false"
  | .number spelling => spelling
  | .string s => quoted s
  | .array [] => "[]"
  | .array items => "[" ++ lineBreak (depth + 1) ++ indentedItems (depth + 1) items ++ lineBreak depth ++ "]"
  | .object [] => "\x7b\x7d"
  | .object fields =>
    "\x7b" ++ lineBreak (depth + 1) ++ indentedFields (depth + 1) fields ++ lineBreak depth ++ "\x7d"

def indentedItems (depth : Nat) : List Json → String
  | [] => ""
  | [item] => indented depth item
  | item :: next :: rest => indented depth item ++ "," ++ lineBreak depth ++ indentedItems depth (next :: rest)

def indentedFields (depth : Nat) : List (String × Json) → String
  | [] => ""
  | [(name, value)] => quoted name ++ ": " ++ indented depth value
  | (name, value) :: next :: rest =>
    quoted name ++ ": " ++ indented depth value ++ "," ++ lineBreak depth ++ indentedFields depth (next :: rest)

end

mutual

def compact : Json → String
  | .null => "null"
  | .bool b => if b then "true" else "false"
  | .number spelling => spelling
  | .string s => quoted s
  | .array items => "[" ++ compactItems items ++ "]"
  | .object fields => "\x7b" ++ compactFields fields ++ "\x7d"

def compactItems : List Json → String
  | [] => ""
  | [item] => compact item
  | item :: next :: rest => compact item ++ "," ++ compactItems (next :: rest)

def compactFields : List (String × Json) → String
  | [] => ""
  | [(name, value)] => quoted name ++ ":" ++ compact value
  | (name, value) :: next :: rest =>
    quoted name ++ ":" ++ compact value ++ "," ++ compactFields (next :: rest)

end

end Json

end ToffoliBench
