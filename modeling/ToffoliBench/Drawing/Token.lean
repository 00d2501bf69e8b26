import ToffoliBench.Drawing.Error

namespace ToffoliBench.Drawing

inductive Token where
  | graph
  | id (n : Nat)
  | string (s : String)
  | identifier (s : String)
  | wire
  | equals
  | comma
  | semicolon
  | openBracket
  | closeBracket
  | openBrace
  | closeBrace
deriving DecidableEq, Repr, Inhabited

namespace Token

def text : Token → String
  | .graph => "graph"
  | .id n => String.ofList (Text.ofNat n)
  | .string s => "\"" ++ s ++ "\""
  | .identifier s => s
  | .wire => "--"
  | .equals => "="
  | .comma => ","
  | .semicolon => ";"
  | .openBracket => "["
  | .closeBracket => "]"
  | .openBrace => "\x7b"
  | .closeBrace => "\x7d"

def isSpace (c : Char) : Bool := c == ' ' || c == '\t' || c == '\r' || c == '\n'

def startsWord (c : Char) : Bool := ('a' ≤ c && c ≤ 'z') || ('A' ≤ c && c ≤ 'Z') || c == '_'

def inWord (c : Char) : Bool := startsWord c || c.isDigit

def runLength (p : Char → Bool) (cs : List Char) : Nat := (cs.takeWhile p).length

-- A token is the longest piece of text that can start where it starts.
def extent (c : Char) (rest : List Char) : Nat :=
  if isSpace c then runLength isSpace rest
  else if c.isDigit then runLength Char.isDigit rest
  else if startsWord c then runLength inWord rest
  else if c = '"' then
    -- with the closing quote, if there is one
    min (runLength (· != '"') rest + 1) rest.length
  else if c = '/' then
    if rest.head? = some '/' then runLength (· != '\n') rest else 0
  else if c = '-' then
    if rest.head? = some '-' then 1 else 0
  else 0

inductive Piece where
  | skipped
  | token (t : Token)
  | invalid
deriving DecidableEq, Repr

def punctuation : Char → Piece
  | '=' => .token .equals
  | ',' => .token .comma
  | ';' => .token .semicolon
  | '[' => .token .openBracket
  | ']' => .token .closeBracket
  | '\x7b' => .token .openBrace
  | '\x7d' => .token .closeBrace
  | _ => .invalid

-- What the piece `c :: rest` is, for a `rest` of the length `extent` gives.
def piece (c : Char) (rest : List Char) : Piece :=
  if isSpace c then .skipped
  else if c.isDigit then
    match Text.natUpTo? Range.maxWord (c :: rest) with
    | some n => .token (.id n)
    | none => .invalid
  else if startsWord c then
    if c :: rest = "graph".toList then .token .graph
    else .token (.identifier (String.ofList (c :: rest)))
  else if c = '"' then
    if rest.getLast? = some '"' then .token (.string (String.ofList rest.dropLast)) else .invalid
  else if c = '/' then
    if rest = [] then .invalid else .skipped
  else if c = '-' then
    if rest = [] then .invalid else .token .wire
  else punctuation c

def byteLength (cs : List Char) : Nat := cs.foldl (fun n c => n + c.utf8Size) 0

def scan (offset : Nat) (cs : List Char) : Except DrawingError (List Token) :=
  match cs with
  | [] => .ok []
  | c :: rest =>
    let taken := rest.take (extent c rest)
    let next := offset + byteLength (c :: taken)
    match piece c taken with
    | .skipped => scan next (rest.drop (extent c rest))
    | .token t => (scan next (rest.drop (extent c rest))).map (t :: ·)
    | .invalid => .error (.lexer offset (String.ofList (c :: taken)))
termination_by cs.length
decreasing_by all_goals simp only [List.length_drop, List.length_cons]; omega

end Token

def tokens (source : List Char) : Except DrawingError (List Token) := Token.scan 0 source

end ToffoliBench.Drawing
