import ToffoliBench.Shell.Command

namespace ToffoliBench.Shell

abbrev Reader := StateT Bytes Option

def fail : Reader α := fun _ => none

def backquote : Char := Char.ofNat 96

def isBlank (c : Char) : Bool := c == ' ' || c == '\t'

def isMark (c : Char) : Bool := isBlank c || "\n;&|<>()".toList.contains c

def isNameStart (c : Char) : Bool := c.isAlpha || c == '_'

def isNameChar (c : Char) : Bool := isNameStart c || c.isDigit

-- The text up to the bracket that closes the one before it; quoted brackets do not count.
def bracketed (opening closing : Char) (depth : Nat) (acc : Bytes) : Nat → Bytes → Option (Bytes × Bytes)
  | 0, _ => none
  | _, [] => none
  | fuel + 1, '\\' :: c :: rest => bracketed opening closing depth (c :: '\\' :: acc) fuel rest
  | fuel + 1, '\'' :: rest =>
    let quoted := rest.takeWhile (· != '\'')
    bracketed opening closing depth ('\'' :: quoted.reverse ++ '\'' :: acc) fuel (rest.drop (quoted.length + 1))
  | fuel + 1, c :: rest =>
    if c = closing then
      if depth = 0 then some (acc.reverse, rest) else bracketed opening closing (depth - 1) (c :: acc) fuel rest
    else bracketed opening closing (if c = opening then depth + 1 else depth) (c :: acc) fuel rest

-- What a name in braces stands for: its value, or another text where it has none.
def braced (quoted : Bool) (inside : Bytes) : Option Piece :=
  let name := if inside.head?.any isNameStart then inside.takeWhile isNameChar else inside.take 1
  match inside.drop name.length with
  | [] => some (.parameter quoted name none)
  | ':' :: '-' :: other => some (.parameter quoted name (some ⟨true, unquoted other⟩))
  | '-' :: other => some (.parameter quoted name (some ⟨false, unquoted other⟩))
  | _ => none
where
  unquoted (cs : Bytes) : Bytes := cs.filter (· != '"')

def dollar (quoted : Bool) (cs : Bytes) : Option (Piece × Bytes) :=
  match cs with
  | '(' :: rest => do
    let (inside, rest) ← bracketed '(' ')' 0 [] (rest.length + 1) rest
    if inside.head? = some '(' ∧ inside.getLast? = some ')' then
      pure (.arithmetic quoted (inside.drop 1).dropLast, rest)
    else pure (.output quoted inside, rest)
  | '\x7b' :: rest => do
    let (inside, rest) ← bracketed '\x7b' '\x7d' 0 [] (rest.length + 1) rest
    let piece ← braced quoted inside
    pure (piece, rest)
  | c :: rest =>
    if isNameStart c then
      some (.parameter quoted (cs.takeWhile isNameChar) none, cs.dropWhile isNameChar)
    else if c.isDigit ∨ "@*#?$!".toList.contains c then some (.parameter quoted [c] none, rest)
    else some (.text quoted ['$'], cs)
  | [] => some (.text quoted ['$'], [])

def backquoted (quoted : Bool) (cs : Bytes) : Option (Piece × Bytes) :=
  let inside := cs.takeWhile (· != backquote)
  if inside.length < cs.length then some (.output quoted inside, cs.drop (inside.length + 1)) else none

def doubleQuoted (acc : Word) : Nat → Bytes → Option (Word × Bytes)
  | 0, _ => none
  | _, [] => none
  | _, '"' :: rest => some (acc, rest)
  | fuel + 1, '\\' :: c :: rest =>
    if c = '\n' then doubleQuoted acc fuel rest
    else if c = '$' ∨ c = '"' ∨ c = '\\' ∨ c = backquote then doubleQuoted (acc ++ [.text true [c]]) fuel rest
    else doubleQuoted (acc ++ [.text true ['\\', c]]) fuel rest
  | fuel + 1, '$' :: rest => do
    let (piece, rest) ← dollar true rest
    doubleQuoted (acc ++ [piece]) fuel rest
  | fuel + 1, c :: rest =>
    if c = backquote then do
      let (piece, rest) ← backquoted true rest
      doubleQuoted (acc ++ [piece]) fuel rest
    else doubleQuoted (acc ++ [.text true [c]]) fuel rest

def wordFrom (acc : Word) : Nat → Bytes → Option (Word × Bytes)
  | 0, _ => none
  | _, [] => some (acc, [])
  | fuel + 1, '\\' :: c :: rest =>
    if c = '\n' then wordFrom acc fuel rest else wordFrom (acc ++ [.text true [c]]) fuel rest
  | fuel + 1, '\'' :: rest =>
    let quoted := rest.takeWhile (· != '\'')
    if quoted.length < rest.length then
      wordFrom (acc ++ [.text true quoted]) fuel (rest.drop (quoted.length + 1))
    else none
  | fuel + 1, '"' :: rest => do
    let (inside, rest) ← doubleQuoted [.text true []] (rest.length + 1) rest
    wordFrom (acc ++ inside) fuel rest
  | fuel + 1, '$' :: rest => do
    let (piece, rest) ← dollar false rest
    wordFrom (acc ++ [piece]) fuel rest
  | fuel + 1, c :: rest =>
    if isMark c then some (acc, c :: rest)
    else if c = backquote then do
      let (piece, rest) ← backquoted false rest
      wordFrom (acc ++ [piece]) fuel rest
    else
      let plain := (c :: rest).takeWhile fun d => !(isMark d || "\\'\"$".toList.contains d || d == backquote)
      wordFrom (acc ++ [.text false plain]) fuel ((c :: rest).drop plain.length)

-- The pieces of a text that is expanded as if it stood in double quotes; quotes in it are text.
def quotedPieces (cs : Bytes) : Option Word :=
  let text := cs.flatMap fun c => if c = '"' then ['\\', '"'] else [c]
  (doubleQuoted [] (text.length + 2) (text ++ ['"'])).map (·.1)

-- Passes over blanks, joined lines and a comment.
def skipBlanks : Nat → Bytes → Bytes
  | 0, cs => cs
  | fuel + 1, cs =>
    match cs with
    | '\\' :: '\n' :: rest => skipBlanks fuel rest
    | '#' :: rest => rest.dropWhile (· != '\n')
    | c :: rest => if isBlank c then skipBlanks fuel rest else cs
    | [] => []

def blanks : Reader Unit := modify fun cs => skipBlanks cs.length cs

def skipLines : Nat → Bytes → Bytes
  | 0, cs => cs
  | fuel + 1, cs =>
    match skipBlanks cs.length cs with
    | '\n' :: rest => skipLines fuel rest
    | rest => rest

def lines : Reader Unit := modify fun cs => skipLines (cs.length + 1) cs

def word : Reader Word := do
  blanks
  let cs ← get
  match wordFrom [] (cs.length + 1) cs with
  | some (w, rest) =>
    if w = [] then fail
    else do
      set rest
      pure w
  | none => fail

-- The unquoted text ahead.
def bareAhead (cs : Bytes) : String := String.ofList (cs.takeWhile fun c => !isMark c)

def keyword (name : String) : Reader Bool := do
  blanks
  let cs ← get
  if bareAhead cs = name then do
    set (cs.drop name.length)
    pure true
  else pure false

def expect (name : String) : Reader Unit := do
  lines
  if ← keyword name then pure () else fail

def mark (text : String) : Reader Bool := do
  blanks
  let cs ← get
  if text.toList.isPrefixOf cs then do
    set (cs.drop text.length)
    pure true
  else pure false

-- The lines up to the one that reads `stop`, and what follows it.
def linesUntil (stop : Bytes) : Nat → Bytes → Bytes × Bytes
  | 0, cs => ([], cs)
  | _, [] => ([], [])
  | fuel + 1, cs =>
    let line := cs.takeWhile (· != '\n')
    let rest := cs.drop (line.length + 1)
    if line = stop then ([], rest)
    else
      let (more, rest) := linesUntil stop fuel rest
      (line ++ '\n' :: more, rest)

-- The lines after this one, as the input of a command. They are taken out of the script, and expanded
-- unless the word that ends them is quoted.
def hereLines : Reader Word := do
  let stop ← word
  let cs ← get
  let line := cs.takeWhile (· != '\n')
  let isQuoted := stop.any fun piece => match piece with
    | .text quoted _ => quoted
    | _ => false
  let name := stop.flatMap fun piece => match piece with
    | .text _ cs => cs
    | _ => []
  let (inside, rest) := linesUntil name (cs.length + 1) (cs.drop (line.length + 1))
  set (line ++ '\n' :: rest)
  if isQuoted then pure [.text true inside]
  else match quotedPieces inside with
    | some w => pure w
    | none => fail

def redirect? : Reader (Option Redirect) := do
  blanks
  let cs ← get
  let digit := (cs.take 1).filter Char.isDigit
  let stream (default : Nat) := match digit with
    | c :: _ => c.toNat - 48
    | [] => default
  let found : Option (RedirectKind × Nat × Nat) :=
    match cs.drop digit.length with
    | '>' :: '>' :: _ => some (.append, 1, 2)
    | '>' :: '&' :: _ => some (.same, 1, 2)
    | '>' :: _ => some (.replace, 1, 1)
    | '<' :: '<' :: _ => some (.here, 0, 2)
    | '<' :: _ => some (.input, 0, 1)
    | _ => none
  match found with
  | none => pure none
  | some (kind, default, length) => do
    set (cs.drop (digit.length + length))
    let target ← if kind = .here then hereLines else word
    pure (some ⟨stream default, kind, target⟩)

def redirects (acc : List Redirect) : Nat → Reader (List Redirect)
  | 0 => pure acc
  | fuel + 1 => do
    match ← redirect? with
    | some r => redirects (acc ++ [r]) fuel
    | none => pure acc

def assignment? : Word → Option (Bytes × Word)
  | .text false cs :: rest =>
    let name := cs.takeWhile isNameChar
    match cs.drop name.length with
    | '=' :: value =>
      if name.head?.any isNameStart then some (name, if value = [] then rest else .text false value :: rest)
      else none
    | _ => none
  | _ => none

def endsCommand (cs : Bytes) : Bool := cs.head?.all fun c => "\n;&|()".toList.contains c

def simple (assigned : List (Bytes × Word)) (words : List Word) (rs : List Redirect) : Nat → Reader Command
  | 0 => fail
  | fuel + 1 => do
    match ← redirect? with
    | some r => simple assigned words (rs ++ [r]) fuel
    | none => do
      if endsCommand (← get) then pure (.simple assigned words rs)
      else do
        let w ← word
        match words, assignment? w with
        | [], some a => simple (assigned ++ [a]) [] rs fuel
        | _, _ => simple assigned (words ++ [w]) rs fuel

def eachWords (words : List Word) : Nat → Reader (List Word)
  | 0 => fail
  | fuel + 1 => do
    blanks
    if endsCommand (← get) then pure words
    else do
      let w ← word
      eachWords (words ++ [w]) fuel

def patterns (ps : List Word) : Nat → Reader (List Word)
  | 0 => fail
  | fuel + 1 => do
    let p ← word
    if ← mark "|" then patterns (ps ++ [p]) fuel
    else if ← mark ")" then pure (ps ++ [p])
    else fail

def endsList (cs : Bytes) : Bool :=
  cs.isEmpty || cs.head? == some ')' || [';', ';'].isPrefixOf cs ||
    ["then", "else", "elif", "fi", "do", "done", "esac", "\x7d"].contains (bareAhead cs)

def everyArgument : List Word := [[.parameter true ['@'] none]]

mutual

def list (acc : Command) : Nat → Reader Command
  | 0 => fail
  | fuel + 1 => do
    lines
    if endsList (← get) then pure acc
    else do
      let c ← andOr fuel
      let acc := match acc with
        | .nothing => c
        | _ => .sequence acc c
      blanks
      match ← get with
      | ';' :: ';' :: _ => pure acc
      | ';' :: rest => do
        set rest
        list acc fuel
      | '&' :: rest => do
        set rest
        list acc fuel
      | '\n' :: rest => do
        set rest
        list acc fuel
      | _ => list acc fuel
termination_by structural fuel => fuel

def andOr : Nat → Reader Command
  | 0 => fail
  | fuel + 1 => do
    let first ← pipeline fuel
    andOrRest first fuel
termination_by structural fuel => fuel

def andOrRest (first : Command) : Nat → Reader Command
  | 0 => fail
  | fuel + 1 => do
    if ← mark "&&" then do
      lines
      let second ← pipeline fuel
      andOrRest (.both first second) fuel
    else if ← mark "||" then do
      lines
      let second ← pipeline fuel
      andOrRest (.either first second) fuel
    else pure first
termination_by structural fuel => fuel

def pipeline : Nat → Reader Command
  | 0 => fail
  | fuel + 1 => do
    let inverted ← keyword "!"
    let first ← command fuel
    let c ← pipelineRest first fuel
    pure (if inverted then .negated c else c)
termination_by structural fuel => fuel

def pipelineRest (first : Command) : Nat → Reader Command
  | 0 => fail
  | fuel + 1 => do
    blanks
    if ['|', '|'].isPrefixOf (← get) then pure first
    else if ← mark "|" then do
      lines
      let second ← command fuel
      pipelineRest (.pipe first second) fuel
    else pure first
termination_by structural fuel => fuel

def command : Nat → Reader Command
  | 0 => fail
  | fuel + 1 => do
    let c ←
      if ← keyword "if" then conditional fuel
      else if ← keyword "while" then loopBody false fuel
      else if ← keyword "until" then loopBody true fuel
      else if ← keyword "for" then forBody fuel
      else if ← keyword "case" then do
        let subject ← word
        expect "in"
        arms subject fuel
      else if ← keyword "\x7b" then do
        let body ← list .nothing fuel
        expect "\x7d"
        pure body
      else if ← mark "(" then do
        let body ← list .nothing fuel
        lines
        if ← mark ")" then pure (.apart body) else fail
      else do
        blanks
        let cs ← get
        if endsCommand cs then fail else simple [] [] [] (cs.length + 1)
    let rs ← redirects [] fuel
    pure (if rs = [] then c else .redirected c rs)
termination_by structural fuel => fuel

def conditional : Nat → Reader Command
  | 0 => fail
  | fuel + 1 => do
    let condition ← list .nothing fuel
    expect "then"
    let yes ← list .nothing fuel
    lines
    if ← keyword "elif" then do
      let no ← conditional fuel
      pure (.choice condition yes no)
    else if ← keyword "else" then do
      let no ← list .nothing fuel
      expect "fi"
      pure (.choice condition yes no)
    else do
      expect "fi"
      pure (.choice condition yes .nothing)
termination_by structural fuel => fuel

def doBody : Nat → Reader Command
  | 0 => fail
  | fuel + 1 => do
    expect "do"
    let body ← list .nothing fuel
    expect "done"
    pure body
termination_by structural fuel => fuel

def loopBody (untilTrue : Bool) : Nat → Reader Command
  | 0 => fail
  | fuel + 1 => do
    let condition ← list .nothing fuel
    let body ← doBody fuel
    pure (.loop untilTrue condition body)
termination_by structural fuel => fuel

def forBody : Nat → Reader Command
  | 0 => fail
  | fuel + 1 => do
    blanks
    let name := (← get).takeWhile isNameChar
    modify fun cs => cs.drop name.length
    lines
    let words ←
      if ← keyword "in" then do
        let cs ← get
        eachWords [] (cs.length + 1)
      else pure everyArgument
    let _ ← mark ";"
    let body ← doBody fuel
    pure (.each name words body)
termination_by structural fuel => fuel

def arms (subject : Word) : Nat → Reader Command
  | 0 => fail
  | fuel + 1 => do
    lines
    if ← keyword "esac" then pure .nothing
    else do
      let _ ← mark "("
      let cs ← get
      let ps ← patterns [] (cs.length + 1)
      let body ← list .nothing fuel
      lines
      let _ ← mark ";;"
      let rest ← arms subject fuel
      pure (.arm subject ps body rest)
termination_by structural fuel => fuel

end

def parse? (cs : Bytes) : Option Command := do
  let (c, rest) ← (list .nothing (20 * cs.length + 20)).run cs
  if rest = [] then some c else none

end ToffoliBench.Shell
