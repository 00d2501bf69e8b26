import ToffoliBench.Yaml.Scalar

namespace ToffoliBench.Yaml

def isNameChar (c : Char) : Bool := c.isAlphanum || c == '_' || c == '-'

def isTagChar (c : Char) : Bool := isNameChar c || ";/?:@&=+$.%!~*'()".toList.contains c

def isVerbatimChar (c : Char) : Bool := isTagChar c || ",[]".toList.contains c

def takeWhile (p : Char → Bool) : Reader (List Char) := do
  let cs := (← ahead).takeWhile p
  move cs.length
  pure cs

-- The handle at the front of `!handle!suffix`; a tag with one mark only has the handle `!`.
def handleOf : List Char → List Char
  | '!' :: rest =>
    let word := rest.takeWhile isNameChar
    if (rest.drop word.length).head? = some '!' then '!' :: word ++ ['!'] else ['!']
  | _ => []

def tag (inFlow : Bool) : Reader String := do
  let cs ← ahead
  let text ←
    if (cs.drop 1).head? = some '<' then do
      move 2
      let text ← takeWhile isVerbatimChar
      if text = [] ∨ (← ahead).head? ≠ some '>' then fail
      else do
        move 1
        pure (String.ofList text)
    else do
      let handle := handleOf cs
      move handle.length
      let suffix ← takeWhile isTagChar
      if suffix = [] ∧ handle ≠ ['!'] then fail
      else
        match (← get).handles.lookup (String.ofList handle) with
        | some start => pure (start ++ String.ofList suffix)
        | none => fail
  let after ← ahead
  if blankNext after ∨ (inFlow ∧ after.head? = some ',') then pure text else fail

-- The version that a document asks for has to be 1.1 or 1.2.
def version : Reader Unit := do
  let major ← takeWhile Char.isDigit
  let dot := (← ahead).head? = some '.'
  move 1
  let minor ← takeWhile Char.isDigit
  if dot ∧ Text.digits? major = some 1 ∧ (Text.digits? minor = some 1 ∨ Text.digits? minor = some 2)
  then pure ()
  else fail

def handleDeclaration : Reader (String × String) := do
  let handle := handleOf (← ahead)
  move handle.length
  let blanks ← skipWhile isTabOrSpace
  let start ← takeWhile isVerbatimChar
  if handle = [] ∨ blanks = 0 ∨ start = [] then fail
  else pure (String.ofList handle, String.ofList start)

structure Declared where
  version : Bool := false
  handles : List (String × String) := []

def directive (d : Declared) : Reader Declared := do
  move 1
  let what ← takeWhile isNameChar
  let blanks ← skipWhile isTabOrSpace
  let d ←
    if blanks = 0 then fail
    else if what = "YAML".toList ∧ !d.version then do
      version
      pure { d with version := true }
    else if what = "TAG".toList then do
      let (handle, start) ← handleDeclaration
      if d.handles.any (·.1 == handle) then fail
      else pure { d with handles := (handle, start) :: d.handles }
    else fail
  let _ ← skipWhile isTabOrSpace
  if lineEnds (← ahead) then do
    let _ ← skipWhile fun c => !isBreak c
    pure d
  else fail

def directivesAfter (d : Declared) (seen : Bool) : Nat → Reader Bool
  | 0 => pure seen
  | fuel + 1 => do
    nextContent false false
    let here ← get
    if here.rest.head? = some '%' ∧ here.column = 0 then do
      let d ← directive d
      directivesAfter d true fuel
    else do
      modify fun c => { c with handles := d.handles ++ c.handles }
      pure seen

def directives : Nat → Reader Bool := directivesAfter {} false

end ToffoliBench.Yaml
