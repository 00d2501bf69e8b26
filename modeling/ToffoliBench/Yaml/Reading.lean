import ToffoliBench.Yaml.Tag

namespace ToffoliBench.Yaml

def name : Reader String := do
  let cs := (← ahead).takeWhile isNameChar
  move cs.length
  let after ← ahead
  if cs = [] ∨ !(blankNext after || after.head?.any "?:,]\x7d%@`".toList.contains) then fail
  else pure (String.ofList cs)

structure Properties where
  anchor : Option String := none
  tag : Option String := none
deriving DecidableEq

-- Reads an anchor and a tag in either order, each unless `p` has one. Until the node is read its anchor
-- stands for an empty mapping, which no setting can be.
def properties (inFlow : Bool) (p : Properties) : Nat → Reader Properties
  | 0 => pure p
  | fuel + 1 => do
    match ← ahead with
    | '&' :: _ =>
      if p.anchor.isSome then pure p
      else do
        move 1
        let n ← name
        modify fun c => { c with anchors := (n, .mapping []) :: c.anchors }
        let _ ← skipWhile isTabOrSpace
        properties inFlow { p with anchor := some n } fuel
    | '!' :: _ =>
      if p.tag.isSome then pure p
      else do
        let t ← tag inFlow
        let _ ← skipWhile isTabOrSpace
        properties inFlow { p with tag := some t } fuel
    | _ => pure p

def Properties.apply (p : Properties) (node : Node) : Reader Node := do
  let node := match p.tag with
    | some t => .tagged t node
    | none => node
  match p.anchor with
  | none => pure node
  | some n => do
    modify fun c => { c with anchors := (n, node) :: c.anchors }
    pure node

def aliased (p : Properties) : Reader Node := do
  move 1
  let n ← name
  match (← get).anchors.lookup n with
  | some node => if p = {} then pure node else fail
  | none => fail

def quoted : Reader Node := do
  let cs ← ahead
  move 1
  if cs.head? = some '"' then do
    let text ← doubleQuoted [] [] (cs.length + 1)
    pure (.scalar .quoted (String.ofList text))
  else do
    let text ← singleQuoted [] (cs.length + 1)
    pure (.scalar .quoted (String.ofList text))

-- A key stands on one line and has at most 1024 characters.
def onKeyLine (start stop : Cursor) : Bool :=
  stop.line == start.line && start.rest.length - stop.rest.length ≤ 1024

def closes : List Char → Bool
  | ',' :: _ => true
  | ']' :: _ => true
  | '\x7d' :: _ => true
  | _ => false

mutual

def flowNode (indent : Int) : Nat → Reader Node
  | 0 => fail
  | fuel + 1 => do
    let p ← properties true {} 2
    flowContent
    let cs ← ahead
    let node ←
      match cs with
      | '[' :: _ => do
        move 1
        let items ← flowItems indent [] fuel
        pure (.sequence items)
      | '\x7b' :: _ => do
        move 1
        let entries ← flowEntries indent [] fuel
        pure (.mapping entries)
      | '"' :: _ => quoted
      | '\'' :: _ => quoted
      | '*' :: _ => aliased p
      | _ =>
        if p ≠ {} ∧ (closes cs ∨ cs.head? = some ':') then pure .absent
        else plain true indent
    p.apply node

-- One entry: a key or item, and a value if a colon follows. Unless a question mark announces the key, the
-- colon stands on the line on which the key starts.
def flowEntry (indent : Int) : Nat → Reader (Node × Option Node)
  | 0 => fail
  | fuel + 1 => do
    let start ← get
    let announced := start.rest.head? = some '?'
    if announced then do
      move 1
      flowContent
    let cs ← ahead
    let key ←
      if announced ∧ (closes cs ∨ cs.head? = some ':') then pure .absent else flowNode indent fuel
    flowContent
    let stop ← get
    if stop.rest.head? = some ':' then
      if announced ∨ onKeyLine start stop then do
        move 1
        flowContent
        let value ← if closes (← ahead) then pure .absent else flowNode indent fuel
        flowContent
        pure (key, some value)
      else fail
    else pure (key, if announced then some .absent else none)

def flowItems (indent : Int) (items : List Node) : Nat → Reader (List Node)
  | 0 => fail
  | fuel + 1 => do
    flowContent
    if (← ahead).head? = some ']' then do
      move 1
      pure items
    else do
      let (key, value) ← flowEntry indent fuel
      -- one pair without braces is a mapping of its own
      let items := items ++ [match value with
        | some value => .mapping [(key, value)]
        | none => key]
      match ← ahead with
      | ',' :: _ => do
        move 1
        flowItems indent items fuel
      | ']' :: _ => do
        move 1
        pure items
      | _ => fail

def flowEntries (indent : Int) (entries : List (Node × Node)) : Nat → Reader (List (Node × Node))
  | 0 => fail
  | fuel + 1 => do
    flowContent
    if (← ahead).head? = some '\x7d' then do
      move 1
      pure entries
    else do
      let (key, value) ← flowEntry indent fuel
      let entries := entries ++ [(key, value.getD .absent)]
      match ← ahead with
      | ',' :: _ => do
        move 1
        flowEntries indent entries fuel
      | '\x7d' :: _ => do
        move 1
        pure entries
      | _ => fail

end

-- A flow collection. Each of its characters nests at most four calls.
def flow (indent : Int) : Reader Node := do
  flowNode indent (4 * (← ahead).length + 4)

def dashAhead : List Char → Bool
  | '-' :: rest => blankNext rest
  | _ => false

def questionAhead : List Char → Bool
  | '?' :: rest => blankNext rest
  | _ => false

def colonAhead : List Char → Bool
  | ':' :: rest => blankNext rest
  | _ => false

def keyNode : Reader Node := do
  let start ← get
  let p ← properties false {} 2
  let cs ← ahead
  let node ←
    match cs with
    | '[' :: _ => flow (-1)
    | '\x7b' :: _ => flow (-1)
    | '"' :: _ => quoted
    | '\'' :: _ => quoted
    | '*' :: _ => aliased p
    | _ =>
      if startsPlain false cs then do
        let (line, _) ← plainLine false [] [] (cs.length + 1)
        pure (.scalar .plain (String.ofList line))
      else if p ≠ {} ∧ colonAhead cs then pure .absent
      else fail
  let _ ← skipWhile isTabOrSpace
  let stop ← get
  if onKeyLine start stop ∧ colonAhead stop.rest then p.apply node else fail

def leaf (indent : Int) (p : Properties) : Reader Node := do
  let node ←
    match ← ahead with
    | '[' :: _ => flow indent
    | '\x7b' :: _ => flow indent
    | '"' :: _ => quoted
    | '\'' :: _ => quoted
    | '*' :: _ => aliased p
    | '|' :: _ => blockScalar indent
    | '>' :: _ => blockScalar indent
    | _ => plain false indent
  p.apply node

def tryKey : Reader (Option Node) := fun c =>
  match keyNode c with
  | some (node, c) => some (some node, c)
  | none => some (none, c)

mutual

-- A node in block context, at its first character; `p` was read on lines before.
def blockNode (indent : Int) (p : Properties) : Nat → Reader Node
  | 0 => fail
  | fuel + 1 => do
    let here ← get
    if dashAhead here.rest then do
      let items ← blockItems here.column [] fuel
      p.apply (.sequence items)
    else if questionAhead here.rest then do
      let entries ← blockEntries here.column [] fuel
      p.apply (.mapping entries)
    else
      match ← tryKey with
      | some _ => do
        set here
        let entries ← blockEntries here.column [] fuel
        p.apply (.mapping entries)
      | none => do
        let more ← properties false p 2
        if more ≠ p ∧ lineEnds (← ahead) then nested indent false more fuel else leaf indent more
termination_by structural fuel => fuel

-- What follows on the next lines below a key or dash at column `indent`: a deeper node, a list at the
-- column of the key, or nothing.
def nested (indent : Int) (ofKey : Bool) (p : Properties) : Nat → Reader Node
  | 0 => fail
  | fuel + 1 => do
    nextContent false true
    let here ← get
    if here.atEnd then p.apply .absent
    else if indent < here.column then blockNode indent p fuel
    else if ofKey ∧ (here.column : Int) = indent ∧ dashAhead here.rest then do
      let items ← blockItems here.column [] fuel
      p.apply (.sequence items)
    else p.apply .absent
termination_by structural fuel => fuel

def nestedOrInline (column : Nat) (ofKey : Bool) : Nat → Reader Node
  | 0 => fail
  | fuel + 1 => do
    let _ ← skipWhile (· == ' ')
    if lineEnds (← ahead) then nested column ofKey {} fuel else blockNode column {} fuel
termination_by structural fuel => fuel

def blockItems (column : Nat) (items : List Node) : Nat → Reader (List Node)
  | 0 => fail
  | fuel + 1 => do
    let here ← get
    if here.column = column ∧ dashAhead here.rest ∧ !here.atEnd then do
      move 1
      let node ← nestedOrInline column false fuel
      nextContent false true
      blockItems column (items ++ [node]) fuel
    else if here.atEnd ∨ here.column ≤ column then pure items
    else fail
termination_by structural fuel => fuel

def blockValue (indent : Int) (ofKey : Bool) : Nat → Reader Node
  | 0 => fail
  | fuel + 1 => do
    let _ ← skipWhile isTabOrSpace
    let p ← properties false {} 2
    if lineEnds (← ahead) then nested indent ofKey p fuel else leaf indent p
termination_by structural fuel => fuel

def blockEntries (column : Nat) (entries : List (Node × Node)) : Nat → Reader (List (Node × Node))
  | 0 => fail
  | fuel + 1 => do
    let here ← get
    if here.atEnd ∨ here.column < column then pure entries
    else if here.column ≠ column then fail
    else if questionAhead here.rest then do
      move 1
      let key ← nestedOrInline column true fuel
      nextContent false true
      let there ← get
      let value ←
        if there.column = column ∧ colonAhead there.rest ∧ !there.atEnd then do
          move 1
          nestedOrInline column true fuel
        else pure .absent
      nextContent false true
      blockEntries column (entries ++ [(key, value)]) fuel
    else do
      let key ← keyNode
      move 1
      let value ← blockValue column true fuel
      nextContent false true
      blockEntries column (entries ++ [(key, value)]) fuel
termination_by structural fuel => fuel

end

def startsBound (c : Char) (here : Cursor) : Bool := here.atBound && here.rest.head? == some c

def closings : Nat → Reader Unit
  | 0 => pure ()
  | fuel + 1 => do
    nextContent false true
    if startsBound '.' (← get) then do
      move 3
      closings fuel

def document : Reader (Option Node) := do
  let size := (← ahead).length
  let directed ← directives (size + 1)
  let here ← get
  if startsBound '-' here then do
    move 3
    let node ← blockValue (-1) false (4 * size + 16)
    closings (size + 1)
    if (← ahead).isEmpty then pure (some node) else fail
  else if directed ∨ here.atBound then fail
  else if here.rest.isEmpty then pure none
  else do
    let node ← blockNode (-1) {} (4 * size + 16)
    closings (size + 1)
    if (← ahead).isEmpty then pure (some node) else fail

def read (source : String) : Option (Option Node) :=
  let cs := unifyBreaks source.toList
  if cs.all isAllowed then (document.run { rest := cs }).map (·.1) else none

end ToffoliBench.Yaml
