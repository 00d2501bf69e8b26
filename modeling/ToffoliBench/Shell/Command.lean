namespace ToffoliBench.Shell

-- A character stands for the byte of its number, so that a script may print bytes that are no text.
abbrev Bytes := List Char

structure Otherwise where
  orEmpty : Bool
  text : Bytes
deriving DecidableEq, Repr, Inhabited

inductive Piece where
  | text (quoted : Bool) (cs : Bytes)
  | parameter (quoted : Bool) (name : Bytes) (otherwise : Option Otherwise)
  | output (quoted : Bool) (script : Bytes)
  | arithmetic (quoted : Bool) (expression : Bytes)
deriving DecidableEq, Repr, Inhabited

abbrev Word := List Piece

inductive RedirectKind where
  | input
  | here
  | replace
  | append
  | same
deriving DecidableEq, Repr, Inhabited

structure Redirect where
  stream : Nat
  kind : RedirectKind
  target : Word
deriving DecidableEq, Repr, Inhabited

inductive Command where
  | nothing
  | simple (assigned : List (Bytes × Word)) (words : List Word) (redirects : List Redirect)
  | sequence (first second : Command)
  | both (first second : Command)
  | either (first second : Command)
  | negated (c : Command)
  | pipe (first second : Command)
  | choice (condition yes no : Command)
  | loop (untilTrue : Bool) (condition body : Command)
  | each (name : Bytes) (words : List Word) (body : Command)
  -- one arm of a case; the rest is tried if no pattern fits
  | arm (subject : Word) (patterns : List Word) (body rest : Command)
  | redirected (c : Command) (redirects : List Redirect)
  -- what it assigns is forgotten
  | apart (c : Command)
deriving Repr, Inhabited

end ToffoliBench.Shell
