namespace ToffoliBench.Yaml

inductive Style where
  | plain
  | quoted
  | literal
  | folded
deriving DecidableEq, Repr, Inhabited

-- A plain `5` is a number where a quoted one is only a text.
inductive Node where
  | scalar (style : Style) (text : String)
  | sequence (items : List Node)
  | mapping (entries : List (Node × Node))
  | tagged (tag : String) (node : Node)
deriving Repr, Inhabited

def Node.absent : Node := .scalar .plain ""

def Node.untagged : Node → Node
  | .tagged _ node => node.untagged
  | node => node

end ToffoliBench.Yaml
