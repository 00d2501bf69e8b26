import ToffoliBench.Decimal.Reading
import ToffoliBench.Diagram.Basic
import ToffoliBench.Drawing.Token

namespace ToffoliBench.Drawing

abbrev Attributes := List (String × String)

inductive Item where
  | vertex (id : Nat) (attributes : Attributes)
  | edge (s t : Nat) (attributes : Attributes)
deriving DecidableEq, Repr

def unexpected (expected : String) : List Token → DrawingError
  | [] => .unexpectedEnd expected
  | found :: _ => .unexpectedToken expected found.text

def expect (wanted : Token) : List Token → Except DrawingError (List Token)
  | found :: rest =>
    if found = wanted then .ok rest else .error (.unexpectedToken wanted.text found.text)
  | [] => .error (.unexpectedEnd wanted.text)

def Token.value? : Token → Option String
  | .identifier s => some s
  | .string s => some s
  | .id n => some (String.ofList (Text.ofNat n))
  | _ => none

-- The attributes up to the closing bracket. One comma may follow each value.
def attributesFrom (known : Attributes) (afterValue : Bool) :
    List Token → Except DrawingError (Attributes × List Token)
  | .closeBracket :: rest => .ok (known, rest)
  | .comma :: rest =>
    if afterValue then attributesFrom known false rest
    else .error (.unexpectedToken "attribute name" Token.comma.text)
  | .identifier key :: rest =>
    match rest with
    | .equals :: rest =>
      match rest with
      | token :: rest =>
        match token.value? with
        | some value => attributesFrom ((key, value) :: known) true rest
        | none => .error (.unexpectedToken "attribute value" token.text)
      | [] => .error (.unexpectedEnd "attribute value")
    | _ => .error (unexpected "=" rest)
  | found :: _ => .error (.unexpectedToken "attribute name" found.text)
  | [] => .error (.unexpectedEnd "']'")

def attributes : List Token → Except DrawingError (Attributes × List Token)
  | .openBracket :: rest => attributesFrom [] false rest
  | ts => .ok ([], ts)

def statement (id : Nat) : List Token → Except DrawingError (Item × List Token)
  | .wire :: rest =>
    match rest with
    | .id other :: rest => do
      let (attrs, rest) ← attributes rest
      pure (.edge id other attrs, rest)
    | _ => .error (unexpected "vertex id" rest)
  | rest => do
    let (attrs, rest) ← attributes rest
    pure (.vertex id attrs, rest)

theorem attributesFrom_length {known : Attributes} {afterValue : Bool} {ts : List Token}
    {attrs : Attributes} {rest : List Token}
    (h : attributesFrom known afterValue ts = .ok (attrs, rest)) : rest.length < ts.length := by
  fun_induction attributesFrom known afterValue ts <;> simp_all <;> omega

theorem attributes_length {ts : List Token} {attrs : Attributes} {rest : List Token}
    (h : attributes ts = .ok (attrs, rest)) : rest.length ≤ ts.length := by
  unfold attributes at h
  split at h
  · have := attributesFrom_length h
    simp; omega
  · simp_all

theorem statement_length {id : Nat} {ts : List Token} {item : Item} {rest : List Token}
    (h : statement id ts = .ok (item, rest)) : rest.length ≤ ts.length := by
  unfold statement at h
  split at h
  · split at h
    · rename_i more
      cases found : attributes more with
      | error e => simp [found, bind, Except.bind] at h
      | ok parts =>
        simp [found, bind, Except.bind, pure, Except.pure] at h
        have := attributes_length found
        obtain ⟨rfl, rfl⟩ := h
        simp; omega
    · simp at h
  · cases found : attributes ts with
    | error e => simp [found, bind, Except.bind] at h
    | ok parts =>
      simp [found, bind, Except.bind, pure, Except.pure] at h
      have := attributes_length found
      obtain ⟨rfl, rfl⟩ := h
      exact this

inductive Side where
  | input
  | output
deriving DecidableEq, Repr

structure BoundaryEnd where
  side : Side
  rank : Int
  file : Nat
  vertex : Nat
deriving DecidableEq, Repr

-- What has been read so far: the diagram, the vertex of each number in the text by order of declaration,
-- and the declared boundaries.
structure Draft where
  diagram : Diagram := {}
  ids : List (Nat × Nat) := []
  ends : List BoundaryEnd := []

def vertexColor : String → Except DrawingError VertexKind
  | "black" => .ok .boundary
  | "green" => .ok .z
  | "red" => .ok .x
  | "yellow" => .ok .hBox
  | other => .error (.unknownColor other)

def edgeColor : Option String → Except DrawingError EdgeKind
  | none => .ok .simple
  | some "blue" => .ok .hadamard
  | some other => .error (.unknownEdgeColor other)

def label (id : Nat) (text : String) : Except DrawingError (Option Side × Phase) :=
  match Text.splitAt? ':' text.toList with
  | none => .ok (none, .zero)
  | some (_, ['i']) => .ok (some .input, .zero)
  | some (_, ['o']) => .ok (some .output, .zero)
  | some (_, cs) =>
    match Phase.parse cs with
    | .ok phase => .ok (none, phase)
    | .error (.fault f) => .error (.diagram (.fault f))
    | .error _ => .error (.invalidLabel id text)

def position? (text : String) : Option (Decimal.Signed × Decimal.Signed) :=
  match Text.splitAt? ',' (Text.dropEnd (· == '!') text.toList) with
  | none => none
  | some (q, r) => do
    let qubit ← Decimal.signed? (Text.trim q)
    let row ← Decimal.signed? (Text.trim r)
    pure (qubit, row)

def position (id : Nat) : Option String → Except DrawingError (Decimal.Signed × Decimal.Signed)
  | none => .ok (⟨false, 0⟩, ⟨false, 0⟩)
  | some text =>
    match position? text with
    | some p => .ok p
    | none => .error (.invalidPosition id text)

def Draft.addVertex (draft : Draft) (id : Nat) (attrs : Attributes) : Except DrawingError Draft := do
  if (draft.ids.lookup id).isSome then .error (.duplicateVertex id)
  else
    let kind ← vertexColor ((attrs.lookup "color").getD "black")
    let (side, phase) ←
      match attrs.lookup "label" with
      | none => pure (none, Phase.zero)
      | some text => label id text
    let (qubit, row) ← position id (attrs.lookup "pos")
    let v := draft.diagram.fresh
    let ends :=
      match side with
      | none => draft.ends
      | some side => draft.ends ++ [⟨side, qubit.rank, id, v⟩]
    pure {
      diagram := draft.diagram.add { kind, phase, qubit := qubit.value, row := row.value }
      ids := draft.ids ++ [(id, v)]
      ends }

def Draft.vertex (draft : Draft) (id : Nat) : Except DrawingError Nat :=
  match draft.ids.lookup id with
  | some v => .ok v
  | none => .error (.undefinedVertex id)

def Draft.addEdge (draft : Draft) (s t : Nat) (attrs : Attributes) : Except DrawingError Draft := do
  let kind ← edgeColor (attrs.lookup "color")
  let a ← draft.vertex s
  let b ← draft.vertex t
  let diagram ← (draft.diagram.addEdge a b kind).mapError .diagram
  pure { draft with diagram }

def Draft.carryOut (draft : Draft) : Item → Except DrawingError Draft
  | .vertex id attrs => draft.addVertex id attrs
  | .edge s t attrs => draft.addEdge s t attrs

-- Each statement is carried out as soon as it is read, so the first fault in the order of the text is the
-- error. What follows the closing brace is not looked at.
def body (draft : Draft) (ts : List Token) : Except DrawingError Draft :=
  match ts with
  | .closeBrace :: _ => .ok draft
  | .semicolon :: rest => body draft rest
  | .id n :: rest =>
    match h : statement n rest with
    | .error e => .error e
    | .ok (item, rest') =>
      have : rest'.length ≤ rest.length := statement_length h
      match draft.carryOut item with
      | .error e => .error e
      | .ok draft => body draft rest'
  | found :: _ => .error (.unexpectedToken "vertex id or '\x7d'" found.text)
  | [] => .error (.unexpectedEnd "'\x7d'")
termination_by ts.length
decreasing_by all_goals simp; try omega

def BoundaryEnd.before (e f : BoundaryEnd) : Bool :=
  decide (e.rank < f.rank) || (e.rank == f.rank && decide (e.file ≤ f.file))

def Draft.sideIds (draft : Draft) (side : Side) : List Nat :=
  ((draft.ends.mergeSort BoundaryEnd.before).filter (·.side == side)).map (·.vertex)

structure Drawn where
  diagram : Diagram
  ids : List (Nat × Nat)

def Draft.finish (draft : Draft) : Drawn where
  diagram := { draft.diagram with inputs := draft.sideIds .input, outputs := draft.sideIds .output }
  ids := draft.ids.mergeSort fun p q => p.1 ≤ q.1

def readTokens (ts : List Token) : Except DrawingError Drawn := do
  let rest ← expect .graph ts
  let rest ← expect .openBrace rest
  let draft ← body {} rest
  pure draft.finish

def read (source : String) : Except DrawingError Drawn := do
  let ts ← tokens source.toList
  readTokens ts

end ToffoliBench.Drawing
