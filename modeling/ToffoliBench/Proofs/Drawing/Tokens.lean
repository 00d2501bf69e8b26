import ToffoliBench.Drawing.Writing
import ToffoliBench.Proofs.Drawing.Scanning

namespace ToffoliBench.Drawing

open Token

variable {d : Diagram} {more : List Char} {ts : List Token}

def positionText (x : Vertex) : List Char := Decimal.chars x.qubit ++ ',' :: Decimal.chars x.row ++ ['!']

def positionTokens (x : Vertex) : List Token :=
  if x.qubit != 0 || x.row != 0 then [.comma, .identifier "pos", .equals, .string (String.ofList (positionText x))] else []

def vertexTokens (d : Diagram) (v : Nat) (x : Vertex) : List Token :=
  .id v :: .openBracket :: .identifier "color" :: .equals :: .identifier (colorOf x.kind) :: .comma :: .identifier "label" ::
    .equals :: .string (String.ofList (labelChars d v x)) :: (positionTokens x ++ [.closeBracket])

def edgeTokens (e : Edge) : List Token :=
  .id e.low :: .wire :: .id e.high ::
    match e.kind with
    | .simple => []
    | .hadamard => [.openBracket, .identifier "color", .equals, .identifier "blue", .closeBracket]

theorem scans_position {x : Vertex} (absent : '"' ∉ positionText x) (rest : Scans more ts) :
    Scans (positionChars x ++ more) (positionTokens x ++ ts) := by
  unfold positionChars positionTokens
  split
  · have shape : ", pos=\"".toList ++ Decimal.chars x.qubit ++ ',' :: Decimal.chars x.row ++ ['!', '"'] ++ more =
        ',' :: ' ' :: (['p', 'o', 's'] ++ '=' :: ('"' :: positionText x ++ '"' :: more)) := by
      simp [positionText]
    rw [shape]
    have equals : Scans ('=' :: ('"' :: positionText x ++ '"' :: more)) _ := scans_mark rfl rfl (scans_string absent rest)
    have key : Scans (['p', 'o', 's'] ++ '=' :: _) _ := scans_name rfl (by simp; rfl) equals
    exact scans_mark rfl rfl (scans_space rfl key)
  · exact rest

theorem scans_vertex {v : Nat} {x : Vertex} (small : v ≤ Range.maxWord) (label : '"' ∉ labelChars d v x)
    (position : '"' ∉ positionText x) (rest : Scans more ts) : Scans (vertexLine d v x ++ more) (vertexTokens d v x ++ ts) := by
  have shape : vertexLine d v x ++ more = ' ' :: ' ' :: (Text.ofNat v ++ ' ' :: '[' :: (['c', 'o', 'l', 'o', 'r'] ++ '=' ::
      ((colorOf x.kind).toList ++ ',' :: ' ' :: (['l', 'a', 'b', 'e', 'l'] ++ '=' ::
        ('"' :: labelChars d v x ++ '"' :: (positionChars x ++ (']' :: '\n' :: more))))))) := by
    simp [vertexLine]
  have close : Scans (']' :: '\n' :: more) (.closeBracket :: ts) := scans_mark rfl rfl (scans_space rfl rest)
  have named : isName (colorOf x.kind).toList = true := by cases x.kind <;> rfl
  have first : Scans ('=' :: ('"' :: labelChars d v x ++ '"' :: (positionChars x ++ _))) _ :=
    scans_mark rfl rfl (scans_string label (scans_position position close))
  have second : Scans (['l', 'a', 'b', 'e', 'l'] ++ '=' :: _) _ := scans_name rfl (by simp; rfl) first
  have third : Scans ((colorOf x.kind).toList ++ ',' :: ' ' :: _) _ :=
    scans_name named (by simp; rfl) (scans_mark rfl rfl (scans_space rfl second))
  have fourth : Scans (['c', 'o', 'l', 'o', 'r'] ++ '=' :: _) _ := scans_name rfl (by simp; rfl) (scans_mark rfl rfl third)
  have fifth : Scans (Text.ofNat v ++ ' ' :: '[' :: _) _ :=
    scans_id small (by simp) (scans_space rfl (scans_mark rfl rfl fourth))
  rw [shape]
  refine scans_space rfl (scans_space rfl ?_)
  have tokens : vertexTokens d v x ++ ts = .id v :: .openBracket :: .identifier (String.ofList ['c', 'o', 'l', 'o', 'r']) :: .equals ::
      .identifier (String.ofList (colorOf x.kind).toList) :: .comma :: .identifier (String.ofList ['l', 'a', 'b', 'e', 'l']) ::
        .equals :: .string (String.ofList (labelChars d v x)) :: (positionTokens x ++ .closeBracket :: ts) := by
    simp [vertexTokens]
  rw [tokens]
  exact fifth

theorem scans_edge {e : Edge} (low : e.low ≤ Range.maxWord) (high : e.high ≤ Range.maxWord) (rest : Scans more ts) :
    Scans (edgeLine e ++ more) (edgeTokens e ++ ts) := by
  obtain ⟨a, b, kind⟩ := e
  have ending : ∀ {tail : List Char} {us : List Token}, (∀ c ∈ tail.head?, c.isDigit = false) → Scans tail us →
      Scans (' ' :: ' ' :: (Text.ofNat a ++ ' ' :: '-' :: '-' :: ' ' :: (Text.ofNat b ++ tail))) (.id a :: .wire :: .id b :: us) := by
    intro tail us stops scanned
    have far : Scans (' ' :: '-' :: '-' :: ' ' :: (Text.ofNat b ++ tail)) (.wire :: .id b :: us) :=
      scans_space rfl (scans_wire (scans_space rfl (scans_id high stops scanned)))
    exact scans_space rfl (scans_space rfl (scans_id low (by simp) far))
  have break_ : Scans ('\n' :: more) ts := scans_space rfl rest
  cases kind with
  | simple =>
    have shape : edgeLine ⟨a, b, .simple⟩ ++ more =
        ' ' :: ' ' :: (Text.ofNat a ++ ' ' :: '-' :: '-' :: ' ' :: (Text.ofNat b ++ '\n' :: more)) := by
      simp [edgeLine]
    rw [shape]
    exact ending (by simp) break_
  | hadamard =>
    have shape : edgeLine ⟨a, b, .hadamard⟩ ++ more =
        ' ' :: ' ' :: (Text.ofNat a ++ ' ' :: '-' :: '-' :: ' ' :: (Text.ofNat b ++
          ' ' :: '[' :: (['c', 'o', 'l', 'o', 'r'] ++ '=' :: (['b', 'l', 'u', 'e'] ++ ']' :: '\n' :: more)))) := by
      simp [edgeLine]
    have value : Scans (['b', 'l', 'u', 'e'] ++ ']' :: '\n' :: more) _ := scans_name rfl (by simp; rfl) (scans_mark rfl rfl break_)
    have key : Scans (['c', 'o', 'l', 'o', 'r'] ++ '=' :: _) _ := scans_name rfl (by simp; rfl) (scans_mark rfl rfl value)
    rw [shape]
    exact ending (by simp) (scans_space rfl (scans_mark rfl rfl key))

-- Line after line.
theorem scans_lines {α : Type} {lines : List α} {line : α → List Char} {tokens_ : α → List Token}
    (each : ∀ a ∈ lines, ∀ {more ts}, Scans more ts → Scans (line a ++ more) (tokens_ a ++ ts)) (rest : Scans more ts) :
    Scans (lines.flatMap line ++ more) (lines.flatMap tokens_ ++ ts) := by
  induction lines with
  | nil => exact rest
  | cons a others ih =>
    rw [List.flatMap_cons, List.flatMap_cons, List.append_assoc, List.append_assoc]
    exact each a List.mem_cons_self (ih fun b later => each b (List.mem_cons_of_mem _ later))

def bodyTokens (d : Diagram) : List Token :=
  d.vertices.flatMap (fun entry => vertexTokens d entry.1 entry.2) ++ (d.edges.flatMap edgeTokens ++ [.closeBrace])

-- The text up to the closing brace.
def opening (d : Diagram) : List Char :=
  "graph \x7b\n".toList ++ (d.vertices.flatMap (fun entry => vertexLine d entry.1 entry.2) ++ '\n' :: d.edges.flatMap edgeLine)

theorem scans_opening {tail : List Char} (blank : Scans tail []) (small : ∀ v ∈ d.ids, v ≤ Range.maxWord)
    (wires : ∀ e ∈ d.edges, e.low ∈ d.ids ∧ e.high ∈ d.ids)
    (labels : ∀ entry ∈ d.vertices, '"' ∉ labelChars d entry.1 entry.2) (positions : ∀ entry ∈ d.vertices, '"' ∉ positionText entry.2) :
    Scans (opening d ++ '\x7d' :: tail) (.graph :: .openBrace :: bodyTokens d) := by
  have close : Scans ('\x7d' :: tail) [.closeBrace] := scans_mark rfl rfl blank
  have edges : Scans (d.edges.flatMap edgeLine ++ '\x7d' :: tail) (d.edges.flatMap edgeTokens ++ [.closeBrace]) :=
    scans_lines (fun e listed _ _ later => scans_edge (small _ (wires e listed).1) (small _ (wires e listed).2) later) close
  have vertices : Scans (d.vertices.flatMap (fun entry => vertexLine d entry.1 entry.2) ++
      '\n' :: (d.edges.flatMap edgeLine ++ '\x7d' :: tail)) (bodyTokens d) :=
    scans_lines (fun entry listed _ _ later => scans_vertex (small _ (List.mem_map_of_mem listed)) (labels entry listed)
      (positions entry listed) later) (scans_space rfl edges)
  have brace : Scans (' ' :: '\x7b' :: '\n' :: (d.vertices.flatMap (fun entry => vertexLine d entry.1 entry.2) ++
      '\n' :: (d.edges.flatMap edgeLine ++ '\x7d' :: tail))) (.openBrace :: bodyTokens d) :=
    scans_space rfl (scans_mark rfl rfl (scans_space rfl vertices))
  have shape : opening d ++ '\x7d' :: tail = 'g' :: (['r', 'a', 'p', 'h'] ++ ' ' :: '\x7b' :: '\n' ::
      (d.vertices.flatMap (fun entry => vertexLine d entry.1 entry.2) ++ '\n' :: (d.edges.flatMap edgeLine ++ '\x7d' :: tail))) := by
    have word : "graph \x7b\n".toList = 'g' :: (['r', 'a', 'p', 'h'] ++ [' ', '\x7b', '\n']) := rfl
    unfold opening
    rw [word]
    simp only [List.append_assoc, List.cons_append, List.nil_append]
  rw [shape]
  exact scans_token rfl rfl brace

theorem chars_eq (d : Diagram) : chars d = opening d ++ ['\x7d', '\n'] := by
  have brace : "\x7d\n".toList = ['\x7d', '\n'] := rfl
  unfold chars opening
  simp only [brace, List.append_assoc]

theorem trimEnd_chars (d : Diagram) : Text.trimEnd (chars d) = opening d ++ ['\x7d'] := by
  have parts : chars d = (opening d ++ ['\x7d']) ++ ['\n'] := by rw [chars_eq, List.append_assoc, List.singleton_append]
  rw [parts, Text.trimEnd]
  refine Text.dropEnd_append (fun c listed => ?_) fun c last => ?_
  · obtain rfl := List.mem_singleton.mp listed
    rfl
  · rw [List.getLast?_concat] at last
    obtain rfl := Option.mem_some.mp last
    rfl

-- The text, and the text without the end of its last line, have the same tokens.
theorem tokens_chars (small : ∀ v ∈ d.ids, v ≤ Range.maxWord) (wires : ∀ e ∈ d.edges, e.low ∈ d.ids ∧ e.high ∈ d.ids)
    (labels : ∀ entry ∈ d.vertices, '"' ∉ labelChars d entry.1 entry.2) (positions : ∀ entry ∈ d.vertices, '"' ∉ positionText entry.2) :
    tokens (chars d) = .ok (.graph :: .openBrace :: bodyTokens d) ∧
      tokens (Text.trimEnd (chars d)) = .ok (.graph :: .openBrace :: bodyTokens d) := by
  have empty : Scans [] [] := fun _ => by rw [scan]
  have line : Scans ['\n'] [] := scans_space rfl empty
  rw [trimEnd_chars, chars_eq]
  exact ⟨scans_opening line small wires labels positions 0, scans_opening empty small wires labels positions 0⟩

end ToffoliBench.Drawing
