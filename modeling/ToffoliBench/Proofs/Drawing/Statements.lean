import ToffoliBench.Drawing.Reading
import ToffoliBench.Proofs.Drawing.Tokens
import ToffoliBench.Proofs.Numbers.Normal
import ToffoliBench.Proofs.Text.Decimals

namespace ToffoliBench.Drawing

open Outcome

variable {d : Diagram} {v : Nat} {x : Vertex} {ts : List Token}

-- A coordinate that is drawn and read without loss.
structure Plain (x : Float) : Prop where
  finite : x.isFinite = true
  nonnegative : x ≠ -0
  read : Decimal.float? (Decimal.chars x) = some x

instance (x : Float) : Decidable (Plain x) :=
  decidable_of_iff (x.isFinite = true ∧ x ≠ -0 ∧ Decimal.float? (Decimal.chars x) = some x)
    ⟨fun ⟨finite, nonnegative, read⟩ => ⟨finite, nonnegative, read⟩, fun ⟨finite, nonnegative, read⟩ => ⟨finite, nonnegative, read⟩⟩

def sideOf (d : Diagram) (v : Nat) : Option Side :=
  if d.inputs.contains v then some .input else if d.outputs.contains v then some .output else none

def shown (x : Vertex) : Bool := x.qubit != 0 || x.row != 0

def vertexAttributes (d : Diagram) (v : Nat) (x : Vertex) : Attributes :=
  (if shown x then [("pos", String.ofList (positionText x))] else []) ++
    [("label", String.ofList (labelChars d v x)), ("color", colorOf x.kind)]

def edgeAttributes (e : Edge) : Attributes :=
  match e.kind with
  | .simple => []
  | .hadamard => [("color", "blue")]

theorem statement_vertex : statement v ((vertexTokens d v x).tail ++ ts) = .ok (.vertex v (vertexAttributes d v x), ts) := by
  unfold vertexTokens positionTokens vertexAttributes shown
  cases x.qubit != 0 || x.row != 0 <;> simp [statement, attributes, attributesFrom, Token.value?, bind, Except.bind, pure, Except.pure]

-- An edge without attributes ends where no bracket opens.
theorem statement_edge {e : Edge} (stops : ts.head? ≠ some .openBracket) :
    statement e.low ((edgeTokens e).tail ++ ts) = .ok (.edge e.low e.high (edgeAttributes e), ts) := by
  obtain ⟨a, b, kind⟩ := e
  cases kind with
  | simple =>
    have none : attributes ts = .ok ([], ts) := by
      unfold attributes
      split
      · exact absurd rfl stops
      · rfl
    simp [edgeTokens, edgeAttributes, statement, none, bind, Except.bind, pure, Except.pure]
  | hadamard =>
    simp [edgeTokens, edgeAttributes, statement, attributes, attributesFrom, Token.value?, bind, Except.bind, pure, Except.pure]

-- What the text of a vertex number and what follows it are cut at.
theorem cut_number {rest : List Char} : Text.splitAt? ':' (Text.ofNat v ++ ':' :: rest) = some (Text.ofNat v, rest) :=
  Text.splitAt?_append fun listed => by cases Text.ofNat_digits _ listed

theorem phase_chars_cons (normal : x.phase.Normal) : ∃ c rest, x.phase.chars = c :: rest ∧ c.isDigit = true := by
  obtain ⟨n, den, _, text⟩ := normal.exists_chars
  obtain ⟨c, rest, shape, digit⟩ := Text.ofNat_cons n
  rw [text, shape]
  split
  · exact ⟨c, rest, rfl, digit⟩
  · exact ⟨c, rest ++ '/' :: Text.ofNat den, rfl, digit⟩

theorem label_written (normal : x.phase.Normal) (plain : (sideOf d v).isSome = true → x.phase = .zero) :
    label v (String.ofList (labelChars d v x)) = .ok (sideOf d v, x.phase) := by
  unfold label labelChars
  rw [String.toList_ofList]
  unfold sideOf at plain ⊢
  by_cases input : d.inputs.contains v = true
  · rw [if_pos input] at plain
    rw [if_pos input, if_pos input, cut_number, plain rfl]
    rfl
  rw [if_neg input] at plain
  rw [if_neg input, if_neg input]
  by_cases output : d.outputs.contains v = true
  · rw [if_pos output] at plain
    rw [if_pos output, if_pos output, cut_number, plain rfl]
    rfl
  rw [if_neg output, if_neg output]
  by_cases zero : x.phase.isZero = true
  · have none : Text.splitAt? ':' (Text.ofNat v) = none := Text.splitAt?_absent fun listed => by cases Text.ofNat_digits _ listed
    rw [zero, if_neg (by decide), none, normal.eq_zero zero]
  · have read := normal.parse_chars
    obtain ⟨c, rest, shape, digit⟩ := phase_chars_cons normal
    rw [Bool.not_eq_true] at zero
    rw [zero, if_pos (by decide), cut_number]
    rw [shape] at read ⊢
    split
    · rename_i other
      cases other
    · rename_i other
      cases other
      cases digit
    · rename_i other
      cases other
      cases digit
    · rename_i other
      cases other
      rw [read]

theorem position_written (qubit : Plain x.qubit) (row : Plain x.row) : ∃ q r : Decimal.Signed,
    position v ((vertexAttributes d v x).lookup "pos") = .ok (q, r) ∧ q.value = x.qubit ∧ r.value = x.row ∧
      q.rank = Decimal.place x.qubit := by
  unfold vertexAttributes
  by_cases drawn : shown x = true
  · obtain ⟨q, qRead, qValue, qRank⟩ := Decimal.signed?_chars qubit.finite qubit.read
    obtain ⟨r, rRead, rValue, _⟩ := Decimal.signed?_chars row.finite row.read
    have qText := Decimal.chars_numeral qubit.finite
    have rText := Decimal.chars_numeral row.finite
    have unmarked : Text.dropEnd (· == '!') (positionText x) = Decimal.chars x.qubit ++ ',' :: Decimal.chars x.row := by
      refine Text.dropEnd_append (by simp) fun c last => ?_
      have listed := List.mem_of_getLast? last
      rw [beq_eq_false_iff_ne]
      rintro rfl
      rcases List.mem_append.mp listed with first | second
      · rcases qText _ first with digit | minus | point <;> contradiction
      · rcases List.mem_cons.mp second with comma | second
        · contradiction
        · rcases rText _ second with digit | minus | point <;> contradiction
    have cut : Text.splitAt? ',' (Decimal.chars x.qubit ++ ',' :: Decimal.chars x.row) = some (Decimal.chars x.qubit, Decimal.chars x.row) :=
      Text.splitAt?_append fun listed => by rcases qText _ listed with digit | minus | point <;> contradiction
    have read : position? (String.ofList (positionText x)) = some (q, r) := by
      rw [position?, String.toList_ofList, unmarked, cut]
      simp only [Text.trim_unblank fun c listed => (qText c listed).unblank, Text.trim_unblank fun c listed => (rText c listed).unblank,
        qRead, rRead, Option.bind_eq_bind, Option.bind_some, Option.pure_def]
    refine ⟨q, r, ?_, qValue, rValue, qRank⟩
    rw [if_pos drawn]
    simp [position, read]
  · simp only [shown, Bool.or_eq_true, not_or, bne, Bool.not_eq_true, Bool.not_eq_false'] at drawn
    have qZero := Decimal.eq_zero_of_beq qubit.finite qubit.nonnegative drawn.1
    have rZero := Decimal.eq_zero_of_beq row.finite row.nonnegative drawn.2
    refine ⟨⟨false, 0⟩, ⟨false, 0⟩, ?_, qZero.symm, rZero.symm, ?_⟩
    · rw [shown, qZero, rZero]
      rfl
    · rw [qZero]
      rfl

theorem position_unquoted (qubit : Plain x.qubit) (row : Plain x.row) : '"' ∉ positionText x := by
  have away : ∀ {y : Float}, y.isFinite = true → '"' ∉ Decimal.chars y := fun finite listed => by
    rcases Decimal.chars_numeral finite _ listed with digit | minus | point <;> contradiction
  simp [positionText, away qubit.finite, away row.finite]

theorem label_unquoted (normal : x.phase.Normal) : '"' ∉ labelChars d v x := by
  have number : ∀ n, '"' ∉ Text.ofNat n := fun n listed => by cases Text.ofNat_digits _ listed
  have phase : '"' ∉ x.phase.chars := by
    obtain ⟨n, den, _, text⟩ := normal.exists_chars
    rw [text]
    split <;> simp [number]
  unfold labelChars
  split
  · simp [number]
  split
  · simp [number]
  split
  · simp [number, phase]
  · exact number v

-- The boundary that a vertex is read as, if it is one.
def endsOf (d : Diagram) (v : Nat) (x : Vertex) (w : Nat) : List BoundaryEnd :=
  (sideOf d v).toList.map fun side => ⟨side, Decimal.place x.qubit, v, w⟩

-- A vertex statement adds the vertex without its marker.
theorem addVertex_written {draft : Draft} (new : draft.ids.lookup v = none) (qubit : Plain x.qubit) (row : Plain x.row)
    (normal : x.phase.Normal) (plain : (sideOf d v).isSome = true → x.phase = .zero) :
    draft.addVertex v (vertexAttributes d v x) = .ok
      { diagram := draft.diagram.add { x with marker := none }
        ids := draft.ids ++ [(v, draft.diagram.fresh)]
        ends := draft.ends ++ endsOf d v x draft.diagram.fresh } := by
  obtain ⟨q, r, position_, qValue, rValue, rank⟩ := position_written (d := d) (v := v) qubit row
  have color : vertexColor (((vertexAttributes d v x).lookup "color").getD "black") = .ok x.kind := by
    unfold vertexAttributes
    cases shown x <;> cases x.kind <;> rfl
  have text : (vertexAttributes d v x).lookup "label" = some (String.ofList (labelChars d v x)) := by
    unfold vertexAttributes
    cases shown x <;> rfl
  have label_ := label_written normal plain
  unfold Draft.addVertex endsOf
  rw [new]
  simp only [Option.isSome_none, Bool.false_eq_true, if_false, color, text, label_, position_, bind, Except.bind, pure, Except.pure]
  rw [qValue, rValue, rank]
  cases sideOf d v <;> simp

end ToffoliBench.Drawing
