import ToffoliBench.Drawing.Reading
import ToffoliBench.Drawing.Writing
import ToffoliBench.Proofs.Outcome
import ToffoliBench.Proofs.Text.Numerals

namespace ToffoliBench.Drawing

open Outcome

-- A vertex as a statement declares it.
structure Declared where
  file : Nat
  kind : VertexKind
  phase : Phase
  side : Option Side
  qubit : Decimal.Signed
  row : Decimal.Signed

def Declared.vertex (x : Declared) : Vertex :=
  { kind := x.kind, phase := x.phase, qubit := x.qubit.value, row := x.row.value }

def Declared.ends (x : Declared) (v : Nat) : List BoundaryEnd := x.side.toList.map fun side => ⟨side, x.qubit.rank, x.file, v⟩

inductive Colored : Option String → VertexKind → Prop where
  | absent : Colored none .boundary
  | named (kind : VertexKind) : Colored (some (colorOf kind)) kind

inductive Wired : Option String → EdgeKind → Prop where
  | absent : Wired none .simple
  | blue : Wired (some "blue") .hadamard

inductive Labelled : Option String → Option Side → Phase → Prop where
  | absent : Labelled none none .zero
  | plain {cs : List Char} : ':' ∉ cs → Labelled (some (String.ofList cs)) none .zero
  | input {before : List Char} : ':' ∉ before → Labelled (some (String.ofList (before ++ [':', 'i']))) (some .input) .zero
  | output {before : List Char} : ':' ∉ before → Labelled (some (String.ofList (before ++ [':', 'o']))) (some .output) .zero
  | phase {before cs : List Char} {phase : Phase} : ':' ∉ before → Phase.parse cs = .ok phase →
      Labelled (some (String.ofList (before ++ ':' :: cs))) none phase

inductive Placed : Option String → Decimal.Signed → Decimal.Signed → Prop where
  | absent : Placed none ⟨false, 0⟩ ⟨false, 0⟩
  | given {left right : List Char} {marks : Nat} {qubit row : Decimal.Signed} : ',' ∉ left → right.getLast? ≠ some '!' →
      Decimal.signed? (Text.trim left) = some qubit → Decimal.signed? (Text.trim right) = some row →
      Placed (some (String.ofList (left ++ ',' :: right ++ List.replicate marks '!'))) qubit row

structure Declares (n : Nat) (attrs : Attributes) (x : Declared) : Prop where
  file : x.file = n
  color : Colored (attrs.lookup "color") x.kind
  label : Labelled (attrs.lookup "label") x.side x.phase
  position : Placed (attrs.lookup "pos") x.qubit x.row

variable {attrs : Attributes} {n s t : Nat} {draft after : Draft} {value : Option String}

theorem vertexColor_exact {kind : VertexKind} : vertexColor (value.getD "black") = .ok kind ↔ Colored value kind := by
  constructor
  · intro read
    cases value with
    | none =>
      cases read
      exact .absent
    | some color =>
      rw [Option.getD_some] at read
      unfold vertexColor at read
      split at read
      · cases read
        exact .named .boundary
      · cases read
        exact .named .z
      · cases read
        exact .named .x
      · cases read
        exact .named .hBox
      · cases read
  · intro colored
    cases colored with
    | absent => rfl
    | named => cases kind <;> rfl

theorem edgeColor_exact {kind : EdgeKind} : edgeColor value = .ok kind ↔ Wired value kind := by
  constructor
  · intro read
    unfold edgeColor at read
    split at read
    · cases read
      exact .absent
    · cases read
      exact .blue
    · cases read
  · intro wired
    cases wired <;> rfl

-- The two letters that name a side are no phases.
theorem parse_letter (phase : Phase) : Phase.parse ['i'] ≠ .ok phase ∧ Phase.parse ['o'] ≠ .ok phase := ⟨nofun, nofun⟩

theorem label_phase {before cs : List Char} {phase : Phase} (absent : ':' ∉ before) (read : Phase.parse cs = .ok phase) :
    label n (String.ofList (before ++ ':' :: cs)) = .ok (none, phase) := by
  rw [label, String.toList_ofList, Text.splitAt?_append absent]
  split
  · rename_i none
    cases none
  · rename_i letter
    cases letter
    exact absurd read (parse_letter phase).1
  · rename_i letter
    cases letter
    exact absurd read (parse_letter phase).2
  · rename_i cut
    cases cut
    rw [read]

theorem label_exact {text : String} {side : Option Side} {phase : Phase} :
    label n text = .ok (side, phase) ↔ Labelled (some text) side phase := by
  constructor
  · intro read
    obtain ⟨cs, rfl⟩ : ∃ cs, text = String.ofList cs := ⟨text.toList, String.ofList_toList.symm⟩
    rw [label, String.toList_ofList] at read
    split at read
    · rename_i none
      cases read
      exact .plain (Text.splitAt?_none_iff.mp none)
    · rename_i cut
      obtain ⟨rfl, before⟩ := Text.splitAt?_eq_some cut
      cases read
      exact .input before
    · rename_i cut
      obtain ⟨rfl, before⟩ := Text.splitAt?_eq_some cut
      cases read
      exact .output before
    · rename_i cut
      obtain ⟨rfl, before⟩ := Text.splitAt?_eq_some cut
      split at read
      · rename_i parsed
        cases read
        exact .phase before parsed
      · cases read
      · cases read
  · intro labelled
    cases labelled with
    | plain absent => rw [label, String.toList_ofList, Text.splitAt?_absent absent]
    | input absent =>
      rw [label, String.toList_ofList, Text.splitAt?_append absent]
      rfl
    | output absent =>
      rw [label, String.toList_ofList, Text.splitAt?_append absent]
      rfl
    | phase absent read => exact label_phase absent read

theorem last_after {left right : List Char} {c : Char} : (left ++ c :: right).getLast? = some (right.getLast?.getD c) := by
  rw [List.getLast?_append, List.getLast?_cons, Option.some_or]

theorem position?_exact {text : String} {qubit row : Decimal.Signed} :
    position? text = some (qubit, row) ↔ Placed (some text) qubit row := by
  constructor
  · intro read
    obtain ⟨cs, rfl⟩ : ∃ cs, text = String.ofList cs := ⟨text.toList, String.ofList_toList.symm⟩
    obtain ⟨dropped, shape, marks, last⟩ := Text.dropEnd_split (· == '!') cs
    rw [position?, String.toList_ofList] at read
    cases cut : Text.splitAt? ',' (Text.dropEnd (· == '!') cs) with
    | none =>
      rw [cut] at read
      cases read
    | some parts =>
      rw [cut] at read
      obtain ⟨kept, absent⟩ := Text.splitAt?_eq_some cut
      obtain ⟨q, first, read⟩ := Option.bind_eq_some_iff.mp read
      obtain ⟨r, second, read⟩ := Option.bind_eq_some_iff.mp read
      cases read
      have exclamations : dropped = List.replicate dropped.length '!' :=
        List.eq_replicate_iff.mpr ⟨rfl, fun c listed => beq_iff_eq.mp (marks c listed)⟩
      have ending : parts.2.getLast? ≠ some '!' := by
        intro mark
        have unmarked := last '!' (by rw [kept, last_after, mark]; rfl)
        cases unmarked
      rw [shape, kept, exclamations]
      exact .given absent ending first second
  · intro placed
    cases placed with
    | given absent ending first second =>
      rename_i left right marks
      have kept : Text.dropEnd (· == '!') (left ++ ',' :: right ++ List.replicate marks '!') = left ++ ',' :: right := by
        refine Text.dropEnd_append (fun c listed => ?_) fun c last => ?_
        · exact beq_iff_eq.mpr (List.eq_of_mem_replicate listed)
        · rw [last_after] at last
          rw [beq_eq_false_iff_ne]
          rintro rfl
          cases ended : right.getLast? with
          | none =>
            rw [ended] at last
            cases last
          | some c =>
            rw [ended] at last
            cases last
            exact ending ended
      rw [position?, String.toList_ofList, kept, Text.splitAt?_append absent]
      simp only [first, second, Option.bind_eq_bind, Option.bind_some, Option.pure_def]

theorem position_exact {qubit row : Decimal.Signed} : position n value = .ok (qubit, row) ↔ Placed value qubit row := by
  cases value with
  | none =>
    constructor
    · intro read
      cases read
      exact .absent
    · intro placed
      cases placed
      rfl
  | some text =>
    rw [← position?_exact, position]
    cases position? text <;> simp

-- A draft with one more vertex.
def Draft.declared (draft : Draft) (x : Declared) : Draft where
  diagram := draft.diagram.add x.vertex
  ids := draft.ids ++ [(x.file, draft.diagram.fresh)]
  ends := draft.ends ++ x.ends draft.diagram.fresh

def labelOf (n : Nat) : Option String → Except DrawingError (Option Side × Phase)
  | none => .ok (none, .zero)
  | some text => label n text

theorem labelOf_exact {side : Option Side} {phase : Phase} : labelOf n value = .ok (side, phase) ↔ Labelled value side phase := by
  cases value with
  | none =>
    constructor
    · intro read
      cases read
      exact .absent
    · intro labelled
      cases labelled
      rfl
  | some text => exact label_exact

-- The checks of a vertex statement, one after the other.
theorem addVertex_eq : draft.addVertex n attrs =
    if (draft.ids.lookup n).isSome then .error (.duplicateVertex n)
    else vertexColor ((attrs.lookup "color").getD "black") >>= fun kind => labelOf n (attrs.lookup "label") >>= fun said =>
      position n (attrs.lookup "pos") >>= fun place => .ok (draft.declared ⟨n, kind, said.2, said.1, place.1, place.2⟩) := by
  have unmoved : draft.ends ++ [] = draft.ends := List.append_nil _
  unfold Draft.addVertex Draft.declared
  split
  · rfl
  · refine bind_congr fun kind => ?_
    cases attrs.lookup "label" with
    | none =>
      refine Eq.trans (pure_bind _ _) (bind_congr fun place => ?_)
      exact congrArg (fun ends => Except.ok (Draft.mk _ _ ends)) unmoved.symm
    | some text =>
      refine bind_congr fun said => ?_
      obtain ⟨side, phase⟩ := said
      refine bind_congr fun place => ?_
      cases side with
      | none => exact congrArg (fun ends => Except.ok (Draft.mk _ _ ends)) unmoved.symm
      | some side => rfl

theorem addVertex_exact : draft.addVertex n attrs = .ok after ↔
    draft.ids.lookup n = none ∧ ∃ x, Declares n attrs x ∧ after = draft.declared x := by
  rw [addVertex_eq]
  constructor
  · intro read
    split at read
    · cases read
    · rename_i new
      obtain ⟨kind, color, read⟩ := bind_ok.mp read
      obtain ⟨⟨side, phase⟩, said, read⟩ := bind_ok.mp read
      obtain ⟨⟨qubit, row⟩, place, read⟩ := bind_ok.mp read
      cases read
      refine ⟨Option.not_isSome_iff_eq_none.mp new, _, ?_, rfl⟩
      exact ⟨rfl, vertexColor_exact.mp color, labelOf_exact.mp said, position_exact.mp place⟩
  · rintro ⟨new, x, ⟨rfl, color, said, place⟩, rfl⟩
    rw [new]
    refine bind_ok.mpr ⟨_, vertexColor_exact.mpr color, bind_ok.mpr ⟨_, labelOf_exact.mpr said, ?_⟩⟩
    exact bind_ok.mpr ⟨_, position_exact.mpr place, rfl⟩

theorem vertex_exact {v : Nat} : draft.vertex n = .ok v ↔ draft.ids.lookup n = some v := by
  unfold Draft.vertex
  cases draft.ids.lookup n <;> simp

theorem addEdge_exact : draft.addEdge s t attrs = .ok after ↔ ∃ kind a b diagram, Wired (attrs.lookup "color") kind ∧
    draft.ids.lookup s = some a ∧ draft.ids.lookup t = some b ∧ draft.diagram.addEdge a b kind = .ok diagram ∧
      after = { draft with diagram } := by
  constructor
  · intro read
    obtain ⟨kind, color, read⟩ := bind_ok.mp read
    obtain ⟨a, first, read⟩ := bind_ok.mp read
    obtain ⟨b, second, read⟩ := bind_ok.mp read
    obtain ⟨diagram, joined, read⟩ := bind_ok.mp read
    exact ⟨kind, a, b, diagram, edgeColor_exact.mp color, vertex_exact.mp first, vertex_exact.mp second, mapError_ok.mp joined,
      (pure_ok.mp read).symm⟩
  · rintro ⟨kind, a, b, diagram, color, first, second, joined, rfl⟩
    refine bind_ok.mpr ⟨kind, edgeColor_exact.mpr color, bind_ok.mpr ⟨a, vertex_exact.mpr first, ?_⟩⟩
    exact bind_ok.mpr ⟨b, vertex_exact.mpr second, bind_ok.mpr ⟨diagram, mapError_ok.mpr joined, rfl⟩⟩

end ToffoliBench.Drawing
