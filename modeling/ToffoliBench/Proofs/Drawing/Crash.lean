import ToffoliBench.Proofs.Drawing.Acceptance
import ToffoliBench.Proofs.Numbers.Overflow

namespace ToffoliBench.Drawing

open Outcome

variable {draft after : Draft} {ts rest : List Token} {e : DrawingError} {f : Fault} {n s t : Nat} {attrs : Attributes}
  {value : Option String} {item : Item}

-- Is it an error of the text itself, whatever the diagram would say to it?
def textual : DrawingError → Bool
  | .diagram _ => false
  | _ => true

theorem scan_textual {offset : Nat} {cs : List Char} (stopped : Token.scan offset cs = .error e) : textual e = true := by
  fun_induction Token.scan offset cs with
  | case1 => cases stopped
  | case2 _ _ _ _ _ _ ih => exact ih stopped
  | case3 offset c rest taken next t shape ih =>
    cases more : Token.scan next (rest.drop (Token.extent c rest)) with
    | ok ts =>
      rw [more] at stopped
      cases stopped
    | error e' =>
      rw [more] at stopped
      cases stopped
      exact ih more
  | case4 =>
    cases stopped
    rfl

theorem attributesFrom_textual {known : Attributes} {afterValue : Bool} (stopped : attributesFrom known afterValue ts = .error e) :
    textual e = true := by
  fun_induction attributesFrom known afterValue ts with
  | case1 => cases stopped
  | case2 _ _ ih => exact ih stopped
  | case4 _ _ _ _ _ _ _ ih => exact ih stopped
  | case7 _ _ _ rest =>
    cases stopped
    cases rest <;> rfl
  | _ =>
    cases stopped
    rfl

theorem attributes_textual (stopped : attributes ts = .error e) : textual e = true := by
  unfold attributes at stopped
  split at stopped
  · exact attributesFrom_textual stopped
  · cases stopped

theorem statement_textual (stopped : statement n ts = .error e) : textual e = true := by
  unfold statement at stopped
  split at stopped
  · rename_i more
    split at stopped
    · cases bind_error.mp stopped with
      | inl list => exact attributes_textual list
      | inr made => cases made.choose_spec.2
    · cases stopped
      cases more <;> rfl
  · cases bind_error.mp stopped with
    | inl list => exact attributes_textual list
    | inr made => cases made.choose_spec.2

-- The reader stops at the text, or where the next item is refused.
theorem body_stopped (stopped : body draft ts = .error e) : textual e = true ∨ ∃ before items middle n more item rest,
    SpellsAll before items ∧ ts = before ++ .id n :: more ∧ items.foldlM Draft.carryOut draft = .ok middle ∧
      statement n more = .ok (item, rest) ∧ middle.carryOut item = .error e := by
  fun_induction body draft ts with
  | case1 => cases stopped
  | case2 draft ts ih =>
    cases ih stopped with
    | inl early => exact .inl early
    | inr refused =>
      obtain ⟨before, items, middle, n, more, item, rest, spelled, shape, done, read, refused⟩ := refused
      exact .inr ⟨_, items, middle, n, more, item, rest, .semicolon spelled, by rw [shape]; rfl, done, read, refused⟩
  | case3 _ _ _ e' read =>
    cases stopped
    exact .inl (statement_textual read)
  | case4 draft n ts item rest read _ e' refused =>
    cases stopped
    exact .inr ⟨[], [], draft, n, ts, item, rest, .nil, rfl, rfl, read, refused⟩
  | case5 draft n ts item rest' first _ middle done ih =>
    cases ih stopped with
    | inl early => exact .inl early
    | inr refused =>
      obtain ⟨before, items, last, m, more, item', rest, spelled, shape, others, read, refused⟩ := refused
      obtain ⟨opening, one, split⟩ := statement_sound first
      refine .inr ⟨_, _, last, m, more, item', rest, .cons one spelled, by simp [split, shape], ?_, read, refused⟩
      rw [List.foldlM_cons]
      exact bind_ok.mpr ⟨middle, done, others⟩
  | _ =>
    cases stopped
    exact .inl rfl

-- A label that spells, after its first colon, a fraction no phase can be made of.
def Overfull (text : String) : Prop := ∃ before cs n d, text = String.ofList (before ++ ':' :: cs) ∧ ':' ∉ before ∧
  Phase.Spelled cs n d ∧ Phase.Overflows n d

theorem label_fault {text : String} : label n text = .error (.diagram (.fault f)) ↔ f = .overflow ∧ Overfull text := by
  constructor
  · intro stopped
    obtain ⟨cs, rfl⟩ : ∃ cs, text = String.ofList cs := ⟨text.toList, String.ofList_toList.symm⟩
    rw [label, String.toList_ofList] at stopped
    split at stopped
    · cases stopped
    · cases stopped
    · cases stopped
    · rename_i cut
      obtain ⟨rfl, before⟩ := Text.splitAt?_eq_some cut
      split at stopped
      · cases stopped
      · rename_i parsed
        cases stopped
        obtain ⟨kind, n, d, spelled, large⟩ := Phase.parse_fault_iff.mp parsed
        exact ⟨kind, _, _, n, d, rfl, before, spelled, large⟩
      · cases stopped
  · rintro ⟨rfl, before, cs, m, d, rfl, absent, spelled, large⟩
    have parsed := Phase.parse_fault_iff.mpr ⟨rfl, m, d, spelled, large⟩
    rw [label, String.toList_ofList, Text.splitAt?_append absent]
    split
    · rename_i none
      cases none
    · rename_i letter
      cases letter
      cases parsed
    · rename_i letter
      cases letter
      cases parsed
    · rename_i cut
      cases cut
      rw [parsed]

theorem position_textual (stopped : position n value = .error e) : textual e = true := by
  unfold position at stopped
  split at stopped
  · cases stopped
  · split at stopped
    · cases stopped
    · cases stopped
      rfl

theorem vertexColor_textual {color : String} (stopped : vertexColor color = .error e) : textual e = true := by
  unfold vertexColor at stopped
  split at stopped <;> cases stopped
  rfl

theorem edgeColor_textual (stopped : edgeColor value = .error e) : textual e = true := by
  unfold edgeColor at stopped
  split at stopped <;> cases stopped
  rfl

theorem addVertex_fault : draft.addVertex n attrs = .error (.diagram (.fault f)) ↔ draft.ids.lookup n = none ∧
    ∃ kind text, Colored (attrs.lookup "color") kind ∧ attrs.lookup "label" = some text ∧ f = .overflow ∧ Overfull text := by
  rw [addVertex_eq]
  constructor
  · intro stopped
    split at stopped
    · cases stopped
    · rename_i new
      refine ⟨Option.not_isSome_iff_eq_none.mp new, ?_⟩
      cases bind_error.mp stopped with
      | inl color => cases vertexColor_textual color
      | inr colored =>
        obtain ⟨kind, color, stopped⟩ := colored
        cases bind_error.mp stopped with
        | inl said =>
          cases written : attrs.lookup "label" with
          | none =>
            rw [written] at said
            cases said
          | some text =>
            rw [written] at said
            exact ⟨kind, text, vertexColor_exact.mp color, rfl, label_fault.mp said⟩
        | inr said =>
          obtain ⟨_, _, stopped⟩ := said
          cases bind_error.mp stopped with
          | inl place => cases position_textual place
          | inr placed => cases placed.choose_spec.2
  · rintro ⟨new, kind, text, color, written, large⟩
    rw [new, written]
    refine bind_error.mpr (.inr ⟨kind, vertexColor_exact.mpr color, bind_error.mpr (.inl ?_)⟩)
    exact label_fault.mpr large

theorem vertex_textual (stopped : draft.vertex n = .error e) : textual e = true := by
  unfold Draft.vertex at stopped
  split at stopped
  · cases stopped
  · cases stopped
    rfl

theorem diagram_addEdge_faultless {d : Diagram} {a b : Nat} {kind : EdgeKind} : d.addEdge a b kind ≠ .error (.fault f) := by
  unfold Diagram.addEdge
  repeat' split
  all_goals exact nofun

theorem addEdge_faultless (stopped : draft.addEdge s t attrs = .error e) : e ≠ .diagram (.fault f) := by
  intro same
  subst same
  cases bind_error.mp stopped with
  | inl color => cases edgeColor_textual color
  | inr colored =>
    obtain ⟨_, _, stopped⟩ := colored
    cases bind_error.mp stopped with
    | inl first => cases vertex_textual first
    | inr found =>
      obtain ⟨_, _, stopped⟩ := found
      cases bind_error.mp stopped with
      | inl second => cases vertex_textual second
      | inr found =>
        obtain ⟨_, _, stopped⟩ := found
        cases bind_error.mp stopped with
        | inl joining =>
          obtain ⟨cause, refused, same⟩ := mapError_error.mp joining
          cases same
          exact diagram_addEdge_faultless refused
        | inr joined => cases joined.choose_spec.2

-- Where the reader fails without an error of its own: at a vertex it has come to without any fault.
def CrashesAt (ts : List Token) : Prop := ∃ before first rest items sheet n attrs kind text, ts = before ++ first ++ rest ∧
  SpellsAll before items ∧ TakesAll {} items sheet ∧ Spells first (.vertex n attrs) ∧ n ∉ sheet.files ∧
    Colored (attrs.lookup "color") kind ∧ attrs.lookup "label" = some text ∧ Overfull text

def Crashes (source : String) : Prop := ∃ ts, tokens source.toList = .ok (.graph :: .openBrace :: ts) ∧ CrashesAt ts

theorem expect_textual {wanted : Token} (stopped : expect wanted ts = .error e) : textual e = true := by
  unfold expect at stopped
  split at stopped
  · split at stopped
    · cases stopped
    · cases stopped
      rfl
  · cases stopped
    rfl

theorem body_refused (read : statement n ts = .ok (item, rest)) (refused : draft.carryOut item = .error e) :
    body draft (.id n :: ts) = .error e := by
  rw [body]
  split
  · rename_i stop
    rw [read] at stop
    cases stop
  · rename_i read'
    rw [read] at read'
    cases read'
    rw [refused]

-- A list of attributes that is there ends at its bracket.
theorem statement_labelled {first : List Token} {text : String} (spelled : Spells first (.vertex n attrs))
    (written : attrs.lookup "label" = some text) (rest : List Token) :
    ∃ list, first = .id n :: list ∧ statement n (list ++ rest) = .ok (.vertex n attrs, rest) := by
  cases spelled with
  | vertex listed =>
    cases listed with
    | absent => cases written
    | bracketed inside =>
      have list := attributes_complete (.bracketed inside) (nofun : _ :: _ = [] → rest.head? ≠ some .openBracket)
      exact ⟨_, rfl, bind_ok.mpr ⟨_, list, rfl⟩⟩

theorem body_fault_iff : body {} ts = .error (.diagram (.fault f)) ↔ f = .overflow ∧ CrashesAt ts := by
  constructor
  · intro stopped
    cases body_stopped stopped with
    | inl early => cases early
    | inr refused =>
      obtain ⟨before, items, middle, n, more, item, rest, spelled, rfl, done, read, refused⟩ := refused
      obtain ⟨sheet, taken, holds⟩ := holds_empty.run_sound done
      obtain ⟨list, first, rfl⟩ := statement_sound read
      cases item with
      | edge s t attrs => exact absurd rfl (addEdge_faultless refused)
      | vertex m attrs =>
        obtain ⟨new, kind, text, color, written, same, large⟩ := addVertex_fault.mp refused
        exact ⟨same, before, _, rest, items, sheet, m, attrs, kind, text, by simp, spelled, taken, first, holds.lookup_none.mp new,
          color, written, large⟩
  · rintro ⟨rfl, before, first, rest, items, sheet, n, attrs, kind, text, rfl, spelled, taken, one, new, color, written, large⟩
    obtain ⟨middle, done, holds⟩ := holds_empty.run_complete taken
    obtain ⟨list, rfl, read⟩ := statement_labelled one written rest
    have refused : middle.carryOut (.vertex n attrs) = .error (.diagram (.fault .overflow)) :=
      addVertex_fault.mpr ⟨holds.lookup_none.mpr new, kind, text, color, written, rfl, large⟩
    have stops : Stops (.id n :: list ++ rest) := ⟨nofun, nofun⟩
    rw [List.append_assoc, body_run spelled done stops]
    exact body_refused read refused

theorem readTokens_stopped (stopped : readTokens ts = .error e) :
    textual e = true ∨ ∃ more, ts = .graph :: .openBrace :: more ∧ body {} more = .error e := by
  cases bind_error.mp stopped with
  | inl graph => exact .inl (expect_textual graph)
  | inr opened =>
    obtain ⟨_, graph, stopped⟩ := opened
    cases bind_error.mp stopped with
    | inl brace => exact .inl (expect_textual brace)
    | inr inside =>
      obtain ⟨more, brace, stopped⟩ := inside
      cases bind_error.mp stopped with
      | inl refused => exact .inr ⟨more, by rw [expect_ok.mp graph, expect_ok.mp brace], refused⟩
      | inr done => cases done.choose_spec.2

-- Exactly the texts with an overfull label, if nothing before it is wrong, make the reader fail so.
theorem read_fault_iff (source : String) (f : Fault) :
    read source = .error (.diagram (.fault f)) ↔ f = .overflow ∧ Crashes source := by
  constructor
  · intro stopped
    cases bind_error.mp stopped with
    | inl scanning => cases scan_textual scanning
    | inr scanned =>
      obtain ⟨ts, scanned, stopped⟩ := scanned
      cases readTokens_stopped stopped with
      | inl early => cases early
      | inr inside =>
        obtain ⟨more, rfl, refused⟩ := inside
        obtain ⟨same, crashes⟩ := body_fault_iff.mp refused
        exact ⟨same, more, scanned, crashes⟩
  · rintro ⟨rfl, ts, scanned, crashes⟩
    have stopped := body_fault_iff.mpr ⟨rfl, crashes⟩
    refine bind_error.mpr (.inr ⟨_, scanned, ?_⟩)
    refine bind_error.mpr (.inr ⟨_, expect_ok.mpr rfl, bind_error.mpr (.inr ⟨_, expect_ok.mpr rfl, ?_⟩)⟩)
    exact bind_error.mpr (.inl stopped)

-- The least fraction of a half turn that can be written with 64 bits.
def smallest : String := "graph \x7b 0 [label=\"0:1/9223372036854775807\"] \x7d"

theorem read_smallest : read smallest = .error (.diagram (.fault .overflow)) := by
  have stopped : (match read smallest with
      | .error e => decide (e = .diagram (.fault .overflow))
      | .ok _ => false) = true := by decide +kernel
  cases outcome : read smallest with
  | error e =>
    rw [outcome] at stopped
    rw [of_decide_eq_true stopped]
  | ok drawn =>
    rw [outcome] at stopped
    cases stopped

end ToffoliBench.Drawing
