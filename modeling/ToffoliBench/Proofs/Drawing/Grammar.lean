import ToffoliBench.Drawing.Reading
import ToffoliBench.Proofs.Outcome

namespace ToffoliBench.Drawing

open Outcome

-- What stands between the brackets. As in an item, the attribute written last comes first.
inductive Attributed : List Token → Attributes → Prop where
  | none : Attributed [] []
  | more {key value : String} {token : Token} {comma ts : List Token} {attrs : Attributes} : token.value? = some value →
      comma = [] ∨ comma = [.comma] → Attributed ts attrs →
      Attributed (.identifier key :: .equals :: token :: (comma ++ ts)) (attrs ++ [(key, value)])

inductive Listed : List Token → Attributes → Prop where
  | absent : Listed [] []
  | bracketed {inside : List Token} {attrs : Attributes} : Attributed inside attrs →
      Listed (.openBracket :: (inside ++ [.closeBracket])) attrs

inductive Spells : List Token → Item → Prop where
  | vertex {n : Nat} {list : List Token} {attrs : Attributes} : Listed list attrs → Spells (.id n :: list) (.vertex n attrs)
  | edge {s t : Nat} {list : List Token} {attrs : Attributes} : Listed list attrs →
      Spells (.id s :: .wire :: .id t :: list) (.edge s t attrs)

inductive SpellsAll : List Token → List Item → Prop where
  | nil : SpellsAll [] []
  | semicolon {ts : List Token} {items : List Item} : SpellsAll ts items → SpellsAll (.semicolon :: ts) items
  | cons {first rest : List Token} {item : Item} {items : List Item} : Spells first item → SpellsAll rest items →
      SpellsAll (first ++ rest) (item :: items)

variable {ts inside rest : List Token} {attrs known : Attributes} {item : Item} {items : List Item}
  {draft after : Draft} {n : Nat}

theorem attributesFrom_sound {afterValue : Bool} (read : attributesFrom known afterValue ts = .ok (attrs, rest)) :
    ∃ comma inside new, (comma = [] ∨ afterValue = true ∧ comma = [.comma]) ∧ Attributed inside new ∧
      ts = comma ++ inside ++ .closeBracket :: rest ∧ attrs = new ++ known := by
  fun_induction attributesFrom known afterValue ts with
  | case1 =>
    cases read
    exact ⟨[], [], [], .inl rfl, .none, rfl, rfl⟩
  | case2 known ts ih =>
    obtain ⟨comma, inside, new, before, written, shape, result⟩ := ih read
    cases before with
    | inl none => exact ⟨[.comma], inside, new, .inr ⟨rfl, rfl⟩, written, by rw [shape, none]; rfl, result⟩
    | inr other => cases other.1
  | case4 known afterValue key token ts value taken ih =>
    obtain ⟨comma, inside, new, before, written, shape, result⟩ := ih read
    have optional : comma = [] ∨ comma = [.comma] := before.imp_right And.right
    exact ⟨[], _, new ++ [(key, value)], .inl rfl, .more taken optional written, by simp [shape], by simp [result]⟩
  | _ => cases read

theorem attributesFrom_complete (written : Attributed inside attrs) (known : Attributes) (afterValue : Bool) :
    attributesFrom known afterValue (inside ++ .closeBracket :: rest) = .ok (attrs ++ known, rest) := by
  induction written generalizing known afterValue with
  | none => simp [attributesFrom]
  | more taken optional _ ih =>
    simp only [List.cons_append, attributesFrom, taken, List.append_assoc, List.nil_append]
    cases optional with
    | inl none => rw [none, List.nil_append, ih]
    | inr one =>
      simp only [one, List.cons_append, List.nil_append, attributesFrom, if_true]
      rw [ih]

theorem attributes_sound (read : attributes ts = .ok (attrs, rest)) : ∃ list, Listed list attrs ∧ ts = list ++ rest := by
  unfold attributes at read
  split at read
  · obtain ⟨comma, inside, new, before, written, shape, result⟩ := attributesFrom_sound read
    cases before with
    | inl none =>
      rw [List.append_nil] at result
      exact ⟨_, .bracketed (result ▸ written), by simp [shape, none]⟩
    | inr other => cases other.1
  · cases read
    exact ⟨[], .absent, rfl⟩

-- A list that is left out is missed only where no bracket opens.
theorem attributes_complete (written : Listed ts attrs) (stops : ts = [] → rest.head? ≠ some .openBracket) :
    attributes (ts ++ rest) = .ok (attrs, rest) := by
  cases written with
  | absent =>
    rw [List.nil_append]
    unfold attributes
    split
    · exact absurd rfl (stops rfl)
    · rfl
  | bracketed inside =>
    rw [List.cons_append, List.append_assoc, attributes, List.singleton_append, attributesFrom_complete inside, List.append_nil]

theorem statement_sound (read : statement n ts = .ok (item, rest)) : ∃ first, Spells (.id n :: first) item ∧ ts = first ++ rest := by
  unfold statement at read
  split at read
  · split at read
    · obtain ⟨⟨attrs, rest'⟩, list, made⟩ := bind_ok.mp read
      cases made
      obtain ⟨ts, written, shape⟩ := attributes_sound list
      exact ⟨_, .edge written, by simp [shape]⟩
    · cases read
  · obtain ⟨⟨attrs, rest'⟩, list, made⟩ := bind_ok.mp read
    cases made
    obtain ⟨ts, written, shape⟩ := attributes_sound list
    exact ⟨_, .vertex written, shape⟩

-- What may follow a statement without being a part of it.
def Stops (rest : List Token) : Prop := rest.head? ≠ some .openBracket ∧ rest.head? ≠ some .wire

theorem statement_complete (spelled : Spells (.id n :: ts) item) (stops : Stops rest) : statement n (ts ++ rest) = .ok (item, rest) := by
  cases spelled with
  | vertex written =>
    have list := attributes_complete written (fun _ => stops.1)
    unfold statement
    split
    · rename_i wire
      cases written with
      | absent => exact absurd (congrArg List.head? wire) stops.2
      | bracketed _ => cases wire
    · exact bind_ok.mpr ⟨_, list, rfl⟩
  | edge written => exact bind_ok.mpr ⟨_, attributes_complete written fun _ => stops.1, rfl⟩

theorem SpellsAll.stops (spelled : SpellsAll inside items) (stops : Stops rest) : Stops (inside ++ rest) := by
  cases spelled with
  | nil => exact stops
  | semicolon _ => exact ⟨nofun, nofun⟩
  | cons first _ => cases first <;> exact ⟨nofun, nofun⟩

theorem body_statement (read : statement n ts = .ok (item, rest)) (done : draft.carryOut item = .ok after) :
    body draft (.id n :: ts) = body after rest := by
  rw [body]
  split
  · rename_i error stop
    rw [read] at stop
    cases stop
  · rename_i read'
    rw [read] at read'
    cases read'
    rw [done]

theorem body_sound (read : body draft ts = .ok after) : ∃ inside items rest, SpellsAll inside items ∧
    ts = inside ++ .closeBrace :: rest ∧ items.foldlM Draft.carryOut draft = .ok after := by
  fun_induction body draft ts with
  | case1 draft ts =>
    cases read
    exact ⟨[], [], ts, .nil, rfl, rfl⟩
  | case2 draft ts ih =>
    obtain ⟨inside, items, rest, spelled, shape, done⟩ := ih read
    exact ⟨_, items, rest, .semicolon spelled, by simp [shape], done⟩
  | case5 draft n ts item rest' first _ middle done ih =>
    obtain ⟨inside, items, rest, spelled, shape, others⟩ := ih read
    obtain ⟨before, one, split⟩ := statement_sound first
    refine ⟨_, _, rest, .cons one spelled, by simp [split, shape], ?_⟩
    rw [List.foldlM_cons]
    exact bind_ok.mpr ⟨middle, done, others⟩
  | _ => cases read

-- The items that come first are carried out first, whatever follows them.
theorem body_run (spelled : SpellsAll inside items) (done : items.foldlM Draft.carryOut draft = .ok after) (stops : Stops rest) :
    body draft (inside ++ rest) = body after rest := by
  induction spelled generalizing draft with
  | nil =>
    cases done
    rfl
  | semicolon _ ih =>
    rw [List.cons_append, body]
    exact ih done
  | cons first others ih =>
    rw [List.foldlM_cons] at done
    obtain ⟨middle, one, done⟩ := bind_ok.mp done
    rw [← ih done, List.append_assoc]
    cases first with
    | vertex written => exact body_statement (statement_complete (.vertex written) (others.stops stops)) one
    | edge written => exact body_statement (statement_complete (.edge written) (others.stops stops)) one

theorem body_complete (spelled : SpellsAll inside items) (done : items.foldlM Draft.carryOut draft = .ok after) :
    body draft (inside ++ .closeBrace :: rest) = .ok after := by
  have stops : Stops (.closeBrace :: rest) := ⟨nofun, nofun⟩
  rw [body_run spelled done stops, body]

-- The number of a vertex stands in the text.
theorem Spells.number (spelled : Spells ts (.vertex n attrs)) : Token.id n ∈ ts := by
  cases spelled
  exact List.mem_cons_self

theorem SpellsAll.number (spelled : SpellsAll inside items) (listed : Item.vertex n attrs ∈ items) : Token.id n ∈ inside := by
  induction spelled with
  | nil => cases listed
  | semicolon _ ih => exact List.mem_cons_of_mem _ (ih listed)
  | cons one _ ih =>
    rcases List.mem_cons.mp listed with rfl | later
    · exact List.mem_append_left _ one.number
    · exact List.mem_append_right _ (ih later)

end ToffoliBench.Drawing
