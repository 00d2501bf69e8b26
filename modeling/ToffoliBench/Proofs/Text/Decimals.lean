import ToffoliBench.Proofs.Numbers.Binary
import ToffoliBench.Proofs.Text.Numerals

namespace ToffoliBench.Decimal

open Text

variable {x : Float}

def Figure (c : Char) : Prop := c.isDigit = true ∨ c = '.'

theorem pointed_figures {cs : List Char} {places : Nat} (figures : ∀ c ∈ cs, Figure c) : ∀ c ∈ pointed cs places, Figure c := by
  have padded : ∀ c ∈ List.replicate (places + 1 - cs.length) '0' ++ cs, Figure c := by
    intro c listed
    rcases List.mem_append.mp listed with zero | old
    · obtain rfl := List.eq_of_mem_replicate zero
      exact .inl rfl
    · exact figures c old
  intro c listed
  unfold pointed at listed
  split at listed
  · exact padded c (List.mem_of_mem_take listed)
  · rcases List.mem_append.mp listed with whole | rest
    · exact padded c (List.mem_of_mem_take whole)
    · rcases List.mem_cons.mp rest with rfl | rest
      · exact .inr rfl
      · exact padded c (List.mem_of_mem_drop rest)

theorem positional_figures (d : Digits) : ∀ c ∈ d.positional, Figure c := by
  have digits : ∀ c ∈ Nat.toDigits 10 d.digits, Figure c := fun c listed => .inl (ofNat_digits c listed)
  intro c listed
  unfold Digits.positional at listed
  split at listed
  · rcases List.mem_append.mp listed with digit | zero
    · exact digits c digit
    · obtain rfl := List.eq_of_mem_replicate zero
      exact .inl rfl
  · exact pointed_figures digits c listed

theorem number_of_finite (finite : x.isFinite = true) : x.isNaN = false ∧ x.isInf = false := by
  have kind : x.toModel.unpack.isFinite = true := finite
  have both : x.isNaN = x.toModel.unpack.isNaN ∧ x.isInf = x.toModel.unpack.isInf := ⟨rfl, rfl⟩
  rw [both.1, both.2]
  cases shape : x.toModel.unpack <;> rw [shape] at kind <;> first | exact ⟨rfl, rfl⟩ | cases kind

theorem chars_eq (finite : x.isFinite = true) :
    chars x = if sign x then '-' :: (if x == 0 then ['0'] else (shortest x.abs).positional)
      else if x == 0 then ['0'] else (shortest x.abs).positional := by
  unfold chars
  rw [(number_of_finite finite).1, (number_of_finite finite).2]
  rfl

-- A finite number is its sign and its figures.
theorem chars_finite (finite : x.isFinite = true) :
    ∃ figures, (∀ c ∈ figures, Figure c) ∧ chars x = if sign x then '-' :: figures else figures := by
  refine ⟨_, fun c listed => ?_, chars_eq finite⟩
  split at listed
  · obtain rfl := List.mem_singleton.mp listed
    exact .inl rfl
  · exact positional_figures _ c listed

-- What does not begin with a sign is read without one.
theorem signed?_figures {cs : List Char} (figures : ∀ c ∈ cs, Figure c) : signed? cs = (magnitude? cs).map (Signed.mk false) := by
  unfold signed?
  split
  · rcases figures '-' List.mem_cons_self with digit | point
    · cases digit
    · cases point
  · rcases figures '+' List.mem_cons_self with digit | point
    · cases digit
    · cases point
  · rfl

theorem chars_numeral (finite : x.isFinite = true) : ∀ c ∈ chars x, Numeral c := by
  obtain ⟨figures, each, text⟩ := chars_finite finite
  have numeral : ∀ c ∈ figures, Numeral c := fun c listed => (each c listed).imp_right .inr
  rw [text]
  split
  · exact List.forall_mem_cons.mpr ⟨.inr (.inl rfl), numeral⟩
  · exact numeral

-- What reads back as the number reads back with its sign.
theorem signed?_chars (finite : x.isFinite = true) (read : float? (chars x) = some x) :
    ∃ s, signed? (chars x) = some s ∧ s.value = x ∧ s.rank = place x := by
  obtain ⟨s, signed, value⟩ := Option.map_eq_some_iff.mp read
  refine ⟨s, signed, value, ?_⟩
  have negative : s.negative = sign x := by
    obtain ⟨figures, each, text⟩ := chars_finite finite
    rw [text] at signed
    cases below : sign x with
    | true =>
      rw [below] at signed
      obtain ⟨_, _, rfl⟩ := Option.map_eq_some_iff.mp signed
      rfl
    | false =>
      rw [below, if_neg Bool.false_ne_true, signed?_figures each] at signed
      obtain ⟨_, _, rfl⟩ := Option.map_eq_some_iff.mp signed
      rfl
  rw [← value]
  exact Signed.rank_eq_place (value.symm ▸ finite) (value.symm ▸ negative)

end ToffoliBench.Decimal
