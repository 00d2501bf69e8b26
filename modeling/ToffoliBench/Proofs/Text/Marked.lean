import ToffoliBench.Proofs.Text.Rereading
import ToffoliBench.Yaml.Scalar

namespace ToffoliBench.Decimal

open Text

variable {x : Float} {cs whole places power : List Char}

-- The digits in front of an exponent, with a point behind the first of them or none.
theorem unsigned?_power {e : ℤ} (left : ∀ c ∈ whole, c.isDigit = true) (some_ : whole ≠ []) (read : int? power = some e) :
    unsigned? (whole ++ 'e' :: power) = some (ofDecimal (digitsValue whole) e) := by
  have front : (whole ++ 'e' :: power).takeWhile Char.isDigit = whole := by
    rw [List.takeWhile_append_of_pos left]
    simp
  have back : (whole ++ 'e' :: power).dropWhile Char.isDigit = 'e' :: power := by
    rw [List.dropWhile_append_of_pos left]
    simp
  unfold unsigned?
  rw [front, back]
  simp [some_, exponent?, read]

theorem unsigned?_point_power {e : ℤ} (left : ∀ c ∈ whole, c.isDigit = true) (right : ∀ c ∈ places, c.isDigit = true) (some_ : whole ≠ [])
    (read : int? power = some e) :
    unsigned? (whole ++ '.' :: (places ++ 'e' :: power)) = some (ofDecimal (digitsValue (whole ++ places)) (e - places.length)) := by
  have front : (whole ++ '.' :: (places ++ 'e' :: power)).takeWhile Char.isDigit = whole := by
    rw [List.takeWhile_append_of_pos left]
    simp
  have back : (whole ++ '.' :: (places ++ 'e' :: power)).dropWhile Char.isDigit = '.' :: (places ++ 'e' :: power) := by
    rw [List.dropWhile_append_of_pos left]
    simp
  have inner : (places ++ 'e' :: power).takeWhile Char.isDigit = places := by
    rw [List.takeWhile_append_of_pos right]
    simp
  have rest : (places ++ 'e' :: power).dropWhile Char.isDigit = 'e' :: power := by
    rw [List.dropWhile_append_of_pos right]
    simp
  unfold unsigned?
  rw [front, back]
  simp [inner, rest, some_, exponent?, read]

theorem int?_power (e : ℤ) : int? (if e < 0 then '-' :: Nat.toDigits 10 e.natAbs else Nat.toDigits 10 e.natAbs) = some e := by
  have same : (if e < 0 then '-' :: Nat.toDigits 10 e.natAbs else Nat.toDigits 10 e.natAbs) = ofInt e := by
    cases e with
    | ofNat n => rfl
    | negSucc n => rw [if_pos (Int.negSucc_lt_zero n)]; rfl
  rw [same, int?_ofInt]

-- One digit, and the others behind the point.
theorem unsigned?_pointed {e : ℤ} (digits : ∀ c ∈ cs, c.isDigit = true) (some_ : cs ≠ []) (read : int? power = some e) :
    unsigned? (pointed cs (cs.length - 1) ++ 'e' :: power) = some (ofDecimal (digitsValue cs) (e - (cs.length - 1 : ℕ))) := by
  have long := List.length_pos_iff.mpr some_
  have unpadded : cs.length - 1 + 1 - cs.length = 0 := by omega
  have first : cs.length - (cs.length - 1) = 1 := by omega
  unfold pointed
  dsimp only
  rw [unpadded, List.replicate_zero, List.nil_append, first]
  split
  · rename_i single
    have all : cs.take 1 = cs := List.take_of_length_le (by omega)
    rw [all, single, unsigned?_power digits some_ read, Nat.cast_zero, sub_zero]
  · have head : cs.take 1 ≠ [] := List.ne_nil_of_length_pos (by rw [List.length_take]; omega)
    rw [List.append_assoc, List.cons_append, unsigned?_point_power (fun c listed => digits c (List.mem_of_mem_take listed))
      (fun c listed => digits c (List.mem_of_mem_drop listed)) head read, List.take_append_drop, List.length_drop]

theorem unsigned?_marked (d : Digits) : ∃ n e, unsigned? d.marked = some (ofDecimal n e) ∧ (n : ℚ) * 10 ^ e = d.value := by
  have digits : ∀ c ∈ Nat.toDigits 10 d.digits, c.isDigit = true := @ofNat_digits d.digits
  have value : digitsValue (Nat.toDigits 10 d.digits) = d.digits := digitsValue_ofNat d.digits
  have some_ : Nat.toDigits 10 d.digits ≠ [] := Nat.toDigits_ne_nil
  have long := List.length_pos_iff.mpr some_
  unfold Digits.marked
  dsimp only
  split
  · rename_i whole
    have up : 0 ≤ d.exponent := by simp at whole; exact whole.1
    have zeros : ∀ c ∈ List.replicate d.exponent.natAbs '0', c.isDigit = true := by
      intro c listed
      rw [List.eq_of_mem_replicate listed]
      rfl
    have power : (10 : ℚ) ^ d.exponent = 10 ^ d.exponent.natAbs := zpow_up (by omega)
    have tenth : ∀ c ∈ ['0'], c.isDigit = true := List.forall_mem_singleton.mpr rfl
    have all := List.forall_mem_append.mpr ⟨digits, zeros⟩
    have same : digitsValue (Nat.toDigits 10 d.digits ++ List.replicate d.exponent.natAbs '0') = d.digits * 10 ^ d.exponent.natAbs := by
      rw [digitsValue_append, value, digitsValue_zeros, List.length_replicate, Nat.add_zero]
    have filled : Nat.toDigits 10 d.digits ++ List.replicate d.exponent.natAbs '0' ≠ [] := List.append_ne_nil_of_left_ne_nil some_ _
    rw [Digits.positional, if_pos up]
    generalize Nat.toDigits 10 d.digits ++ List.replicate d.exponent.natAbs '0' = written at all same filled ⊢
    refine ⟨_, _, unsigned?_point all tenth filled, ?_⟩
    rw [digitsValue_append, same, Digits.value, power]
    have last : digitsValue ['0'] = 0 := rfl
    rw [last, List.length_singleton]
    push_cast
    ring
  · split
    · exact unsigned?_positional d
    · refine ⟨_, _, unsigned?_pointed digits some_ (int?_power _), ?_⟩
      rw [value, Digits.value]
      congr 2
      omega

theorem pointed_digit {n : ℕ} (digits : ∀ c ∈ cs, c.isDigit = true) : ∃ c rest, pointed cs n = c :: rest ∧ c.isDigit = true := by
  have long : n < (List.replicate (n + 1 - cs.length) '0' ++ cs).length := by
    rw [List.length_append, List.length_replicate]
    omega
  have all : ∀ c ∈ List.replicate (n + 1 - cs.length) '0' ++ cs, c.isDigit = true := by
    refine List.forall_mem_append.mpr ⟨fun c listed => ?_, digits⟩
    rw [List.eq_of_mem_replicate listed]
    rfl
  unfold pointed
  dsimp only
  generalize List.replicate (n + 1 - cs.length) '0' ++ cs = padded at long all ⊢
  obtain ⟨c, rest, shape⟩ := List.exists_cons_of_ne_nil (List.ne_nil_of_length_pos (by omega) : padded ≠ [])
  obtain ⟨m, one⟩ : ∃ m, padded.length - n = m + 1 := ⟨padded.length - n - 1, by omega⟩
  have digit := all c (by rw [shape]; exact List.mem_cons_self)
  rw [one, shape, List.take_succ_cons]
  split
  · exact ⟨c, _, rfl, digit⟩
  · exact ⟨c, _, rfl, digit⟩

theorem positional_digit (d : Digits) : ∃ c rest, d.positional = c :: rest ∧ c.isDigit = true := by
  have digits : ∀ c ∈ Nat.toDigits 10 d.digits, c.isDigit = true := @ofNat_digits d.digits
  unfold Digits.positional
  dsimp only
  split
  · obtain ⟨c, rest, shape, digit⟩ := ofNat_cons d.digits
    rw [ofNat] at shape
    rw [shape]
    exact ⟨c, _, rfl, digit⟩
  · exact pointed_digit digits

theorem marked_digit (d : Digits) : ∃ c rest, d.marked = c :: rest ∧ c.isDigit = true := by
  unfold Digits.marked
  dsimp only
  split
  · obtain ⟨c, rest, shape, digit⟩ := positional_digit d
    rw [shape]
    exact ⟨c, _, rfl, digit⟩
  · split
    · exact positional_digit d
    · obtain ⟨c, rest, shape, digit⟩ := pointed_digit (n := (Nat.toDigits 10 d.digits).length - 1) (@ofNat_digits d.digits)
      rw [ofNat] at shape
      rw [shape]
      exact ⟨c, _, rfl, digit⟩

theorem marked_chars (d : Digits) : ∀ c ∈ d.marked, Figure c ∨ c = 'e' ∨ c = '-' := by
  have digits {n : ℕ} : ∀ c ∈ Nat.toDigits 10 n, Figure c := fun c listed => .inl (ofNat_digits c listed)
  have power {e : ℤ} : ∀ c ∈ (if e < 0 then '-' :: Nat.toDigits 10 e.natAbs else Nat.toDigits 10 e.natAbs), Figure c ∨ c = 'e' ∨ c = '-' := by
    split
    · exact List.forall_mem_cons.mpr ⟨.inr (.inr rfl), fun c listed => .inl (digits c listed)⟩
    · exact fun c listed => .inl (digits c listed)
  unfold Digits.marked
  dsimp only
  split
  · refine List.forall_mem_append.mpr ⟨fun c listed => .inl (positional_figures d c listed), ?_⟩
    exact List.forall_mem_cons.mpr ⟨.inl (.inr rfl), List.forall_mem_singleton.mpr (.inl (.inl rfl))⟩
  · split
    · exact fun c listed => .inl (positional_figures d c listed)
    · refine List.forall_mem_append.mpr ⟨fun c listed => .inl (pointed_figures digits c listed), ?_⟩
      exact List.forall_mem_cons.mpr ⟨.inr (.inl rfl), power⟩

-- What begins with a digit is no word and has no sign.
theorem float?_digit {c : Char} {rest : List Char} (digit : c.isDigit = true) : float? (c :: rest) = unsigned? (c :: rest) := by
  have other {d : Char} (wild : d.isDigit = false) : c ≠ d := by
    rintro rfl
    rw [digit] at wild
    cases wild
  have kept : c.toLower = c := Figure.lower (.inl digit)
  have word {d : Char} {ds : List Char} (wild : d.isDigit = false) : lower (c :: rest) ≠ d :: ds := by
    intro same
    rw [lower, List.map_cons, kept] at same
    exact other wild (List.cons.inj same).1
  have plain : signed? (c :: rest) = (magnitude? (c :: rest)).map (Signed.mk false) := by
    unfold signed?
    split
    · exact absurd (List.cons.inj ‹_›).1 (other rfl)
    · exact absurd (List.cons.inj ‹_›).1 (other rfl)
    · rfl
  have words : lower (c :: rest) ≠ "inf".toList ∧ lower (c :: rest) ≠ "infinity".toList ∧ lower (c :: rest) ≠ "nan".toList :=
    ⟨word (d := 'i') rfl, word (d := 'i') rfl, word (d := 'n') rfl⟩
  have number : magnitude? (c :: rest) = unsigned? (c :: rest) := by
    rw [magnitude?, if_neg (not_or.mpr ⟨words.1, words.2.1⟩), if_neg words.2.2]
  rw [float?, plain, number]
  cases unsigned? (c :: rest) <;> rfl

theorem yamlFloat?_digit {c : Char} {rest : List Char} (digit : c.isDigit = true) :
    Yaml.float? (String.ofList (c :: rest)) = (float? (c :: rest)).filter (·.isFinite) := by
  have other {d : Char} (wild : d.isDigit = false) : c ≠ d := by
    rintro rfl
    rw [digit] at wild
    cases wild
  have text {s : String} {d : Char} {ds : List Char} (shape : s.toList = d :: ds) (wild : d.isDigit = false) :
      (String.ofList (c :: rest) == s) = false := by
    refine beq_false_of_ne fun same => other wild ?_
    rw [← same, String.toList_ofList] at shape
    exact (List.cons.inj shape).1
  unfold Yaml.float?
  rw [String.toList_ofList]
  split
  · exact absurd (List.cons.inj ‹_›).1 (other rfl)
  · exact absurd (List.cons.inj ‹_›).1 (other rfl)
  · exact absurd (List.cons.inj ‹_›).1 (other rfl)
  · dsimp only
    rw [text (s := ".inf") rfl rfl, text (s := ".Inf") rfl rfl, text (s := ".INF") rfl rfl, text (s := "-.inf") rfl rfl,
      text (s := "-.Inf") rfl rfl, text (s := "-.INF") rfl rfl, text (s := ".nan") rfl rfl, text (s := ".NaN") rfl rfl,
      text (s := ".NAN") rfl rfl]
    rfl

-- Nothing that is no number, or beyond all numbers, lies between two others.
theorem finite_between {y z : Float} (low : y < x) (high : x < z) : x.isFinite = true := by
  rw [lt_iff_compare] at low high
  have kind : x.isFinite = x.toModel.unpack.isFinite := rfl
  rw [kind]
  generalize x.toModel.unpack = u at low high ⊢
  generalize y.toModel.unpack = v at low
  generalize z.toModel.unpack = w at high
  cases u with
  | notANumber => cases v <;> cases low
  | infinity s =>
    cases s with
    | positive =>
      cases w with
      | infinity t => cases t <;> cases high
      | notANumber => cases high
      | zero t => cases high
      | finite t m e some_ => cases high
    | negative =>
      cases v with
      | infinity t => cases t <;> cases low
      | notANumber => cases low
      | zero t => cases low
      | finite t m e some_ => cases t <;> cases low
  | zero s => rfl
  | finite s m e some_ => rfl

theorem positive_bits (finite : x.isFinite = true) (positive : 0 < x) : 0 < x.toBits.toNat ∧ x.toBits.toNat < 2 ^ 63 := by
  have plain : x ≠ -0 := by
    rintro rfl
    exact absurd positive (by decide)
  have none : place 0 = 0 := by decide
  have above := (lt_iff_place (by decide) finite (by decide) plain).mp positive
  have bound := UInt64.toNat_lt x.toBits
  rw [none, place] at above
  split at above <;> omega

theorem marked_positive (finite : x.isFinite = true) (positive : 0 < x) : marked x = String.ofList (shortest x.abs).marked := by
  obtain ⟨some_, low⟩ := positive_bits finite positive
  have plain : x ≠ -0 := by
    rintro rfl
    exact absurd positive (by decide)
  have nonzero : (x == 0) = false := by
    rw [← Bool.not_eq_true]
    intro zero
    rw [eq_zero_of_beq finite plain zero] at some_
    exact absurd some_ (by decide)
  have unsigned : sign x = false := by
    rw [← Bool.not_eq_true, sign_iff]
    omega
  rw [marked, (number_of_finite finite).1, (number_of_finite finite).2, nonzero, unsigned]
  rfl

theorem float?_marked (finite : x.isFinite = true) (positive : 0 < x) : Yaml.float? (marked x) = some x := by
  obtain ⟨some_, low⟩ := positive_bits finite positive
  obtain ⟨n, e, read, value⟩ := unsigned?_marked (shortest x.abs)
  obtain ⟨c, rest, shape, digit⟩ := marked_digit (shortest x.abs)
  have bits := ofDecimal_shortest finite (by rw [Nat.mod_eq_of_lt low]; omega) value
  rw [Nat.mod_eq_of_lt low] at bits
  rw [marked_positive finite positive, shape, yamlFloat?_digit digit, float?_digit digit, ← shape, read, bits_injective bits, Option.filter_some,
    if_pos finite]

end ToffoliBench.Decimal
