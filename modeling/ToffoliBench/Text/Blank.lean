namespace ToffoliBench.Text

-- the characters with the Unicode property White_Space
def isBlank (c : Char) : Bool :=
  (9 ≤ c.toNat && c.toNat ≤ 13) || c.toNat == 0x20 || c.toNat == 0x85 || c.toNat == 0xA0 ||
    c.toNat == 0x1680 || (0x2000 ≤ c.toNat && c.toNat ≤ 0x200A) || c.toNat == 0x2028 ||
    c.toNat == 0x2029 || c.toNat == 0x202F || c.toNat == 0x205F || c.toNat == 0x3000

def dropEnd (drops : Char → Bool) (cs : List Char) : List Char :=
  (cs.reverse.dropWhile drops).reverse

def trimStart (cs : List Char) : List Char := cs.dropWhile isBlank

def trimEnd (cs : List Char) : List Char := dropEnd isBlank cs

def trim (cs : List Char) : List Char := trimEnd (trimStart cs)

def splitAt? (sep : Char) : List Char → Option (List Char × List Char)
  | [] => none
  | c :: rest =>
    if c = sep then some ([], rest) else (splitAt? sep rest).map fun parts => (c :: parts.1, parts.2)

theorem splitAt?_eq_some {sep : Char} {cs left right : List Char}
    (h : splitAt? sep cs = some (left, right)) : cs = left ++ sep :: right ∧ sep ∉ left := by
  induction cs generalizing left with
  | nil => simp [splitAt?] at h
  | cons c rest ih =>
    by_cases hc : c = sep
    · simp [splitAt?, hc] at h
      obtain ⟨rfl, rfl⟩ := h
      simp [hc]
    · simp only [splitAt?, hc, if_false, Option.map_eq_some_iff, Prod.mk.injEq] at h
      obtain ⟨⟨l, r⟩, found, rfl, rfl⟩ := h
      obtain ⟨rfl, absent⟩ := ih found
      simp [Ne.symm hc, absent]

end ToffoliBench.Text
