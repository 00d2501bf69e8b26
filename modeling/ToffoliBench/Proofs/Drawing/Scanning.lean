import ToffoliBench.Drawing.Token
import ToffoliBench.Proofs.Outcome
import ToffoliBench.Proofs.Text.Numerals

namespace ToffoliBench.Drawing

open Outcome

-- Where the text starts does not matter as long as there is no error.
def Scans (cs : List Char) (ts : List Token) : Prop := ∀ offset, Token.scan offset cs = .ok ts

namespace Token

variable {c : Char} {taken more : List Char} {ts : List Token}

theorem scan_moved {offset : Nat} {cs : List Char} (done : scan offset cs = .ok ts) : Scans cs ts := by
  fun_induction scan offset cs generalizing ts with
  | case1 offset =>
    intro other
    rw [scan]
    exact done
  | case2 offset c rest taken next skipped =>
    rename_i ih
    intro other
    rw [scan, skipped]
    exact ih done _
  | case3 offset c rest taken next t token =>
    rename_i ih
    obtain ⟨others, later, rfl⟩ := map_ok.mp done
    intro other
    rw [scan, token]
    exact map_ok.mpr ⟨others, ih later _, rfl⟩
  | case4 offset c rest invalid => cases done

theorem scan_cut (offset : Nat) (extends_ : extent c (taken ++ more) = taken.length) :
    scan offset (c :: (taken ++ more)) =
      match piece c taken with
      | .skipped => scan (offset + byteLength (c :: taken)) more
      | .token t => (scan (offset + byteLength (c :: taken)) more).map (t :: ·)
      | .invalid => .error (.lexer offset (String.ofList (c :: taken))) := by
  rw [scan]
  cases kind : piece c taken <;> simp only [extends_, List.take_left, List.drop_left, kind]

theorem scans_token {t : Token} (extends_ : extent c (taken ++ more) = taken.length) (token : piece c taken = .token t)
    (rest : Scans more ts) : Scans (c :: (taken ++ more)) (t :: ts) := by
  intro offset
  rw [scan_cut offset extends_, token]
  exact map_ok.mpr ⟨ts, rest _, rfl⟩

-- A run ends at the first character that does not belong to it.
theorem runLength_append {p : Char → Bool} (all : ∀ c ∈ taken, p c = true) (stops : ∀ c ∈ more.head?, p c = false) :
    runLength p (taken ++ more) = taken.length := by
  rw [runLength, List.takeWhile_append_of_pos all]
  have none : more.takeWhile p = [] := by
    cases more with
    | nil => rfl
    | cons c rest => simp [stops c rfl]
  rw [none, List.append_nil]

theorem scan_space (space : isSpace c = true) (offset : Nat) :
    scan offset (c :: more) = scan (offset + byteLength (c :: more.takeWhile isSpace)) (more.dropWhile isSpace) := by
  have shape : more.takeWhile isSpace ++ more.dropWhile isSpace = more := List.takeWhile_append_dropWhile
  have size : extent c (more.takeWhile isSpace ++ more.dropWhile isSpace) = (more.takeWhile isSpace).length := by
    rw [extent, if_pos space, shape, runLength]
  have cut := scan_cut offset size
  rw [shape, piece, if_pos space] at cut
  exact cut

-- Blanks may stand before anything.
theorem scans_space (space : isSpace c = true) (rest : Scans more ts) : Scans (c :: more) ts := by
  intro offset
  rw [scan_space space]
  cases more with
  | nil => exact rest _
  | cons d later =>
    by_cases blank : isSpace d = true
    · have first := rest 0
      rw [scan_space blank] at first
      rw [List.dropWhile_cons_of_pos blank]
      exact scan_moved first _
    · rw [List.dropWhile_cons_of_neg blank]
      exact rest _

theorem digit_kind (digit : c.isDigit = true) : isSpace c = false := by
  have bounds := Text.digit_bounds digit
  simp only [isSpace, Bool.or_eq_false_iff, beq_eq_false_iff_ne]
  refine ⟨⟨⟨?_, ?_⟩, ?_⟩, ?_⟩ <;> rintro rfl <;> revert bounds <;> decide

theorem scans_id {n : Nat} (small : n ≤ Range.maxWord) (stops : ∀ c ∈ more.head?, c.isDigit = false) (rest : Scans more ts) :
    Scans (Text.ofNat n ++ more) (.id n :: ts) := by
  obtain ⟨c, digits, shape, digit⟩ := Text.ofNat_cons n
  have all : ∀ d ∈ digits, d.isDigit = true := fun d listed => Text.ofNat_digits d (shape ▸ List.mem_cons_of_mem _ listed)
  have space := digit_kind digit
  rw [shape]
  refine scans_token ?_ ?_ rest
  · rw [extent, space, if_neg Bool.false_ne_true, if_pos digit, runLength_append all stops]
  · rw [piece, space, if_neg Bool.false_ne_true, if_pos digit, ← shape, Text.natUpTo?_ofNat small]

-- The words that are names: letters all through, and not the one word that is a token of its own.
def isName : List Char → Bool
  | [] => false
  | c :: rest => !isSpace c && !c.isDigit && startsWord c && rest.all inWord && c :: rest != "graph".toList

theorem scans_name {name : List Char} (named : isName name = true) (stops : ∀ c ∈ more.head?, inWord c = false)
    (rest : Scans more ts) : Scans (name ++ more) (.identifier (String.ofList name) :: ts) := by
  cases name with
  | nil => cases named
  | cons c letters =>
    simp only [isName, Bool.and_eq_true, Bool.not_eq_true', bne_iff_ne] at named
    obtain ⟨⟨⟨⟨space, digit⟩, starts⟩, inside⟩, plain⟩ := named
    refine scans_token ?_ ?_ rest
    · rw [extent, space, digit, starts]
      exact runLength_append (List.all_eq_true.mp inside) stops
    · rw [piece, space, digit, starts, if_neg Bool.false_ne_true, if_neg Bool.false_ne_true, if_pos rfl, if_neg plain]

theorem scans_string {inside : List Char} (absent : '"' ∉ inside) (rest : Scans more ts) :
    Scans ('"' :: inside ++ '"' :: more) (.string (String.ofList inside) :: ts) := by
  have run : runLength (· != '"') (inside ++ '"' :: more) = inside.length := by
    refine runLength_append (fun c listed => ?_) fun c first => ?_
    · exact bne_iff_ne.mpr fun same => absent (same ▸ listed)
    · obtain rfl := Option.mem_some.mp first
      rfl
  have shape : '"' :: inside ++ '"' :: more = '"' :: ((inside ++ ['"']) ++ more) := by simp
  rw [shape]
  refine scans_token ?_ ?_ rest
  · have length : (inside ++ ['"'] ++ more).length = inside.length + 1 + more.length := by simp; omega
    have kind : extent '"' (inside ++ ['"'] ++ more) = min (runLength (· != '"') (inside ++ ['"'] ++ more) + 1)
      (inside ++ ['"'] ++ more).length := rfl
    rw [kind, length, List.append_assoc, List.singleton_append, run, List.length_append, List.length_singleton]
    omega
  · have kind : piece '"' (inside ++ ['"']) = if (inside ++ ['"']).getLast? = some '"' then
      .token (.string (String.ofList (inside ++ ['"']).dropLast)) else .invalid := rfl
    rw [kind, List.getLast?_concat, if_pos rfl, List.dropLast_concat]

theorem scans_wire (rest : Scans more ts) : Scans ('-' :: '-' :: more) (.wire :: ts) :=
  @scans_token '-' ['-'] more ts .wire rfl rfl rest

-- Marks that stand alone, whatever follows them.
theorem scans_mark {t : Token} (alone : extent c more = 0) (mark : piece c [] = .token t) (rest : Scans more ts) :
    Scans (c :: more) (t :: ts) :=
  @scans_token c [] more ts t alone mark rest

theorem piece_small {n : Nat} {cs : List Char} (shape : piece c cs = .token (.id n)) : n ≤ Range.maxWord := by
  unfold piece at shape
  split at shape
  · cases shape
  · split at shape
    · split at shape
      · rename_i read
        cases shape
        exact Text.natUpTo?_le read
      · cases shape
    · unfold punctuation at shape
      repeat' split at shape
      all_goals cases shape

theorem scan_small {offset : Nat} {cs : List Char} :
    ∀ {ts}, scan offset cs = .ok ts → ∀ n, Token.id n ∈ ts → n ≤ Range.maxWord := by
  fun_induction scan offset cs with
  | case1 =>
    intro ts done n listed
    cases done
    cases listed
  | case2 =>
    rename_i held
    exact held
  | case3 offset c rest taken next t shape =>
    rename_i held
    intro ts done
    cases more : scan next (rest.drop (extent c rest)) with
    | error e =>
      rw [more] at done
      cases done
    | ok others =>
      rw [more] at done
      cases done
      intro n listed
      rcases List.mem_cons.mp listed with rfl | later
      · exact piece_small shape
      · exact held more n later
  | case4 =>
    intro ts done
    cases done

end Token

end ToffoliBench.Drawing
