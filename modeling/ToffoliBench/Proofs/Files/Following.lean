import Mathlib.Data.List.Basic
import ToffoliBench.Files.Path
import ToffoliBench.Proofs.Outcome

namespace ToffoliBench.Files
open Outcome

variable {fs later : Files} {place there other : Place} {names more : List String} {name dir path text : String} {e : Entry}

theorem lookup?_here (within : place <+: fs.here) : fs.lookup? place = some .directory :=
  if_pos (List.isPrefixOf_iff_prefix.mpr within)

theorem lookup_filter_other {entries : List (Place × Entry)} (different : other ≠ place) :
    (entries.filter fun old => old.1 != place).lookup other = entries.lookup other := by
  induction entries with
  | nil => rfl
  | cons held rest ih =>
    obtain ⟨at_, entry⟩ := held
    by_cases same : at_ = place
    · have absent : (other == at_) = false := by simpa [same] using different
      rw [List.filter_cons_of_neg (by simpa using same), ih, List.lookup_cons, absent]
    · rw [List.filter_cons_of_pos (by simpa using same), List.lookup_cons, List.lookup_cons, ih]

theorem lookup?_put (vacant : fs.lookup? place ≠ some .directory) :
    (fs.put place e).lookup? other = if other = place then some e else fs.lookup? other := by
  have outside : ¬place.isPrefixOf fs.here = true := fun within => vacant (if_pos within)
  unfold lookup?
  rw [show (fs.put place e).here = fs.here from rfl]
  by_cases same : other = place
  · rw [if_pos same, same, if_neg outside]
    exact List.lookup_cons_self
  · have absent : (other == place) = false := by simpa using same
    rw [if_neg same, put, List.lookup_cons, absent, lookup_filter_other same]

-- Every directory is still one, and the working directory is the same.
structure Keeps (fs later : Files) : Prop where
  here : later.here = fs.here
  directories : ∀ place, fs.lookup? place = some .directory → later.lookup? place = some .directory

theorem Keeps.refl (fs : Files) : Keeps fs fs := ⟨rfl, fun _ => id⟩

theorem Keeps.trans {last : Files} (early : Keeps fs later) (late : Keeps later last) : Keeps fs last :=
  ⟨late.here.trans early.here, fun place held => late.directories place (early.directories place held)⟩

theorem put_keeps (vacant : fs.lookup? place ≠ some .directory) (e : Entry) : Keeps fs (fs.put place e) := by
  refine ⟨rfl, fun other held => ?_⟩
  rw [lookup?_put vacant, if_neg, held]
  rintro rfl
  exact vacant held

theorem follow_name (new : name ≠ ".") (inner : name ≠ "..") :
    fs.follow place (name :: names) = .ok there ↔
      fs.lookup? (place ++ [name]) = some .directory ∧ fs.follow (place ++ [name]) names = .ok there := by
  rw [follow.eq_4 fs place name names new inner]
  split
  · rename_i held
    simp [held]
  · rename_i held
    simp [held]
  · rename_i held
    simp [held]

theorem follow_append : fs.follow place (names ++ more) = .ok there ↔
    ∃ between, fs.follow place names = .ok between ∧ fs.follow between more = .ok there := by
  induction names generalizing place with
  | nil => simp [follow]
  | cons name rest ih =>
    by_cases same : name = "."
    · subst same
      exact ih
    by_cases back : name = ".."
    · subst back
      exact ih
    · rw [List.cons_append, follow_name same back, ih]
      simp only [follow_name same back, and_assoc, exists_and_left]

theorem Keeps.follow (keeps : Keeps fs later) (done : fs.follow place names = .ok there) : later.follow place names = .ok there := by
  induction names generalizing place with
  | nil => exact done
  | cons name rest ih =>
    by_cases same : name = "."
    · subst same
      exact ih done
    by_cases back : name = ".."
    · subst back
      exact ih done
    · rw [follow_name same back] at done ⊢
      exact ⟨keeps.directories _ done.1, ih done.2⟩

-- A place with nothing but directories above it, itself included.
def Rooted (fs : Files) (place : Place) : Prop := ∀ above, above <+: place → fs.lookup? above = some .directory

theorem follow_rooted (rooted : fs.Rooted place) (done : fs.follow place names = .ok there) : fs.Rooted there := by
  induction names generalizing place with
  | nil =>
    obtain rfl := Except.ok.inj done
    exact rooted
  | cons name rest ih =>
    by_cases same : name = "."
    · subst same
      exact ih rooted done
    by_cases back : name = ".."
    · subst back
      exact ih (fun above within => rooted above (within.trans (List.dropLast_prefix place))) done
    · obtain ⟨held, done⟩ := (follow_name same back).mp done
      refine ih (fun above within => ?_) done
      rcases List.prefix_concat_iff.mp within with rfl | within
      · exact held
      · exact rooted above within

-- The place that a relative or an absolute path starts from.
def origin (fs : Files) (path : String) : Place := if isAbsolute path then [] else fs.here

def Leads (fs : Files) (path : String) (place : Place) : Prop := fs.follow (fs.origin path) (pieces path) = .ok place

theorem Leads.held (leads : fs.Leads dir place) : fs.lookup? place = some .directory := by
  refine follow_rooted (fun above within => lookup?_here (within.trans ?_)) leads place (List.prefix_refl _)
  unfold origin
  split
  · exact List.nil_prefix
  · exact List.prefix_refl _

theorem Leads.keeps (leads : fs.Leads dir place) (keeps : Keeps fs later) : later.Leads dir place := by
  unfold Leads origin at *
  rw [keeps.here]
  exact keeps.follow leads

theorem Leads.locate (leads : fs.Leads dir place) (some_ : pieces dir ≠ []) : fs.locate dir = .ok place := by
  obtain ⟨front, last, shape⟩ := (List.eq_nil_or_concat (pieces dir)).resolve_left some_
  rw [List.concat_eq_append] at shape
  rw [Leads, shape, follow_append] at leads
  obtain ⟨parent, followed, final⟩ := leads
  rw [Files.locate, shape, List.getLast?_concat]
  refine bind_ok.mpr ⟨parent, by rwa [List.dropLast_concat], ?_⟩
  by_cases dots : last = "." ∨ last = ".."
  · rw [if_pos dots]
    exact final
  · obtain ⟨new, inner⟩ := not_or.mp dots
    rw [if_neg dots]
    exact congrArg Except.ok (Except.ok.inj ((follow_name new inner).mp final).2)

-- A directory that is there need not be made.
theorem Leads.makeDirectories (leads : fs.Leads dir place) : fs.makeDirectories dir = (fs, .ok ()) := by
  unfold Files.makeDirectories
  split
  · rfl
  · rename_i some_
    have located := leads.locate some_
    have taken : fs.makeDirectory dir = .error .taken := by
      rw [makeDirectory, located]
      exact if_pos (by rw [leads.held]; rfl)
    have known : fs.isDirectory dir = true := by
      simp only [isDirectory, find, located, bind, Except.bind, leads.held]
    rw [climb, taken]
    simp only [known, and_self, if_true]
    rfl

theorem Keeps.locate (keeps : Keeps fs later) (located : fs.locate path = .ok place) : later.locate path = .ok place := by
  rw [Files.locate] at located ⊢
  split at located
  · exact located
  · obtain ⟨parent, followed, final⟩ := bind_ok.mp located
    rw [keeps.here]
    refine bind_ok.mpr ⟨parent, keeps.follow followed, ?_⟩
    split at final
    · rename_i dots
      rw [if_pos dots]
      exact keeps.follow final
    · rename_i dots
      rw [if_neg dots]
      exact final

theorem leads_of_locate (located : fs.locate path = .ok place) (held : fs.lookup? place = some .directory) : fs.Leads path place := by
  unfold Leads
  rcases List.eq_nil_or_concat (pieces path) with none | ⟨front, last, shape⟩
  · rw [Files.locate, none] at located
    rw [none]
    change (if isAbsolute path then Except.ok [] else .error FileError.notFound) = .ok place at located
    by_cases absolute : isAbsolute path
    · rw [if_pos absolute] at located
      rw [origin, if_pos absolute]
      exact located
    · rw [if_neg absolute] at located
      cases located
  · rw [List.concat_eq_append] at shape
    rw [Files.locate, shape, List.getLast?_concat, List.dropLast_concat] at located
    obtain ⟨parent, followed, final⟩ := bind_ok.mp located
    rw [shape, follow_append]
    refine ⟨parent, followed, ?_⟩
    split at final
    · exact final
    · rename_i dots
      obtain ⟨new, inner⟩ := not_or.mp dots
      obtain rfl := pure_ok.mp final
      exact (follow_name new inner).mpr ⟨held, rfl⟩

theorem isDirectory_leads (known : fs.isDirectory path = true) : ∃ place, fs.Leads path place := by
  unfold isDirectory find at known
  cases located : fs.locate path with
  | error e => simp [located, bind, Except.bind] at known
  | ok place =>
    refine ⟨place, leads_of_locate located ?_⟩
    cases held : fs.lookup? place with
    | none => simp [located, held, bind, Except.bind] at known
    | some entry =>
      cases entry with
      | directory => rfl
      | file text executable =>
        simp only [located, held, bind, Except.bind] at known
        by_cases slash : endsInSlash path <;> simp [slash] at known

theorem makeDirectory_ok (made : fs.makeDirectory path = .ok later) : Keeps fs later ∧ ∃ place, later.Leads path place := by
  obtain ⟨place, located, made⟩ := bind_ok.mp made
  split at made
  · cases made
  · rename_i vacant
    obtain rfl := Except.ok.inj made
    have empty : fs.lookup? place ≠ some .directory := fun held => vacant (by rw [held]; rfl)
    have keeps := put_keeps empty .directory
    exact ⟨keeps, place, leads_of_locate (keeps.locate located) ((lookup?_put empty).trans (if_pos rfl))⟩

-- The first of the paths is led to now, or is still to be made.
theorem climb_ok {missing paths left : List String} (done : fs.climb missing paths = .ok (later, left)) :
    Keeps fs later ∧ (∀ p ∈ missing, p ∈ left) ∧ ∀ p ∈ paths.head?, p ∈ left ∨ ∃ place, later.Leads p place := by
  induction paths generalizing missing with
  | nil =>
    obtain ⟨rfl, rfl⟩ := Prod.mk.inj (Except.ok.inj done)
    exact ⟨.refl _, fun _ => id, nofun⟩
  | cons p rest ih =>
    rw [climb] at done
    split at done
    · rename_i made
      obtain ⟨rfl, rfl⟩ := Prod.mk.inj (Except.ok.inj done)
      obtain ⟨keeps, leads⟩ := makeDirectory_ok made
      exact ⟨keeps, fun _ => id, fun q first => .inr (Option.some.inj first ▸ leads)⟩
    · obtain ⟨keeps, members, _⟩ := ih done
      refine ⟨keeps, fun q listed => members q (List.mem_cons_of_mem _ listed), fun q first => .inl ?_⟩
      exact Option.some.inj first ▸ members p List.mem_cons_self
    · split at done
      · rename_i known
        obtain ⟨rfl, rfl⟩ := Prod.mk.inj (Except.ok.inj done)
        exact ⟨.refl _, fun _ => id, fun q first => .inr (Option.some.inj first ▸ isDirectory_leads known.2)⟩
      · cases done

theorem makeEach_ok {paths : List String} (done : fs.makeEach paths = (later, .ok ())) :
    Keeps fs later ∧ ∀ p ∈ paths, ∃ place, later.Leads p place := by
  induction paths generalizing fs with
  | nil =>
    obtain ⟨rfl, _⟩ := Prod.mk.inj done
    exact ⟨.refl _, nofun⟩
  | cons p rest ih =>
    rw [makeEach] at done
    split at done
    · rename_i made
      obtain ⟨early, place, leads⟩ := makeDirectory_ok made
      obtain ⟨late, others⟩ := ih done
      exact ⟨early.trans late, List.forall_mem_cons.mpr ⟨⟨place, leads.keeps late⟩, others⟩⟩
    · split at done
      · rename_i known
        obtain ⟨place, leads⟩ := isDirectory_leads known.2
        obtain ⟨late, others⟩ := ih done
        exact ⟨late, List.forall_mem_cons.mpr ⟨⟨place, leads.keeps late⟩, others⟩⟩
      · cases done

theorem makeDirectories_ok (done : fs.makeDirectories path = (later, .ok ())) : Keeps fs later ∧ ∃ place, later.Leads path place := by
  unfold Files.makeDirectories at done
  split at done
  · rename_i none
    obtain ⟨rfl, _⟩ := Prod.mk.inj done
    exact ⟨.refl _, fs.origin path, by rw [Leads, none]; rfl⟩
  · split at done
    · cases done
    · rename_i climbed
      obtain ⟨early, _, first⟩ := climb_ok climbed
      obtain ⟨late, others⟩ := makeEach_ok done
      refine ⟨early.trans late, ?_⟩
      rcases first path rfl with missing | ⟨place, leads⟩
      · exact others path missing
      · exact ⟨place, leads.keeps late⟩

end ToffoliBench.Files
