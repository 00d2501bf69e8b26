import ToffoliBench.Proofs.Files.Following

namespace ToffoliBench.Files
open Outcome

variable {fs : Files} {place there : Place} {names : List String} {name dir path text : String} {cs ds : List Char}

theorem split_ne_nil (cs : List Char) : pieces.split cs ≠ [] := by
  cases cs with
  | nil => simp [pieces.split]
  | cons c rest =>
    rw [pieces.split]
    split
    · simp
    · split <;> simp

theorem split_whole (whole : '/' ∉ cs) : pieces.split cs = [cs] := by
  induction cs with
  | nil => rfl
  | cons c rest ih =>
    obtain ⟨different, later⟩ := List.ne_and_not_mem_of_not_mem_cons whole
    rw [pieces.split, if_neg different.symm, ih later]

theorem split_append : pieces.split (cs ++ '/' :: ds) = pieces.split cs ++ pieces.split ds := by
  induction cs with
  | nil => simp [pieces.split]
  | cons c rest ih =>
    rw [List.cons_append, pieces.split, pieces.split, ih]
    by_cases slash : c = '/'
    · rw [if_pos slash, if_pos slash, List.cons_append]
    · obtain ⟨first, more, shape⟩ := List.exists_cons_of_ne_nil (split_ne_nil rest)
      rw [if_neg slash, if_neg slash, shape]
      rfl

theorem pieces_slash (front back : String) : pieces (front ++ "/" ++ back) = pieces front ++ pieces back := by
  have shape : (front ++ "/" ++ back).toList = front.toList ++ '/' :: back.toList := by simp
  rw [pieces, shape, split_append, List.filterMap_append]
  rfl

theorem mem_split (listed : ds ∈ pieces.split cs) : '/' ∉ ds := by
  induction cs generalizing ds with
  | nil => simp_all [pieces.split]
  | cons c rest ih =>
    rw [pieces.split] at listed
    by_cases slash : c = '/'
    · rw [if_pos slash] at listed
      rcases List.mem_cons.mp listed with rfl | listed
      · exact List.not_mem_nil
      · exact ih listed
    · obtain ⟨first, more, shape⟩ := List.exists_cons_of_ne_nil (split_ne_nil rest)
      rw [if_neg slash, shape] at listed
      rcases List.mem_cons.mp listed with rfl | listed
      · exact List.not_mem_cons_of_ne_of_not_mem (Ne.symm slash) (ih (shape ▸ List.mem_cons_self))
      · exact ih (shape ▸ List.mem_cons_of_mem _ listed)

theorem pieces_filled (listed : name ∈ pieces path) : name ≠ "" ∧ '/' ∉ name.toList := by
  obtain ⟨ds, cut, kept⟩ := List.mem_filterMap.mp listed
  split at kept
  · cases kept
  · rename_i some_
    obtain rfl := Option.some.inj kept
    rw [String.toList_ofList]
    exact ⟨by simpa using some_, mem_split cut⟩

-- A name that is a piece of its own and leads to no directory by itself.
structure Ordinary (name : String) : Prop where
  filled : name ≠ ""
  whole : '/' ∉ name.toList
  new : name ≠ "."
  inner : name ≠ ".."

theorem pieces_whole (filled : name ≠ "") (whole : '/' ∉ name.toList) : pieces name = [name] := by
  have some_ : name.toList ≠ [] := by simpa using filled
  rw [pieces, split_whole whole, List.filterMap_cons, if_neg some_, List.filterMap_nil, String.ofList_toList]

theorem pieces_empty : pieces "" = [] := rfl

theorem isAbsolute_append {front : String} (filled : front ≠ "") (back : String) : isAbsolute (front ++ back) = isAbsolute front := by
  obtain ⟨c, rest, shape⟩ := List.exists_cons_of_ne_nil (by simpa using filled : front.toList ≠ [])
  simp [isAbsolute, shape]

theorem relative_of_whole (whole : '/' ∉ name.toList) : isAbsolute name = false := by
  rw [isAbsolute, beq_eq_false_iff_ne]
  exact fun first => whole (List.mem_of_head? first)

-- What tells paths apart before they are followed: whether a path starts at the root, whether it starts
-- with a dot, and its other pieces. Further dots and slashes make no difference.
def components (path : String) : Bool × Bool × List String :=
  (isAbsolute path, !isAbsolute path && (pieces path).head? == some ".", (pieces path).filter (· != "."))

section

variable (ordinary : Ordinary name)
include ordinary

theorem pieces_join : pieces (join dir name) = pieces dir ++ [name] := by
  have last := pieces_whole ordinary.filled ordinary.whole
  rw [join, relative_of_whole ordinary.whole, if_neg Bool.false_ne_true]
  split
  · rename_i closed
    rcases closed with rfl | slash
    · rw [String.empty_append, last, pieces_empty, List.nil_append]
    · obtain ⟨front, shape⟩ := List.getLast?_eq_some_iff.mp (by simpa [endsInSlash] using slash)
      have parts : dir = String.ofList front ++ "/" ++ "" := by
        rw [← String.ofList_toList (s := dir), shape]
        simp
      rw [parts, String.append_empty, pieces_slash, last]
      have front_ := pieces_slash (String.ofList front) ""
      rw [String.append_empty] at front_
      rw [front_, pieces_empty, List.append_nil]
  · rw [pieces_slash, last]

theorem isAbsolute_join : isAbsolute (join dir name) = isAbsolute dir := by
  have relative := relative_of_whole ordinary.whole
  rw [join, relative, if_neg Bool.false_ne_true]
  by_cases empty : dir = ""
  · rw [if_pos (.inl empty), empty, String.empty_append, relative]
    rfl
  · split
    · exact isAbsolute_append empty _
    · rw [String.append_assoc, isAbsolute_append empty]

theorem endsInSlash_join : endsInSlash (join dir name) = false := by
  have open_ : endsInSlash name = false := by
    rw [endsInSlash, beq_eq_false_iff_ne]
    exact fun last => ordinary.whole (List.mem_of_getLast? last)
  have some_ : name.toList ≠ [] := by simpa using ordinary.filled
  rw [join, relative_of_whole ordinary.whole, if_neg Bool.false_ne_true]
  unfold endsInSlash at *
  split
  · rw [String.toList_append, List.getLast?_append_of_ne_nil _ some_, open_]
  · rw [String.toList_append, List.getLast?_append_of_ne_nil _ some_, open_]

theorem components_join : components (join dir name) = ((components dir).1, (components dir).2.1, (components dir).2.2 ++ [name]) := by
  have kept : [name].filter (· != ".") = [name] := List.filter_eq_self.mpr (by simpa using ordinary.new)
  have first : ((pieces dir ++ [name]).head? == some ".") = ((pieces dir).head? == some ".") := by
    cases pieces dir with
    | nil => simpa using ordinary.new
    | cons => rfl
  rw [components, isAbsolute_join ordinary, pieces_join ordinary, first, List.filter_append, kept]
  rfl

end

theorem pieces_joined (whole : ∀ name ∈ names, name ≠ "" ∧ '/' ∉ name.toList) : pieces (Text.joined "/" names) = names := by
  induction names with
  | nil => rfl
  | cons first rest ih =>
    obtain ⟨filled, clean⟩ := whole first List.mem_cons_self
    cases rest with
    | nil => exact pieces_whole filled clean
    | cons second more =>
      rw [Text.joined, pieces_slash, pieces_whole filled clean, ih fun name listed => whole name (List.mem_cons_of_mem _ listed)]
      rfl

theorem joined_relative (whole : ∀ name ∈ names, name ≠ "" ∧ '/' ∉ name.toList) : isAbsolute (Text.joined "/" names) = false := by
  cases names with
  | nil => rfl
  | cons first rest =>
    obtain ⟨filled, clean⟩ := whole first List.mem_cons_self
    cases rest with
    | nil => exact relative_of_whole clean
    | cons second more =>
      rw [Text.joined, String.append_assoc, isAbsolute_append filled]
      exact relative_of_whole clean

-- Of the names above a path only those that lead nowhere else are left out.
theorem above_first (fs : Files) {rev : List String} (some_ : rev ≠ []) : ∃ kept, (above rev).head? = some kept ∧ kept ≠ [] ∧
    (∀ name ∈ kept, name ∈ rev) ∧ ∀ place there, fs.follow place rev.reverse = .ok there → fs.follow place kept.reverse = .ok there := by
  induction rev with
  | nil => contradiction
  | cons name rest ih =>
    rw [above]
    split
    · rename_i dots
      obtain ⟨rfl, more⟩ := dots
      obtain ⟨kept, first, filled, members, leads⟩ := ih more
      refine ⟨kept, first, filled, fun name listed => List.mem_cons_of_mem _ (members name listed), fun place there done => leads place there ?_⟩
      rw [List.reverse_cons, follow_append] at done
      obtain ⟨between, done, same⟩ := done
      rwa [Except.ok.inj same] at done
    · exact ⟨name :: rest, rfl, List.cons_ne_nil _ _, fun _ => id, fun _ _ => id⟩

section

variable (leads : fs.Leads dir place) (ordinary : Ordinary name)
include leads ordinary

-- Nothing has to be made above the file.
theorem parent_made : fs.makeDirectories ((ancestors (join dir name)).head?.getD "") = (fs, .ok ()) := by
  have names : ((pieces (join dir name)).reverse.dropWhile (· == ".")).drop 1 = (pieces dir).reverse := by
    have stays : (name == ".") = false := by simpa using ordinary.new
    rw [pieces_join ordinary, List.reverse_concat, List.dropWhile_cons, stays]
    rfl
  rw [ancestors, names, isAbsolute_join ordinary]
  by_cases none : pieces dir = []
  · rw [none]
    rfl
  · obtain ⟨kept, first, filled, members, follows⟩ := above_first fs (mt List.reverse_eq_nil_iff.mp none)
    have clean : ∀ name ∈ kept.reverse, name ≠ "" ∧ '/' ∉ name.toList := fun name listed =>
      pieces_filled (List.mem_reverse.mp (members name (List.mem_reverse.mp listed)))
    rw [List.head?_map, first, Option.map_some, Option.getD_some]
    suffices known : fs.Leads _ place from known.makeDirectories
    rw [List.reverse_reverse] at follows
    have joined := pieces_joined clean
    unfold Leads origin at *
    split
    · rename_i absolute
      have slash := pieces_slash "" (Text.joined "/" kept.reverse)
      rw [String.empty_append, pieces_empty, List.nil_append, joined] at slash
      have start : isAbsolute ("/" ++ Text.joined "/" kept.reverse) = true := by simp [isAbsolute]
      rw [slash, if_pos start]
      rw [if_pos absolute] at leads
      exact follows _ _ leads
    · rename_i relative
      rw [String.empty_append, joined, joined_relative clean]
      rw [if_neg relative] at leads
      exact follows _ _ leads

theorem locate_join : fs.locate (join dir name) = .ok (place ++ [name]) := by
  have start : fs.origin (join dir name) = fs.origin dir := by rw [origin, origin, isAbsolute_join ordinary]
  rw [locate, pieces_join ordinary, List.getLast?_concat, List.dropLast_concat]
  refine bind_ok.mpr ⟨place, (congrArg (fs.follow · (pieces dir)) start).trans leads, ?_⟩
  rw [if_neg (not_or.mpr ⟨ordinary.new, ordinary.inner⟩)]
  rfl

theorem read_join : fs.read (join dir name) = match fs.lookup? (place ++ [name]) with
    | none => .error .notFound
    | some .directory => .error .isDirectory
    | some (.file text _) => .ok text := by
  simp only [read, find, locate_join leads ordinary, bind, Except.bind, endsInSlash_join ordinary]
  cases fs.lookup? (place ++ [name]) with
  | none => rfl
  | some held => cases held <;> rfl

-- A file that is there keeps its permission to run; a directory is not written over.
theorem writeBelow_join : fs.writeBelow (join dir name) text = match fs.lookup? (place ++ [name]) with
    | none => (fs.put (place ++ [name]) (.file text false), .ok ())
    | some .directory => (fs, .error .isDirectory)
    | some (.file _ executable) => (fs.put (place ++ [name]) (.file text executable), .ok ()) := by
  rw [writeBelow, parent_made leads ordinary]
  simp only [write, locate_join leads ordinary, bind, Except.bind, endsInSlash_join ordinary]
  cases fs.lookup? (place ++ [name]) with
  | none => rfl
  | some held => cases held <;> rfl

end

end ToffoliBench.Files
