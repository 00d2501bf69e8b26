import ToffoliBench.Proofs.Diagram.Fusion
import ToffoliBench.Proofs.Diagram.Growth
import ToffoliBench.Proofs.Drawing.Declaration
import ToffoliBench.Proofs.Drawing.Numbering

namespace ToffoliBench.Drawing

open Diagram Outcome

structure Wire where
  s : Nat
  t : Nat
  kind : EdgeKind

def Wire.Joins (w : Wire) (s t : Nat) : Prop := (w.s = s ∧ w.t = t) ∨ (w.s = t ∧ w.t = s)

structure Sheet where
  vertices : List Declared := []
  wires : List Wire := []

def Sheet.files (sheet : Sheet) : List Nat := sheet.vertices.map (·.file)

-- Vertices are numbered as they are declared.
def Sheet.number (sheet : Sheet) (n : Nat) : Nat := sheet.files.idxOf n

def Sheet.edge (sheet : Sheet) (w : Wire) : Edge := .between (sheet.number w.s) (sheet.number w.t) w.kind

def Sheet.withVertex (sheet : Sheet) (x : Declared) : Sheet := { sheet with vertices := sheet.vertices ++ [x] }

def Sheet.withWire (sheet : Sheet) (w : Wire) : Sheet := { sheet with wires := sheet.wires ++ [w] }

inductive Takes : Sheet → Item → Sheet → Prop where
  | vertex {sheet : Sheet} {n : Nat} {attrs : Attributes} {x : Declared} : n ∉ sheet.files → Declares n attrs x →
      Takes sheet (.vertex n attrs) (sheet.withVertex x)
  | edge {sheet : Sheet} {s t : Nat} {attrs : Attributes} {kind : EdgeKind} : Wired (attrs.lookup "color") kind →
      s ∈ sheet.files → t ∈ sheet.files → s ≠ t → (∀ w ∈ sheet.wires, ¬w.Joins s t) →
      Takes sheet (.edge s t attrs) (sheet.withWire ⟨s, t, kind⟩)

inductive TakesAll : Sheet → List Item → Sheet → Prop where
  | nil {sheet : Sheet} : TakesAll sheet [] sheet
  | cons {sheet middle last : Sheet} {item : Item} {items : List Item} : Takes sheet item middle → TakesAll middle items last →
      TakesAll sheet (item :: items) last

structure Holds (draft : Draft) (sheet : Sheet) : Prop where
  once : sheet.files.Nodup
  known : ∀ w ∈ sheet.wires, w.s ∈ sheet.files ∧ w.t ∈ sheet.files
  ids : draft.ids = sheet.files.map fun n => (n, sheet.number n)
  vertices : draft.diagram.vertices = sheet.vertices.map fun x => (sheet.number x.file, x.vertex)
  edges : draft.diagram.edges.Perm (sheet.wires.map sheet.edge)
  ends : draft.ends = sheet.vertices.flatMap fun x => x.ends (sheet.number x.file)
  sound : draft.diagram.Sound
  unfreed : draft.diagram.freed = []
  next : draft.diagram.next = sheet.vertices.length
  scalar : draft.diagram.scalar = .one

variable {draft after : Draft} {sheet last : Sheet} {item : Item} {items : List Item} {n s t : Nat} {x : Declared} {kind : EdgeKind}

theorem holds_empty : Holds {} {} where
  once := .nil
  known := nofun
  ids := rfl
  vertices := rfl
  edges := .nil
  ends := rfl
  sound := empty_sound
  unfreed := rfl
  next := rfl
  scalar := rfl

theorem files_withVertex : (sheet.withVertex x).files = sheet.files ++ [x.file] := by
  simp [Sheet.files, Sheet.withVertex]

-- What is declared later renumbers nothing.
theorem number_later (old : n ∈ sheet.files) : (sheet.withVertex x).number n = sheet.number n := by
  rw [Sheet.number, files_withVertex, List.idxOf_append_of_mem old, Sheet.number]

theorem number_new (new : x.file ∉ sheet.files) : (sheet.withVertex x).number x.file = sheet.vertices.length := by
  rw [Sheet.number, files_withVertex, List.idxOf_append_of_notMem new, List.idxOf_cons_self, Sheet.files, List.length_map, Nat.add_zero]

theorem number_alike (old : s ∈ sheet.files) : sheet.number s = sheet.number t ↔ s = t := by
  rw [Sheet.number, Sheet.number, List.idxOf_inj old]

-- What is on a sheet has been declared by a statement.
theorem TakesAll.declared (taken : TakesAll sheet items last) (listed : x ∈ last.vertices) :
    x ∈ sheet.vertices ∨ ∃ attrs, Item.vertex x.file attrs ∈ items ∧ Declares x.file attrs x := by
  induction taken with
  | nil => exact .inl listed
  | cons one _ ih =>
    rcases ih listed with old | ⟨attrs, later, declares⟩
    · cases one with
      | vertex _ declares =>
        rcases List.mem_append.mp old with older | new
        · exact .inl older
        · obtain rfl := List.mem_singleton.mp new
          obtain rfl := declares.file
          exact .inr ⟨_, List.mem_cons_self, declares⟩
      | edge _ _ _ _ _ => exact .inl old
    · exact .inr ⟨attrs, List.mem_cons_of_mem _ later, declares⟩

namespace Holds

theorem lookup (holds : Holds draft sheet) : draft.ids.lookup n = if n ∈ sheet.files then some (sheet.number n) else none := by
  rw [holds.ids]
  split
  · rename_i old
    exact List.lookup_graph _ old
  · rename_i new
    rw [List.lookup_eq_none_iff]
    intro entry listed
    obtain ⟨old, there, rfl⟩ := List.mem_map.mp listed
    exact bne_iff_ne.mpr fun same => new (same ▸ there)

theorem lookup_some (holds : Holds draft sheet) {v : Nat} : draft.ids.lookup n = some v ↔ n ∈ sheet.files ∧ v = sheet.number n := by
  rw [holds.lookup]
  split
  · rename_i old
    simp [old, eq_comm]
  · rename_i new
    simp [new]

theorem lookup_none (holds : Holds draft sheet) : draft.ids.lookup n = none ↔ n ∉ sheet.files := by
  rw [holds.lookup]
  split
  · rename_i old
    simp [old]
  · rename_i new
    simp [new]

theorem live (holds : Holds draft sheet) (old : n ∈ sheet.files) : sheet.number n ∈ draft.diagram.ids := by
  obtain ⟨x, listed, rfl⟩ := List.mem_map.mp old
  rw [Diagram.ids, holds.vertices, List.map_map]
  exact List.mem_map_of_mem listed

theorem adjacent (holds : Holds draft sheet) (first : s ∈ sheet.files) (second : t ∈ sheet.files) :
    draft.diagram.Adjacent (sheet.number s) (sheet.number t) ↔ ∃ w ∈ sheet.wires, w.Joins s t := by
  constructor
  · rintro ⟨e, present, ends⟩
    obtain ⟨w, listed, rfl⟩ := List.mem_map.mp (holds.edges.mem_iff.mp present)
    obtain ⟨left, right⟩ := holds.known w listed
    rw [Sheet.edge, Edge.between_ends_iff, number_alike left, number_alike right, number_alike left, number_alike right] at ends
    exact ⟨w, listed, ends⟩
  · rintro ⟨w, listed, joins⟩
    refine ⟨sheet.edge w, holds.edges.mem_iff.mpr (List.mem_map_of_mem listed), ?_⟩
    rw [Sheet.edge, Edge.between_ends_iff]
    rcases joins with ⟨rfl, rfl⟩ | ⟨rfl, rfl⟩
    · exact .inl ⟨rfl, rfl⟩
    · exact .inr ⟨rfl, rfl⟩

-- One more vertex gets the next number.
theorem withVertex (holds : Holds draft sheet) (new : x.file ∉ sheet.files) : Holds (draft.declared x) (sheet.withVertex x) := by
  have kept : ∀ n ∈ sheet.files, (sheet.withVertex x).number n = sheet.number n := fun _ => number_later
  have kept' : ∀ y ∈ sheet.vertices, (sheet.withVertex x).number y.file = sheet.number y.file := fun y listed =>
    kept y.file (List.mem_map_of_mem listed)
  have number : (sheet.withVertex x).number x.file = sheet.vertices.length := number_new new
  have fresh : draft.diagram.fresh = sheet.vertices.length := (fresh_unfreed holds.unfreed).trans holds.next
  have below : ∀ v ∈ draft.diagram.vertices.map Prod.fst, v < draft.diagram.fresh := by
    intro v listed
    rw [fresh_unfreed holds.unfreed]
    exact holds.sound.used v listed
  constructor
  case once =>
    rw [files_withVertex]
    exact List.nodup_append.mpr ⟨holds.once, List.nodup_singleton _, fun n old m same => by
      rw [List.mem_singleton.mp same]
      exact fun equal => new (equal ▸ old)⟩
  case known =>
    intro w listed
    rw [files_withVertex]
    obtain ⟨left, right⟩ := holds.known w listed
    exact ⟨List.mem_append_left _ left, List.mem_append_left _ right⟩
  case ids =>
    rw [files_withVertex, List.map_append, List.map_singleton, number, Draft.declared, holds.ids, fresh]
    exact congrArg (· ++ _) (List.map_congr_left fun n old => by rw [kept n old])
  case vertices =>
    rw [Draft.declared, Diagram.add]
    dsimp only
    rw [insertVertex_last below, fresh, holds.vertices]
    refine Eq.trans ?_ List.map_append.symm
    rw [List.map_singleton, number]
    exact congrArg (· ++ _) (List.map_congr_left fun y listed => by rw [kept' y listed])
  case edges =>
    refine holds.edges.trans (.of_eq (List.map_congr_left fun w listed => ?_))
    obtain ⟨left, right⟩ := holds.known w listed
    rw [Sheet.edge, Sheet.edge, kept _ left, kept _ right]
  case ends =>
    rw [Draft.declared, holds.ends, fresh]
    refine Eq.trans ?_ List.flatMap_append.symm
    rw [List.flatMap_singleton, number]
    exact congrArg (· ++ _) (List.flatMap_congr fun y listed => by rw [kept' y listed])
  case sound => exact holds.sound.add _
  case unfreed =>
    rw [Draft.declared, Diagram.add, holds.unfreed]
    rfl
  case next =>
    rw [Draft.declared, Diagram.add, holds.unfreed, List.isEmpty_nil, if_pos rfl, holds.next, Sheet.withVertex, List.length_append,
      List.length_singleton]
  case scalar => exact holds.scalar

theorem addEdge_numbers (holds : Holds draft sheet) (first : s ∈ sheet.files) (second : t ∈ sheet.files) (kind : EdgeKind)
    {diagram : Diagram} :
    draft.diagram.addEdge (sheet.number s) (sheet.number t) kind = .ok diagram ↔
      s ≠ t ∧ (∀ w ∈ sheet.wires, ¬w.Joins s t) ∧ diagram = draft.diagram.link (sheet.number s) (sheet.number t) kind := by
  rw [addEdge_ok holds.sound, holds.adjacent first second, Ne, number_alike first]
  simp [holds.live first, holds.live second]

-- One more wire is linked between the numbers of its ends.
theorem withWire (holds : Holds draft sheet) (first : s ∈ sheet.files) (second : t ∈ sheet.files) (different : s ≠ t)
    (new : ∀ w ∈ sheet.wires, ¬w.Joins s t) (kind : EdgeKind) :
    Holds { draft with diagram := draft.diagram.link (sheet.number s) (sheet.number t) kind } (sheet.withWire ⟨s, t, kind⟩) := by
  have joined := (holds.addEdge_numbers first second kind).mpr ⟨different, new, rfl⟩
  obtain ⟨left, right, apart, unmet, _⟩ := (addEdge_ok holds.sound).mp joined
  constructor
  case once => exact holds.once
  case known =>
    intro w listed
    rcases List.mem_append.mp listed with old | last
    · exact holds.known w old
    · rw [List.mem_singleton.mp last]
      exact ⟨first, second⟩
  case ids => exact holds.ids
  case vertices => exact holds.vertices
  case edges =>
    have linked := (link_edges draft.diagram (sheet.number s) (sheet.number t) kind).trans (holds.edges.cons _)
    rw [Sheet.withWire, List.map_append, List.map_singleton]
    exact linked.trans (List.perm_append_singleton _ _).symm
  case ends => exact holds.ends
  case sound => exact holds.sound.link left right apart unmet kind
  case unfreed => exact holds.unfreed
  case next => exact holds.next
  case scalar => exact holds.scalar

theorem step_sound (holds : Holds draft sheet) (done : draft.carryOut item = .ok after) :
    ∃ next, Takes sheet item next ∧ Holds after next := by
  cases item with
  | vertex n attrs =>
    obtain ⟨new, x, declares, rfl⟩ := addVertex_exact.mp done
    have new := holds.lookup_none.mp new
    exact ⟨_, .vertex new declares, holds.withVertex (declares.file ▸ new)⟩
  | edge s t attrs =>
    obtain ⟨kind, a, b, diagram, color, left, right, joined, rfl⟩ := addEdge_exact.mp done
    obtain ⟨first, rfl⟩ := holds.lookup_some.mp left
    obtain ⟨second, rfl⟩ := holds.lookup_some.mp right
    obtain ⟨different, new, rfl⟩ := (holds.addEdge_numbers first second kind).mp joined
    exact ⟨_, .edge color first second different new, holds.withWire first second different new kind⟩

theorem step_complete (holds : Holds draft sheet) (taken : Takes sheet item last) :
    ∃ after, draft.carryOut item = .ok after ∧ Holds after last := by
  cases taken with
  | vertex new declares =>
    exact ⟨_, addVertex_exact.mpr ⟨holds.lookup_none.mpr new, _, declares, rfl⟩, holds.withVertex (declares.file ▸ new)⟩
  | edge color first second different new =>
    rename_i s t attrs kind
    have joined := (holds.addEdge_numbers first second kind).mpr ⟨different, new, rfl⟩
    refine ⟨_, addEdge_exact.mpr ⟨kind, _, _, _, color, ?_, ?_, joined, rfl⟩, holds.withWire first second different new kind⟩
    · exact holds.lookup_some.mpr ⟨first, rfl⟩
    · exact holds.lookup_some.mpr ⟨second, rfl⟩

theorem run_sound (holds : Holds draft sheet) (done : items.foldlM Draft.carryOut draft = .ok after) :
    ∃ last, TakesAll sheet items last ∧ Holds after last := by
  induction items generalizing draft sheet with
  | nil =>
    cases done
    exact ⟨sheet, .nil, holds⟩
  | cons item items ih =>
    rw [List.foldlM_cons] at done
    obtain ⟨middle, one, done⟩ := bind_ok.mp done
    obtain ⟨next, taken, holds⟩ := holds.step_sound one
    obtain ⟨last, others, holds⟩ := ih holds done
    exact ⟨last, .cons taken others, holds⟩

theorem run_complete (holds : Holds draft sheet) (taken : TakesAll sheet items last) :
    ∃ after, items.foldlM Draft.carryOut draft = .ok after ∧ Holds after last := by
  induction taken generalizing draft with
  | nil => exact ⟨draft, rfl, holds⟩
  | cons one _ ih =>
    obtain ⟨middle, first, holds⟩ := holds.step_complete one
    obtain ⟨after, done, holds⟩ := ih holds
    refine ⟨after, ?_, holds⟩
    rw [List.foldlM_cons]
    exact bind_ok.mpr ⟨middle, first, done⟩

end Holds

end ToffoliBench.Drawing
