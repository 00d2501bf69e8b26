import Mathlib.Data.List.Pairwise
import ToffoliBench.Circuit.Fragment
import ToffoliBench.Proofs.Diagram.Growth

namespace ToffoliBench

open Diagram

namespace Line

def vertices (length : Float) (spiderOn : Nat → Option Vertex) (line : Line) : List (Nat × Vertex) :=
  (line.start, Vertex.boundary.placed line.qubit.toFloat 0) :: (line.stop, Vertex.boundary.placed line.qubit.toFloat length) ::
    match line.spider, spiderOn line.qubit with
    | some s, some x => [(s, x.placed line.qubit.toFloat 1)]
    | _, _ => []

def wires (line : Line) : List Edge :=
  match line.spider with
  | none => [.between line.start line.stop .simple]
  | some s => [.between line.start s .simple, .between s line.stop .simple]

-- A line has a spider exactly where one was asked for.
def Fits (spiderOn : Nat → Option Vertex) (line : Line) : Prop := line.spider.isSome = (spiderOn line.qubit).isSome

end Line

namespace Fragment

variable {d after : Diagram} {length : Float} {spiderOn : Nat → Option Vertex} {q : Nat} {line : Line}

-- The line of a qubit when the next id is `n`.
def lineFrom (spiderOn : Nat → Option Vertex) (q n : Nat) : Line := ⟨q, n, n + 1, (spiderOn q).map fun _ => n + 2⟩

theorem addLine_grown (sound : d.Sound) (unfreed : d.freed = []) (length : Float) (spiderOn : Nat → Option Vertex) (q : Nat) :
    ∃ after, addLine d length q (spiderOn q) = (after, lineFrom spiderOn q d.next) ∧
      Grown d after ((lineFrom spiderOn q d.next).vertices length spiderOn) (lineFrom spiderOn q d.next).wires := by
  have first : Grown d (d.add _) [(d.next, Vertex.boundary.placed q.toFloat 0)] [] := (Grown.start sound unfreed).add _
  have second : Grown d ((d.add _).add _) [(d.next, Vertex.boundary.placed q.toFloat 0),
    (d.next + 1, Vertex.boundary.placed q.toFloat length)] [] := first.add _
  have startPlace := fresh_unfreed unfreed
  have stopPlace := first.fresh
  cases asked : spiderOn q with
  | none =>
    simp only [addLine, startPlace, stopPlace, Line.vertices, Line.wires, lineFrom, asked, Option.map_none]
    refine ⟨_, rfl, ?_⟩
    exact second.link (second.mem_ids.mpr (by simp)) (second.mem_ids.mpr (by simp)) (by simp) (sound.unmet (by simp)) (by simp) .simple
  | some x =>
    have third : Grown d (((d.add _).add _).add _) [(d.next, Vertex.boundary.placed q.toFloat 0),
      (d.next + 1, Vertex.boundary.placed q.toFloat length), (d.next + 2, x.placed q.toFloat 1)] [] := second.add _
    have spiderPlace := second.fresh
    simp only [addLine, startPlace, stopPlace, spiderPlace, Line.vertices, Line.wires, lineFrom, asked, Option.map_some]
    refine ⟨_, rfl, ?_⟩
    have half := third.link (a := d.next) (b := d.next + 2) (third.mem_ids.mpr (by simp)) (third.mem_ids.mpr (by simp)) (by simp)
      (sound.unmet (by simp)) (by simp) .simple
    exact half.link (half.mem_ids.mpr (by simp)) (half.mem_ids.mpr (by simp)) (by simp) (sound.unmet (by simp)) (by simp [Edge.between_ends_iff]) .simple

theorem line_inward (sound : d.Sound) (inner : ∀ x, spiderOn q = some x → x.kind ≠ .boundary) :
    Inward d ((lineFrom spiderOn q d.next).vertices length spiderOn) (lineFrom spiderOn q d.next).wires
      [d.next] [d.next + 1] := by
  have beyond : ∀ k, d.next + k ∉ d.ids := fun k => sound.beyond (by omega)
  cases asked : spiderOn q with
  | none =>
    simp only [Line.vertices, Line.wires, lineFrom, asked, Option.map_none]
    constructor
    case inner =>
      intro v bound
      have used := sound.bound_used bound
      simp only [List.forall_mem_cons, Edge.touches_between]
      refine ⟨by omega, ?_⟩
      simp
    case outputsNew => simpa [Edge.between_ends_iff] using beyond 0
    all_goals simp [boundaries, Edge.touches_between, Edge.between_ends_iff, Vertex.placed, Vertex.boundary]
  | some x =>
    have spider := inner x asked
    simp only [Line.vertices, Line.wires, lineFrom, asked, Option.map_some]
    constructor
    case inner =>
      intro v bound
      have used := sound.bound_used bound
      simp only [List.forall_mem_cons, Edge.touches_between]
      refine ⟨by omega, by omega, ?_⟩
      simp
    case outputsNew => simpa [Edge.between_ends_iff] using beyond 2
    all_goals simp [boundaries, Edge.touches_between, Edge.between_ends_iff, List.countP_cons, Vertex.placed, Vertex.boundary,
      spider]

-- Line after line; whatever ends the diagram had, it gains those of the lines.
structure Laid (length : Float) (spiderOn : Nat → Option Vertex) (d after : Diagram) (qs : List Nat) (lines : List Line) : Prop where
  grown : Grown d after (lines.flatMap (·.vertices length spiderOn)) (lines.flatMap (·.wires))
  qubits : lines.map (·.qubit) = qs
  fits : ∀ line ∈ lines, line.Fits spiderOn
  tidy : ∀ ins outs, (d.within ins outs).Tidy →
    (after.within (ins ++ lines.map (·.start)) (outs ++ lines.map (·.stop))).Tidy

theorem addLines_laid (inner : ∀ q x, spiderOn q = some x → x.kind ≠ .boundary) (sound : d.Sound) (unfreed : d.freed = [])
    (qs : List Nat) : Laid length spiderOn d (addLines length spiderOn d qs).1 qs (addLines length spiderOn d qs).2 := by
  induction qs generalizing d with
  | nil => exact ⟨.start sound unfreed, rfl, by simp [addLines], fun ins outs tidy => by simpa [addLines] using tidy⟩
  | cons q rest ih =>
    obtain ⟨middle, laid, grown⟩ := addLine_grown sound unfreed length spiderOn q
    have later := ih grown.sound grown.unfreed
    simp only [addLines, laid]
    generalize addLines length spiderOn middle rest = result at later
    obtain ⟨after, lines⟩ := result
    refine ⟨?_, by simp [lineFrom, later.qubits], ?_, fun ins outs tidy => ?_⟩
    · simpa only [List.flatMap_cons] using grown.trans later.grown
    · intro line present
      rcases List.mem_cons.mp present with rfl | old
      · simp [Line.Fits, lineFrom]
      · exact later.fits line old
    · have one := tidy.grow grown (line_inward sound fun x asked => inner q x asked)
      have all := later.tidy _ _ one
      simpa only [List.map_cons, lineFrom, List.append_assoc, List.singleton_append] using all

section

variable {qs : List Nat} {lines : List Line} {s t : Nat} (laid : Laid length spiderOn empty d qs lines)
include laid

theorem Laid.once : ((lines.flatMap (·.vertices length spiderOn)).map Prod.fst).Nodup :=
  laid.grown.ids.nodup_iff.mp laid.grown.sound.nodup

theorem Laid.listed {entry : Nat × Vertex} (present : line ∈ lines) (own : entry ∈ line.vertices length spiderOn) :
    entry ∈ d.vertices :=
  laid.grown.vertices.mem_iff.mpr (List.mem_append_right _ (List.mem_flatMap.mpr ⟨line, present, own⟩))

theorem Laid.ends_bound (present : line ∈ lines) : d.IsBoundary line.start ∧ d.IsBoundary line.stop :=
  ⟨⟨_, laid.listed present List.mem_cons_self, rfl⟩, ⟨_, laid.listed present (List.mem_cons_of_mem _ List.mem_cons_self), rfl⟩⟩

theorem Laid.spider_vertex (present : line ∈ lines) (held : line.spider = some s) :
    ∃ x, spiderOn line.qubit = some x ∧ (s, x.placed line.qubit.toFloat 1) ∈ d.vertices := by
  have fits := laid.fits line present
  rw [Line.Fits, held] at fits
  obtain ⟨x, asked⟩ := Option.isSome_iff_exists.mp fits.symm
  exact ⟨x, asked, laid.listed present (by simp [Line.vertices, held, asked])⟩

theorem Laid.spider_live (present : line ∈ lines) (held : line.spider = some s) : s ∈ d.ids := by
  obtain ⟨x, _, listed⟩ := laid.spider_vertex present held
  exact List.mem_map_of_mem listed

theorem Laid.spider_inner (inner : ∀ q x, spiderOn q = some x → x.kind ≠ .boundary) (present : line ∈ lines)
    (held : line.spider = some s) : ¬d.IsBoundary s := by
  obtain ⟨x, asked, listed⟩ := laid.spider_vertex present held
  rintro ⟨y, again, bound⟩
  obtain rfl := vertex_unique laid.grown.sound.nodup listed again
  exact inner _ x asked bound

-- Different lines have different spiders.
theorem Laid.spider_line {other : Line} (present : line ∈ lines) (held : line.spider = some s) (again : other ∈ lines)
    (shared : other.spider = some s) : line = other := by
  have once := laid.once
  rw [List.map_flatMap, List.nodup_flatMap] at once
  have own : ∀ one ∈ lines, one.spider = some s → s ∈ (one.vertices length spiderOn).map Prod.fst := by
    intro one listed spider
    have fits := laid.fits one listed
    rw [Line.Fits, spider] at fits
    obtain ⟨x, asked⟩ := Option.isSome_iff_exists.mp fits.symm
    simp [Line.vertices, spider, asked]
  by_contra different
  have : Std.Symm (Function.onFun List.Disjoint fun one : Line => (one.vertices length spiderOn).map Prod.fst) :=
    ⟨fun _ _ apart _ left right => apart right left⟩
  have disjoint := once.2.forall present again different
  exact disjoint (own line present held) (own other again shared)

theorem Laid.spider_same (once : qs.Nodup) {other : Line} (present : line ∈ lines) (held : line.spider = some s)
    (again : other ∈ lines) (shared : other.spider = some t) : s = t ↔ line.qubit = other.qubit := by
  constructor
  · rintro rfl
    rw [laid.spider_line present held again shared]
  · intro same
    have only : line = other := List.inj_on_of_nodup_map (laid.qubits ▸ once) present again same
    exact Option.some.inj (held.symm.trans (only ▸ shared))

-- Every wire of a line has one of its two ends on it.
theorem Laid.spiders_unmet (inner : ∀ q x, spiderOn q = some x → x.kind ≠ .boundary) {other : Line} (present : line ∈ lines)
    (held : line.spider = some s) (again : other ∈ lines) (shared : other.spider = some t) : ¬d.Adjacent s t := by
  intro near
  rcases laid.grown.adjacent.mp near with ⟨e, old, _⟩ | ⟨e, listed, ends⟩
  · cases old
  obtain ⟨wire, known, own⟩ := List.mem_flatMap.mp listed
  have left := laid.spider_inner inner present held
  have right := laid.spider_inner inner again shared
  obtain ⟨start, stop⟩ := laid.ends_bound known
  have touched : e.Ends s t → ∀ v, e.touches v = true → v = s ∨ v = t := by
    intro ends v hit
    rw [Edge.touches_iff] at hit
    simp only [Edge.Ends] at ends
    omega
  have bound : ∃ v, e.touches v = true ∧ d.IsBoundary v := by
    unfold Line.wires at own
    split at own
    · obtain rfl := List.mem_singleton.mp own
      exact ⟨_, Edge.touches_between.mpr (.inl rfl), start⟩
    · simp only [List.mem_cons, List.not_mem_nil, or_false] at own
      rcases own with rfl | rfl
      · exact ⟨_, Edge.touches_between.mpr (.inl rfl), start⟩
      · exact ⟨_, Edge.touches_between.mpr (.inr rfl), stop⟩
  obtain ⟨v, hit, end_⟩ := bound
  rcases touched ends v hit with rfl | rfl
  · exact left end_
  · exact right end_

end

-- A qubit that asks for a spider has a line with one on it.
theorem Laid.spider_on {qs : List Nat} {lines : List Line} {q : Nat} (laid : Laid length spiderOn d after qs lines) (listed : q ∈ qs)
    (asked : (spiderOn q).isSome = true) : ∃ line ∈ lines, line.qubit = q ∧ ∃ s, line.spider = some s := by
  rw [← laid.qubits] at listed
  obtain ⟨line, present, rfl⟩ := List.mem_map.mp listed
  exact ⟨line, present, rfl, Option.isSome_iff_exists.mp ((laid.fits line present).trans asked)⟩

theorem spiderOf_line {lines : List Line} (once : (lines.map (·.qubit)).Nodup) (present : line ∈ lines) :
    spiderOf lines line.qubit = line.spider := by
  have found : lines.find? (·.qubit == line.qubit) = some line := by
    cases seek : lines.find? (·.qubit == line.qubit) with
    | none => simpa using List.find?_eq_none.mp seek line present
    | some other =>
      have same : other.qubit = line.qubit := by simpa using List.find?_some seek
      exact congrArg some (List.inj_on_of_nodup_map once (List.mem_of_find?_eq_some seek) present same)
  rw [spiderOf, found]
  rfl

theorem empty_tidy : (empty.within [] []).Tidy :=
  ⟨by decide, nofun, nofun, nofun⟩

theorem register_laid (inner : ∀ q x, spiderOn q = some x → x.kind ≠ .boundary) (qubits : Nat) (length : Float) :
    Laid length spiderOn empty (register qubits length spiderOn).1 (List.range qubits) (register qubits length spiderOn).2 :=
  addLines_laid inner empty_sound empty_unfreed _

theorem register_tidy (inner : ∀ q x, spiderOn q = some x → x.kind ≠ .boundary) (qubits : Nat) (length : Float) :
    ((register qubits length spiderOn).1.within ((register qubits length spiderOn).2.map (·.start))
      ((register qubits length spiderOn).2.map (·.stop))).Tidy :=
  (register_laid inner qubits length).tidy [] [] empty_tidy

-- The lists of ends play no part while lines are laid.
theorem addLine_within (d : Diagram) (ins outs : List Nat) (length : Float) (q : Nat) (x : Option Vertex) :
    addLine (d.within ins outs) length q x = ((addLine d length q x).1.within ins outs, (addLine d length q x).2) := by
  cases x <;> rfl

theorem addLines_within (d : Diagram) (ins outs : List Nat) (length : Float) (spiderOn : Nat → Option Vertex) (qs : List Nat) :
    addLines length spiderOn (d.within ins outs) qs =
      ((addLines length spiderOn d qs).1.within ins outs, (addLines length spiderOn d qs).2) := by
  induction qs generalizing d with
  | nil => rfl
  | cons q rest ih => simp only [addLines, addLine_within, ih]

theorem identity_register (n : Nat) : Diagram.identity n = withEnds (register n 1 fun _ => none).1 (register n 1 fun _ => none).2 := by
  have all : ∀ (qs : List Nat) (d : Diagram), qs.foldl addWire d = (addLines 1 (fun _ => none) d qs).1.within
      (d.inputs ++ (addLines 1 (fun _ => none) d qs).2.map (·.start))
      (d.outputs ++ (addLines 1 (fun _ => none) d qs).2.map (·.stop)) := by
    intro qs
    induction qs with
    | nil => simp [addLines]
    | cons q rest ih =>
      intro d
      have step : d.addWire q = (addLine d 1 q none).1.within (d.inputs ++ [(addLine d 1 q none).2.start])
          (d.outputs ++ [(addLine d 1 q none).2.stop]) := rfl
      rw [List.foldl_cons, step, ih, addLines_within]
      simp [addLines]
  exact all _ _

end Fragment

end ToffoliBench
