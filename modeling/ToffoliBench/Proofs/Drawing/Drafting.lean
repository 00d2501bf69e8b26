import Mathlib.Data.List.Nodup
import ToffoliBench.Proofs.Drawing.Grammar
import ToffoliBench.Proofs.Drawing.Numbering
import ToffoliBench.Proofs.Drawing.Statements

namespace ToffoliBench.Drawing

open Diagram Outcome

variable {d : Diagram}

-- What a diagram must be to be read back: ids fit a word, the ends are different vertices without
-- phases, and every phase and coordinate has a text of its own.
structure Drawable (d : Diagram) : Prop where
  sound : d.Sound
  small : ∀ v ∈ d.ids, v ≤ Range.maxWord
  inputs : d.inputs.Nodup
  outputs : d.outputs.Nodup
  disjoint : d.inputs.Disjoint d.outputs
  ends : ∀ v ∈ d.inputs ++ d.outputs, ∃ x, (v, x) ∈ d.vertices ∧ x.phase = .zero
  phases : ∀ entry ∈ d.vertices, entry.2.phase.Built
  coordinates : ∀ entry ∈ d.vertices, Plain entry.2.qubit ∧ Plain entry.2.row

def onSide (d : Diagram) : Side → List Nat
  | .input => d.inputs
  | .output => d.outputs

theorem Drawable.sideOf_iff (drawable : Drawable d) {v : Nat} {side : Side} : sideOf d v = some side ↔ v ∈ onSide d side := by
  unfold sideOf
  by_cases input : v ∈ d.inputs
  · have other : v ∉ d.outputs := fun output => drawable.disjoint input output
    cases side <;> simp [onSide, input, other]
  · by_cases output : v ∈ d.outputs <;> cases side <;> simp [onSide, input, output]

theorem Drawable.side (drawable : Drawable d) {v : Nat} {side : Side} (listed : v ∈ onSide d side) :
    ∃ x, (v, x) ∈ d.vertices ∧ x.phase = .zero := by
  refine drawable.ends v ?_
  cases side with
  | input => exact List.mem_append_left _ listed
  | output => exact List.mem_append_right _ listed

theorem Drawable.plain (drawable : Drawable d) {v : Nat} {x : Vertex} (present : (v, x) ∈ d.vertices)
    (side : (sideOf d v).isSome = true) : x.phase = .zero := by
  obtain ⟨side, known⟩ := Option.isSome_iff_exists.mp side
  obtain ⟨y, there, zero⟩ := drawable.side (drawable.sideOf_iff.mp known)
  rw [vertex_unique drawable.sound.nodup present there, zero]

def drafted (d : Diagram) (entries : List (Nat × Vertex)) (es : List Edge) : Draft where
  diagram := d.rendered entries es
  ids := entries.map fun entry => (entry.1, d.number entry.1)
  ends := entries.flatMap fun entry => endsOf d entry.1 entry.2 (d.number entry.1)

theorem drafted_lookup {v : Nat} {entries : List (Nat × Vertex)} {es : List Edge} :
    (drafted d entries es).ids.lookup v = if v ∈ entries.map Prod.fst then some (d.number v) else none := by
  unfold drafted
  dsimp only
  induction entries with
  | nil => rfl
  | cons entry rest ih =>
    rw [List.map_cons, List.lookup_cons, ih]
    by_cases here : v = entry.1
    · simp [here]
    · have other : (v == entry.1) = false := beq_eq_false_iff_ne.mpr here
      simp only [other, List.map_cons, List.mem_cons, here, false_or]

theorem drafted_vertex {v : Nat} (present : v ∈ d.ids) {es : List Edge} : (drafted d d.vertices es).vertex v = .ok (d.number v) := by
  rw [Draft.vertex, drafted_lookup, if_pos (by exact present)]

-- The next vertex gets the next number.
theorem drafted_addVertex (drawable : Drawable d) {before after : List (Nat × Vertex)} {v : Nat} {x : Vertex}
    (split : d.vertices = before ++ (v, x) :: after) :
    (drafted d before []).addVertex v (vertexAttributes d v x) = .ok (drafted d (before ++ [(v, x)]) []) := by
  have present : (v, x) ∈ d.vertices := split ▸ List.mem_append_right _ List.mem_cons_self
  have ids : d.ids = before.map Prod.fst ++ v :: after.map Prod.fst := by simp [Diagram.ids, split]
  have ascending := drawable.sound.ascending
  rw [ids] at ascending
  have earlier : ∀ u ∈ before.map Prod.fst, u < v := fun u listed =>
    (List.pairwise_append.mp ascending).2.2 u listed v List.mem_cons_self
  have new : v ∉ before.map Prod.fst := fun listed => Nat.lt_irrefl _ (earlier v listed)
  have number : d.number v = before.length := by
    rw [Diagram.number, ids, List.idxOf_append_of_notMem new, List.idxOf_cons_self, List.length_map, Nat.add_zero]
  obtain ⟨qubit, row⟩ := drawable.coordinates _ present
  have unread : (drafted d before []).ids.lookup v = none := by rw [drafted_lookup, if_neg new]
  rw [addVertex_written unread qubit row (drawable.phases _ present).normal (drawable.plain present)]
  have fresh : (drafted d before []).diagram.fresh = d.number v := number.symm
  have last : ∀ u ∈ (before.map fun entry => (d.number entry.1, { entry.2 with marker := none })).map Prod.fst, u < d.number v := by
    intro u listed
    rw [List.map_map] at listed
    obtain ⟨entry, there, rfl⟩ := List.mem_map.mp listed
    have live : entry.1 ∈ d.ids := ids ▸ List.mem_append_left _ (List.mem_map_of_mem there)
    exact (drawable.sound.number_lt live (List.mem_map_of_mem present)).mpr (earlier _ (List.mem_map_of_mem there))
  have added : (drafted d before []).diagram.add { x with marker := none } = d.rendered (before ++ [(v, x)]) [] := by
    rw [Diagram.add, fresh]
    simp only [drafted, rendered, List.isEmpty_nil, if_true, List.tail_nil, List.map_append, List.map_cons, List.map_nil,
      List.length_append, List.length_singleton]
    rw [insertVertex_last last]
  rw [fresh, added]
  simp [drafted]

theorem body_vertices (drawable : Drawable d) {before rest : List (Nat × Vertex)} (split : d.vertices = before ++ rest) (ts : List Token) :
    body (drafted d before []) (rest.flatMap (fun entry => vertexTokens d entry.1 entry.2) ++ ts) = body (drafted d d.vertices []) ts := by
  induction rest generalizing before with
  | nil => rw [split, List.append_nil, List.flatMap_nil, List.nil_append]
  | cons entry later ih =>
    obtain ⟨v, x⟩ := entry
    have shifted : d.vertices = (before ++ [(v, x)]) ++ later := by rw [split, List.append_assoc, List.singleton_append]
    have added : (drafted d before []).carryOut (.vertex v (vertexAttributes d v x)) = .ok (drafted d (before ++ [(v, x)]) []) :=
      drafted_addVertex drawable split
    rw [List.flatMap_cons, List.append_assoc, ← ih shifted]
    exact body_statement statement_vertex added

theorem edgeColor_written (e : Edge) : edgeColor ((edgeAttributes e).lookup "color") = .ok e.kind := by
  obtain ⟨a, b, kind⟩ := e
  cases kind <;> rfl

theorem drafted_addEdge (drawable : Drawable d) {before after : List Edge} {e : Edge} (split : d.edges = before ++ e :: after) :
    (drafted d d.vertices before).addEdge e.low e.high (edgeAttributes e) = .ok (drafted d d.vertices (before ++ [e])) := by
  have present : e ∈ d.edges := split ▸ List.mem_append_right _ List.mem_cons_self
  have old : ∀ f ∈ before, f ∈ d.edges ∧ f.before e = true := by
    intro f listed
    have sorted := drawable.sound.sorted
    rw [split] at sorted
    exact ⟨split ▸ List.mem_append_left _ listed, (List.pairwise_append.mp sorted).2.2 f listed e List.mem_cons_self⟩
  obtain ⟨low, high⟩ := drawable.sound.live e present
  have ordered := (drawable.sound.number_lt low high).mpr (drawable.sound.ordered e present)
  have sound : (d.rendered d.vertices before).Sound := drawable.sound.rendered (split ▸ List.sublist_append_left _ _)
  have last : ∀ f ∈ before.map d.renumbered, f.before (d.renumbered e) = true := by
    intro f listed
    obtain ⟨g, there, rfl⟩ := List.mem_map.mp listed
    exact drawable.sound.renumbered_before (old g there).1 present (old g there).2
  have unmet : ¬(d.rendered d.vertices before).Adjacent (d.number e.low) (d.number e.high) := by
    rintro ⟨f, listed, ends⟩
    have less := Edge.before_iff.mp (last f listed)
    have straight := sound.ordered f listed
    rcases ends with ⟨one, two⟩ | ⟨one, two⟩ <;> simp only [renumbered] at less <;> omega
  have between : Edge.between (d.number e.low) (d.number e.high) e.kind = d.renumbered e := by
    rw [Edge.between, Nat.min_eq_left ordered.le, Nat.max_eq_right ordered.le, renumbered]
  have linked : (d.rendered d.vertices before).addEdge (d.number e.low) (d.number e.high) e.kind = .ok (d.rendered d.vertices (before ++ [e])) := by
    have left : (d.rendered d.vertices before).contains (d.number e.low) = true := contains_iff.mpr (mem_rendered low)
    have right : (d.rendered d.vertices before).contains (d.number e.high) = true := contains_iff.mpr (mem_rendered high)
    have free : ¬(d.rendered d.vertices before).connected (d.number e.low) (d.number e.high) = true := fun met =>
      unmet (sound.connected_iff.mp met)
    rw [Diagram.addEdge, left, right]
    simp only [Bool.not_true, Bool.false_eq_true, if_false, ordered.ne, free]
    rw [link, between]
    simp only [rendered, List.map_append, List.map_cons, List.map_nil]
    rw [insertEdge_last last]
  unfold Draft.addEdge
  rw [edgeColor_written, drafted_vertex low, drafted_vertex high]
  exact bind_ok.mpr ⟨_, rfl, bind_ok.mpr ⟨_, rfl, bind_ok.mpr ⟨_, rfl, bind_ok.mpr ⟨_, mapError_ok.mpr linked, rfl⟩⟩⟩⟩

theorem body_edges (drawable : Drawable d) {before rest : List Edge} (split : d.edges = before ++ rest) :
    body (drafted d d.vertices before) (rest.flatMap edgeTokens ++ [.closeBrace]) = .ok (drafted d d.vertices d.edges) := by
  induction rest generalizing before with
  | nil =>
    rw [split, List.append_nil, List.flatMap_nil, List.nil_append, body]
  | cons e later ih =>
    have shifted : d.edges = (before ++ [e]) ++ later := by rw [split, List.append_assoc, List.singleton_append]
    have added : (drafted d d.vertices before).carryOut (.edge e.low e.high (edgeAttributes e)) =
        .ok (drafted d d.vertices (before ++ [e])) := drafted_addEdge drawable split
    have stops : (later.flatMap edgeTokens ++ [Token.closeBrace]).head? ≠ some .openBracket := by
      cases later <;> simp [edgeTokens]
    rw [List.flatMap_cons, List.append_assoc, ← ih shifted]
    exact body_statement (statement_edge stops) added

-- All lines read.
theorem read_chars (drawable : Drawable d) : read (text d) = .ok (drafted d d.vertices d.edges).finish ∧
    read (trimmedText d) = .ok (drafted d d.vertices d.edges).finish := by
  have normal : ∀ entry ∈ d.vertices, entry.2.phase.Normal := fun entry present => (drawable.phases entry present).normal
  have positions : ∀ entry ∈ d.vertices, '"' ∉ positionText entry.2 := fun entry present =>
    position_unquoted (drawable.coordinates entry present).1 (drawable.coordinates entry present).2
  obtain ⟨whole, trimmed⟩ := tokens_chars drawable.small drawable.sound.live
    (fun entry present => label_unquoted (d := d) (v := entry.1) (normal entry present)) positions
  have done : readTokens (.graph :: .openBrace :: bodyTokens d) = .ok (drafted d d.vertices d.edges).finish := by
    have ran : body {} (bodyTokens d) = .ok (drafted d d.vertices d.edges) := by
      have vertices : body (drafted d [] []) (bodyTokens d) = body (drafted d d.vertices []) _ := body_vertices drawable rfl _
      have edges : body (drafted d d.vertices []) (d.edges.flatMap edgeTokens ++ [.closeBrace]) = _ := body_edges drawable rfl
      exact vertices.trans edges
    unfold readTokens
    exact bind_ok.mpr ⟨_, rfl, bind_ok.mpr ⟨_, rfl, bind_ok.mpr ⟨_, ran, rfl⟩⟩⟩
  unfold read text trimmedText
  rw [String.toList_ofList, String.toList_ofList]
  exact ⟨bind_ok.mpr ⟨_, whole, done⟩, bind_ok.mpr ⟨_, trimmed, done⟩⟩

end ToffoliBench.Drawing
