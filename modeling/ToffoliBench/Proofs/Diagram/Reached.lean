import Mathlib.Algebra.BigOperators.Group.List.Lemmas
import Mathlib.Algebra.GroupWithZero.Nat
import ToffoliBench.Proofs.Diagram.Upkeep
import ToffoliBench.Proofs.Drawing.Acceptance

namespace ToffoliBench.Diagram
open Outcome

-- What a call that returns leaves behind, its result or the diagram it stopped in. A call that
-- panics does not return.
inductive Settles : Except Interrupted Diagram → Diagram → Prop
  | done {after : Diagram} : Settles (.ok after) after
  | stopped {stop : Interrupted} (returned : ∀ f, stop.cause ≠ .fault f) : Settles (.error stop) stop.left

-- A refused call on one vertex or wire changes nothing; the longer operations stop where they are.
inductive Edit (d : Diagram) : Diagram → Prop
  | add (x : Vertex) : Edit d (d.add x)
  | set (v : Nat) (x : Vertex) : Edit d (d.set v x)
  | remove {after : Diagram} (v : Nat) : Settles (((d.remove v).map Prod.snd).mapError (Interrupted.mk · d)) after → Edit d after
  | addEdge {after : Diagram} (a b : Nat) (kind : EdgeKind) :
      Settles ((d.addEdge a b kind).mapError (Interrupted.mk · d)) after → Edit d after
  | removeEdge (a b : Nat) : Edit d (d.removeEdge a b).2
  | setInputs (inputs : List Nat) : Edit d { d with inputs }
  | setOutputs (outputs : List Nat) : Edit d { d with outputs }
  | setScalar (scalar : Scalar) : Edit d { d with scalar }
  | plugInputs {after : Diagram} (states : List BasisState) : Settles (d.plugInputs states) after → Edit d after
  | plugOutputs {after : Diagram} (states : List BasisState) : Settles (d.plugOutputs states) after → Edit d after
  | resolveMarkers {after : Diagram} : Settles (d.resolveMarkers.map Prod.snd) after → Edit d after

inductive Union (d other : Diagram) : Diagram → Prop
  | append (qubits rows : Float) : Union d other (d.append other qubits rows).1
  | compose {after : Diagram} : Settles (d.compose other) after → Union d other after
  | tensor {after : Diagram} : d.tensor other = .ok after → Union d other after

inductive Reached : Diagram → Prop
  | empty : Reached .empty
  | identity (n : Nat) : Reached (identity n)
  | drawn {source : String} {drawn : Drawing.Drawn} : Drawing.read source = .ok drawn → Reached drawn.diagram
  | edit {d after : Diagram} : Reached d → Edit d after → Reached after
  | union {d other after : Diagram} : Reached d → Reached other → Union d other after → Reached after

variable {d other after : Diagram} {a b v w : Nat}

theorem Settles.sound {call : Except Interrupted Diagram} (settles : Settles call after) (upheld : Upheld Sound call) :
    after.Sound := by
  cases settles with
  | done => exact upheld
  | stopped _ => exact upheld

theorem Edit.sound (edit : Edit d after) (sound : d.Sound) : after.Sound := by
  cases edit with
  | add x => exact sound.add x
  | set v x => exact sound.set v x
  | remove v settles =>
    refine settles.sound (.attempt sound fun _ done => ?_)
    obtain ⟨entry, removed, rfl⟩ := map_ok.mp done
    exact sound.remove removed
  | addEdge a b kind settles => exact settles.sound (.attempt sound fun _ => sound.addEdge)
  | removeEdge a b => exact sound.removeEdge a b
  | setInputs inputs => exact sound.listed inputs d.outputs
  | setOutputs outputs => exact sound.listed d.inputs outputs
  | setScalar scalar => exact sound.rescaled scalar
  | plugInputs states settles => exact settles.sound sound.plugInputs
  | plugOutputs states settles => exact settles.sound sound.plugOutputs
  | resolveMarkers settles => exact settles.sound (sound.resolveMarkers.bind fun _ resolved => resolved)

theorem Union.sound (union : Union d other after) (left : d.Sound) (right : other.Sound) : after.Sound := by
  cases union with
  | append qubits rows => exact (append_appended left right qubits rows).sound
  | compose settles => exact settles.sound (left.compose right)
  | tensor done => exact left.tensor right done

theorem Reached.sound (reached : Reached d) : d.Sound := by
  induction reached with
  | empty => exact empty_sound
  | identity n => exact identity_sound n
  | drawn done =>
    obtain ⟨_, _, renders⟩ := Drawing.read_draws done
    exact renders.sound
  | edit _ edit ih => exact edit.sound ih
  | union _ _ union left right => exact union.sound left right

-- A graph as it looks from outside.
structure Simple (d : Diagram) : Prop where
  joined : ∀ e ∈ d.edges, e.low ∈ d.ids ∧ e.high ∈ d.ids ∧ e.low ≠ e.high
  once : d.edges.Pairwise fun e f => ∀ a b, e.Ends a b → ¬f.Ends a b
  kinds : ∀ a b kind, d.edgeKind? a b = some kind ↔ ∃ e ∈ d.edges, e.Ends a b ∧ e.kind = kind
  alike : ∀ a b, d.edgeKind? a b = d.edgeKind? b a
  neighbors : ∀ v, (d.neighbors v).Pairwise (· < ·) ∧ ∀ w, w ∈ d.neighbors v ↔ d.Adjacent v w
  degrees : (d.ids.map d.degree).sum = 2 * d.edges.length

namespace Sound

variable (sound : d.Sound)
include sound

theorem edgeKind_iff {kind : EdgeKind} : d.edgeKind? a b = some kind ↔ ∃ e ∈ d.edges, e.Ends a b ∧ e.kind = kind := by
  have first : ∀ {e}, d.edges.find? (·.joins a b) = some e → e ∈ d.edges ∧ e.Ends a b := fun {e} found =>
    have held := List.mem_of_find?_eq_some found
    ⟨held, (Edge.joins_iff (sound.ordered e held)).mp (List.find?_eq_some_iff_append.mp found).1⟩
  rw [edgeKind?, Option.map_eq_some_iff]
  constructor
  · rintro ⟨e, found, same⟩
    obtain ⟨held, ends⟩ := first found
    exact ⟨e, held, ends, same⟩
  · rintro ⟨e, held, ends, same⟩
    have joined : (d.edges.find? (·.joins a b)).isSome := List.find?_isSome.mpr ⟨e, held, (Edge.joins_iff (sound.ordered e held)).mpr ends⟩
    obtain ⟨f, found⟩ := Option.isSome_iff_exists.mp joined
    obtain ⟨held', ends'⟩ := first found
    exact ⟨f, found, sound.edge_unique held' held ends' ends ▸ same⟩

theorem neighbors_ascending (v : Nat) : (d.neighbors v).Pairwise (· < ·) := by
  refine List.pairwise_filterMap.mpr (sound.sorted.imp_of_mem fun {e f} left right earlier w near u near' => ?_)
  have ends := (Edge.other_iff (sound.ordered e left)).mp near
  have ends' := (Edge.other_iff (sound.ordered f right)).mp near'
  have order := sound.ordered e left
  have order' := sound.ordered f right
  rw [Edge.before_iff] at earlier
  simp only [Edge.Ends] at ends ends'
  omega

end Sound

theorem touches_sum {vs : List Nat} {es : List Edge} (once : vs.Nodup)
    (inside : ∀ e ∈ es, e.low ∈ vs ∧ e.high ∈ vs ∧ e.low ≠ e.high) :
    (vs.map fun v => es.countP (·.touches v)).sum = 2 * es.length := by
  have one : ∀ u ∈ vs, (vs.map fun v => if v = u then 1 else 0).sum = 1 := fun u held => by
    rw [List.sum_map_eq_nsmul_single u _ fun v other _ => if_neg other, List.count_eq_one_of_mem once held, if_pos rfl]
    rfl
  induction es with
  | nil => simp
  | cons e rest ih =>
    obtain ⟨low, high, different⟩ := inside e List.mem_cons_self
    have ends : ∀ v, (if e.touches v = true then 1 else 0) = (if v = e.low then 1 else 0) + if v = e.high then 1 else 0 := by
      intro v
      simp only [Edge.touches_iff]
      split_ifs <;> omega
    simp only [List.countP_cons, List.sum_map_add, ends, ih fun f held => inside f (List.mem_cons_of_mem _ held),
      one _ low, one _ high, List.length_cons]
    omega

theorem Sound.simple (sound : d.Sound) : d.Simple := by
  have joined : ∀ e ∈ d.edges, e.low ∈ d.ids ∧ e.high ∈ d.ids ∧ e.low ≠ e.high := fun e held =>
    ⟨(sound.live e held).1, (sound.live e held).2, Nat.ne_of_lt (sound.ordered e held)⟩
  constructor
  case joined => exact joined
  case once => exact sound.edges_apart
  case kinds => exact fun a b kind => sound.edgeKind_iff
  case alike =>
    intro a b
    refine Option.ext fun kind => ?_
    rw [sound.edgeKind_iff, sound.edgeKind_iff]
    exact exists_congr fun e => and_congr_right fun _ => and_congr_left' ⟨Edge.Ends.symm, Edge.Ends.symm⟩
  case neighbors => exact fun v => ⟨sound.neighbors_ascending v, fun w => sound.mem_neighbors⟩
  case degrees =>
    rw [List.map_congr_left fun v _ => degree_eq d v]
    exact touches_sum sound.nodup joined

theorem reached_simple (reached : Reached d) : d.Simple := reached.sound.simple

def forked : Diagram := { identity 2 with outputs := [1, 1] }

-- A vertex that is added to what the failed composition left takes the id of the one removed last.
theorem reached_simple_halfway : ∃ stop after, forked.compose (identity 2) = .error stop ∧ stop.cause = .danglingBoundary 1 ∧
    (stop.left.add .z).addEdge 4 2 .hadamard = .ok after ∧ Reached after ∧ after.ids.map after.degree = [1, 2, 1, 1, 1, 1, 1] ∧
    after.edges.length = 4 ∧ after.Simple := by
  have resumed : ∀ stop after, forked.compose (identity 2) = .error stop → (∀ f, stop.cause ≠ .fault f) →
      (stop.left.add .z).addEdge 4 2 .hadamard = .ok after → Reached after := by
    intro stop after stopped returned joined
    have start : Reached forked := .edit (.identity 2) (.setOutputs [1, 1])
    have halfway : Reached stop.left := .union start (.identity 2) (.compose (stopped ▸ .stopped returned))
    exact .edit (.edit halfway (.add .z)) (.addEdge 4 2 .hadamard (joined ▸ .done))
  have reached := resumed _ _ rfl nofun rfl
  exact ⟨_, _, rfl, rfl, rfl, reached, rfl, rfl, reached_simple reached⟩

end ToffoliBench.Diagram
