import ToffoliBench.Proofs.Diagram.Growth
import ToffoliBench.Proofs.Diagram.Plugging
import ToffoliBench.Proofs.Diagram.Stars

namespace ToffoliBench.Diagram
open Outcome

-- A computation whose result has a property, and which leaves a sound diagram where it stops.
def Upheld {α : Type} (result : α → Prop) : Except Interrupted α → Prop
  | .ok a => result a
  | .error stop => stop.left.Sound

namespace Upheld

variable {α β ε : Type} {d : Diagram} {result : α → Prop} {next : β → Prop}

theorem bind {x : Except Interrupted α} {f : α → Except Interrupted β} (first : Upheld result x)
    (others : ∀ a, result a → Upheld next (f a)) : Upheld next (x >>= f) := by
  cases x with
  | error stop => exact first
  | ok a => exact others a first

theorem attempt {x : Except ε α} {cause : ε → DiagramError} (sound : d.Sound) (done : ∀ a, x = .ok a → result a) :
    Upheld result (x.mapError fun e => Interrupted.mk (cause e) d) := by
  cases x with
  | error e => exact sound
  | ok a => exact done a rfl

theorem step {x : Except ε α} {cause : ε → DiagramError} {f : α → Except Interrupted β} (sound : d.Sound)
    (others : ∀ a, x = .ok a → Upheld next (f a)) : Upheld next (x.mapError (fun e => Interrupted.mk (cause e) d) >>= f) :=
  (attempt sound fun _ done => done).bind others

end Upheld

variable {d other after : Diagram} {names : Renaming} {pairs : List (Nat × Nat)} {a b o i h v : Nat} {kind : EdgeKind}
  {wires helpers : List Nat} {states : List BasisState}

namespace Sound

theorem set (sound : d.Sound) (v : Nat) (x : Vertex) : (d.set v x).Sound := by
  refine sound.congr ?_ rfl rfl rfl
  rw [ids, Diagram.set, List.map_map]
  refine List.map_congr_left fun entry _ => ?_
  by_cases here : entry.1 = v <;> simp [here]

theorem clearMarkers (sound : d.Sound) : d.clearMarkers.Sound := sound.congr (clearMarkers_ids d) rfl rfl rfl

theorem rescaled (sound : d.Sound) (scalar : Scalar) : { d with scalar }.Sound :=
  sound.congr rfl rfl rfl rfl

theorem removeEdge (sound : d.Sound) (a b : Nat) : (d.removeEdge a b).2.Sound :=
  ⟨sound.ascending, sound.sorted.filter _, fun e held => sound.ordered e (List.mem_of_mem_filter held),
    fun e held => sound.live e (List.mem_of_mem_filter held), sound.used, sound.free, sound.freedOnce⟩

theorem addEdge (sound : d.Sound) (done : d.addEdge a b kind = .ok after) : after.Sound := by
  obtain ⟨left, right, different, new, rfl⟩ := (addEdge_ok sound).mp done
  exact sound.link left right different new kind

theorem remove (sound : d.Sound) {entry : Vertex × Diagram} (done : d.remove v = .ok entry) : entry.2.Sound := by
  obtain ⟨_, same⟩ := remove_ok.mp done
  exact same ▸ sound.without v

theorem addWire (sound : d.Sound) (q : Nat) : (d.addWire q).Sound := by
  have first := sound.add (Vertex.boundary.placed q.toFloat 0)
  have both := first.add (Vertex.boundary.placed q.toFloat 1)
  have input : d.fresh ∈ (d.add (Vertex.boundary.placed q.toFloat 0)).ids := (add_ids _ _).mem_iff.mpr List.mem_cons_self
  refine (both.link ?_ ?_ ?_ ?_ .simple).listed _ _
  · exact (add_ids _ _).mem_iff.mpr (List.mem_cons_of_mem _ input)
  · exact (add_ids _ _).mem_iff.mpr List.mem_cons_self
  · exact fun same => first.fresh_new (same ▸ input)
  · exact fun near => sound.fresh_new (sound.adjacent_live near).1

theorem fusePair (sound : d.Sound) : Upheld Sound (d.fusePair o i) := by
  refine .step sound fun (a, k) _ => .step sound fun (b, l) _ => ?_
  exact .attempt ((sound.drop o).drop i) fun after => ((sound.drop o).drop i).addEdge

theorem fusePairs (sound : d.Sound) : Upheld Sound (fusePairs names d pairs) := by
  induction pairs generalizing d with
  | nil => exact sound
  | cons pair rest ih =>
    exact .step sound fun i _ => .bind sound.fusePair fun middle => ih

theorem compose (left : d.Sound) (right : other.Sound) : Upheld Sound (d.compose other) := by
  have both := (append_appended left right 0 d.depth).sound
  unfold Diagram.compose
  split
  · exact left
  · refine .bind (both.listed _ []).fusePairs fun fused sound => .attempt sound fun after done => ?_
    obtain ⟨outputs, _, done⟩ := bind_ok.mp done
    obtain ⟨scalar, _, rfl⟩ := map_ok.mp done
    exact (sound.listed fused.inputs outputs).rescaled scalar

theorem tensor (left : d.Sound) (right : other.Sound) (done : d.tensor other = .ok after) : after.Sound := by
  have both := (append_appended left right d.qubitCount 0).sound
  obtain ⟨inputs, _, done⟩ := bind_ok.mp done
  obtain ⟨outputs, _, done⟩ := bind_ok.mp done
  obtain ⟨scalar, _, rfl⟩ := map_ok.mp done
  exact (both.listed _ _).rescaled scalar

theorem plugWires {plugged : Int} (sound : d.Sound) : Upheld (·.1.Sound) (d.plugWires plugged wires states) := by
  induction wires generalizing d states plugged with
  | nil => exact sound
  | cons v rest ih =>
    rw [Diagram.plugWires]
    cases states.head?.bind BasisState.spider with
    | none => exact .bind (ih sound) fun _ closed => closed
    | some spider =>
      dsimp only
      split
      · exact sound
      · exact .step (sound.set _ _) fun _ _ => ih (sound.set _ _)

theorem plug (sound : d.Sound) : Upheld (·.1.Sound) (d.plug wires states) := by
  unfold Diagram.plug
  split
  · exact sound
  · exact .bind sound.plugWires fun result closed => .step closed fun scalar _ => closed.rescaled scalar

theorem plugInputs (sound : d.Sound) : Upheld Sound (d.plugInputs states) :=
  .bind (sound.listed [] d.outputs).plug fun result closed => closed.listed result.2 result.1.outputs

theorem plugOutputs (sound : d.Sound) : Upheld Sound (d.plugOutputs states) :=
  .bind (sound.listed d.inputs []).plug fun result closed => closed.listed result.1.inputs result.2

theorem resolveStar (sound : d.Sound) : Upheld Sound (d.resolveStar h) := by
  refine .step sound fun star _ => .step sound fun (_, first) removed => ?_
  have first := sound.remove removed
  refine .step first fun (box, second) removed => ?_
  have added := (first.remove removed).add ((Vertex.z.withPhase .third).placed box.qubit box.row)
  exact .step added fun _ joined => .attempt (added.addEdge joined) fun _ => (added.addEdge joined).addEdge

theorem resolveStars (sound : d.Sound) : Upheld Sound (d.resolveStars helpers) := by
  induction helpers generalizing d with
  | nil => exact sound
  | cons h rest ih => exact .bind sound.resolveStar fun middle => ih

theorem resolveMarkers (sound : d.Sound) : Upheld (·.2.Sound) d.resolveMarkers :=
  .bind sound.resolveStars fun _ resolved => resolved.clearMarkers

end Sound

theorem identity_sound (n : Nat) : (identity n).Sound := by
  rw [identity]
  induction n with
  | zero => exact empty_sound
  | succ n ih =>
    rw [List.range_succ, List.foldl_append]
    exact ih.addWire n

end ToffoliBench.Diagram
