import ToffoliBench.Proofs.Diagram.Contraction
import ToffoliBench.Proofs.Diagram.Dangling
import ToffoliBench.Proofs.Diagram.Failure

namespace ToffoliBench.Diagram
open Outcome Wiring

variable {d other after one : Diagram} {o i a b v w : Nat} {k l m : EdgeKind} {pairs order : List (Nat × Nat)}

-- Both diagrams side by side. The later one goes by its new names.
def abreast (d other : Diagram) : Wiring Nat := d.wired.beside (other.wired.moved (rename (d.joinNames other)))

theorem joined_wired (left : d.Sound) (right : other.Sound) : (d.joined other).wired = d.abreast other :=
  (append_appended left right 0 d.depth).wired

theorem Sound.seamed (sound : d.Sound) (once : (pairs.map Prod.fst ++ pairs.map Prod.snd).Nodup)
    (single : ∀ v, Sewn pairs v → d.degree v = 1) : d.wired.Seamed pairs where
  symm := d.wired_symm
  loopless _ _ near := sound.adjacent_ne (wired_adjacent near) rfl
  single := by
    rintro u v _ _ ⟨e, held, ends, rfl⟩ ⟨f, held', ends', rfl⟩
    rw [sound.edge_unique held held' ends ends']
  once := once
  sole v sewn := by
    obtain ⟨w, k, only⟩ := incident_single (single v sewn)
    exact ⟨w, k, sound.sole_iff.mpr only⟩

theorem Ended.seamed (left : d.Ended) (right : other.Ended) (lengths : d.outputs.length = other.inputs.length) :
    (d.joined other).wired.Seamed (d.seam other) := by
  have ends : (d.seam other).map Prod.fst ++ (d.seam other).map Prod.snd =
      d.outputs ++ other.inputs.map (rename (d.joinNames other)) := by rw [seam_fst lengths, seam_snd lengths]
  refine (left.toSound.joined right.toSound).seamed (ends ▸ left.seam_once right) fun v sewn => ?_
  exact left.seam_single right (ends ▸ sewn)

theorem drop_filtered (d : Diagram) (v : Nat) : (d.drop v).vertices = d.vertices.filter fun entry => entry.1 != v := by
  unfold drop
  split
  · rfl
  · rename_i absent
    refine (List.filter_eq_self.mpr fun entry held => ?_).symm
    have other : entry.1 ≠ v := by
      rintro rfl
      exact absent (contains_iff.mpr (List.mem_map_of_mem held))
    simpa using other

theorem fused_filtered : (d.fused o i a b m).vertices = d.vertices.filter fun entry => entry.1 != i && entry.1 != o := by
  rw [show (d.fused o i a b m).vertices = ((d.drop o).drop i).vertices from rfl, drop_filtered, drop_filtered, List.filter_filter]

theorem drop_length (sound : d.Sound) (live : v ∈ d.ids) : (d.drop v).vertices.length + 1 = d.vertices.length := by
  obtain ⟨⟨_, x⟩, held, rfl⟩ := List.mem_map.mp live
  exact (drop_vertices sound.nodup held).length_eq.symm

theorem Fusable.lengths (fusable : Fusable d o i a b k l) (sound : d.Sound) :
    (d.fused o i a b m).vertices.length + 2 = d.vertices.length ∧ (d.fused o i a b m).edges.length + 1 = d.edges.length := by
  have outer := (sound.adjacent_live (sound.incident_adjacent fusable.outer)).1
  have inner := (sound.adjacent_live (sound.incident_adjacent fusable.inner)).1
  have still : i ∈ (d.drop o).ids := by
    rw [drop_ids, List.mem_filter]
    exact ⟨inner, by simpa using fusable.apart.symm⟩
  have first := drop_length sound outer
  have second := drop_length (sound.drop o) still
  have wires := (fusable.edges sound).length_eq
  rw [fused_edges.length_eq]
  simp only [List.length_cons] at wires ⊢
  exact ⟨show ((d.drop o).drop i).vertices.length + 2 = _ by omega, by omega⟩

-- Each pair takes two vertices and one wire away, and touches no other vertex.
theorem Fusions.leaves (steps : Fusions d pairs after) (sound : d.Sound) :
    after.vertices = d.vertices.filter (fun entry => ¬Sewn pairs entry.1) ∧
      after.vertices.length + 2 * pairs.length = d.vertices.length ∧ after.edges.length + pairs.length = d.edges.length := by
  induction steps with
  | nil =>
    have all : ∀ v : Nat, ¬Sewn [] v := fun v => List.not_mem_nil
    simp [all]
  | cons step _ ih =>
    obtain ⟨a, b, k, l, fusable, rfl⟩ := sound.fusePair_ok.mp step
    obtain ⟨vertices, size, count⟩ := ih (fusable.fused_sound sound)
    obtain ⟨size', count'⟩ := fusable.lengths (m := k.merge l) sound
    rw [List.length_cons]
    refine ⟨?_, by omega, by omega⟩
    rw [vertices, fused_filtered, List.filter_filter]
    refine List.filter_congr fun entry _ => ?_
    rw [Bool.eq_iff_iff]
    simp only [sewn_cons, decide_eq_true_eq, Bool.and_eq_true, bne_iff_ne]
    tauto

theorem edges_sorted_eq {es fs : List Edge} (left : es.Pairwise fun e f => e.before f = true)
    (right : fs.Pairwise fun e f => e.before f = true) (same : ∀ e, e ∈ es ↔ e ∈ fs) : es = fs := by
  have irrefl : ∀ e f : Edge, e.before f = true → ¬f.before e = true := by
    intro e f
    rw [Edge.before_iff, Edge.before_iff]
    omega
  have once : ∀ {es : List Edge}, es.Pairwise (fun e f => e.before f = true) → es.Nodup := fun sorted =>
    sorted.imp fun {e f} earlier same => by
      subst same
      exact irrefl e e earlier earlier
  refine ((List.perm_ext_iff_of_nodup (once left) (once right)).mpr same).eq_of_pairwise ?_ left right
  exact fun e f _ _ one two => absurd two (irrefl e f one)

theorem Sound.edges_eq (left : d.Sound) (right : other.Sound) (same : d.wired = other.wired) : d.edges = other.edges := by
  have listed : ∀ {d other : Diagram}, other.Sound → d.Sound → d.wired = other.wired → ∀ e ∈ d.edges, e ∈ other.edges := by
    intro d other right left same e held
    have wire : other.wired e.low e.high e.kind := same ▸ ⟨e, held, .inl ⟨rfl, rfl⟩, rfl⟩
    obtain ⟨f, found, ends, kind⟩ := wire
    have first := Edge.eq_between (left.ordered e held) (.inl ⟨rfl, rfl⟩)
    have second := Edge.eq_between (right.ordered f found) ends
    rw [first, ← kind, ← second]
    exact found
  exact edges_sorted_eq left.sorted right.sorted fun e => ⟨listed right left same e, listed left right same.symm e⟩

theorem Fusions.reordered (steps : Fusions d pairs one) (sound : d.Sound) (once : (pairs.map Prod.fst ++ pairs.map Prod.snd).Nodup)
    (same : pairs.Perm order) : ∃ two, Fusions d order two ∧ one.Kept two := by
  have fused := (steps.fuseAll sound).1.perm same d.wired_symm (Net.apart_of_nodup once)
  obtain ⟨two, steps', wired⟩ := fusions_of_fuseAll fused sound
  obtain ⟨left, inputs, outputs, scalar⟩ := steps.kept sound
  obtain ⟨right, inputs', outputs', scalar'⟩ := steps'.kept sound
  refine ⟨two, steps', ?_, right.edges_eq left wired, inputs'.trans inputs.symm, outputs'.trans outputs.symm, scalar'.trans scalar.symm⟩
  rw [(steps'.leaves sound).1, (steps.leaves sound).1]
  refine List.filter_congr fun entry _ => ?_
  have sewn : Sewn order entry.1 ↔ Sewn pairs entry.1 :=
    ((same.map Prod.fst).append (same.map Prod.snd)).mem_iff.symm
  simp only [sewn]

-- What is left of two diagrams once their seam is sewn.
structure Sewing (d other after : Diagram) : Prop where
  sound : after.Sound
  wired : after.wired = (d.abreast other).contracted (d.seam other)
  vertices : after.vertices.Perm (d.vertices.filter (fun entry => entry.1 ∉ d.outputs) ++
    (other.vertices.filter fun entry => entry.1 ∉ other.inputs).map (moveVertex (d.joinNames other) 0 d.depth))
  labels : ∀ entry ∈ other.vertices, (moveVertex (d.joinNames other) 0 d.depth entry).2.label = entry.2.label
  size : after.vertices.length + 2 * d.outputs.length = d.vertices.length + other.vertices.length
  count : after.edges.length + d.outputs.length = d.edges.length + other.edges.length
  inputs : after.inputs = d.inputs
  outputs : after.outputs = other.outputs.map (rename (d.joinNames other))
  scalar : d.scalar.mul other.scalar = .ok after.scalar

section

variable (left : d.Ended) (right : other.Ended) (lengths : d.outputs.length = other.inputs.length)
include left right lengths

-- What is not sewn: of each diagram what it does not bring to the seam.
theorem Ended.unsewn : ((d.joined other).vertices.filter fun entry => ¬Sewn (d.seam other) entry.1).Perm
    (d.vertices.filter (fun entry => entry.1 ∉ d.outputs) ++
      (other.vertices.filter fun entry => entry.1 ∉ other.inputs).map (moveVertex (d.joinNames other) 0 d.depth)) := by
  have all : Appended d other _ (d.joinNames other) 0 d.depth := append_appended left.toSound right.toSound 0 d.depth
  have sewn : ∀ v, Sewn (d.seam other) v ↔ v ∈ d.outputs ∨ v ∈ other.inputs.map (rename (d.joinNames other)) := fun v => by
    rw [Sewn, seam_fst lengths, seam_snd lengths, List.mem_append]
  have parts := all.vertices.filter fun entry => ¬Sewn (d.seam other) entry.1
  rw [List.filter_append, List.filter_map] at parts
  refine parts.trans (.of_eq (congrArg₂ (· ++ ·) ?_ (congrArg _ ?_)))
  · refine List.filter_congr fun entry held => ?_
    have apart : entry.1 ∉ other.inputs.map (rename (d.joinNames other)) := by
      intro moved
      obtain ⟨u, input, same⟩ := List.mem_map.mp moved
      exact all.new (right.bound u (List.mem_append_left _ input)).live (same ▸ List.mem_map_of_mem held)
    simp only [sewn, apart, or_false]
  · refine List.filter_congr fun entry held => ?_
    have live : entry.1 ∈ other.ids := List.mem_map_of_mem held
    have apart : rename (d.joinNames other) entry.1 ∉ d.outputs := fun output =>
      all.new live (left.bound _ (List.mem_append_right _ output)).live
    have moved : rename (d.joinNames other) entry.1 ∈ other.inputs.map (rename (d.joinNames other)) ↔ entry.1 ∈ other.inputs := by
      refine ⟨fun moved => ?_, List.mem_map_of_mem⟩
      obtain ⟨u, input, same⟩ := List.mem_map.mp moved
      exact all.injective (right.bound u (List.mem_append_left _ input)).live live same ▸ input
    rw [Bool.eq_iff_iff]
    simp only [Function.comp_apply, moveVertex, sewn, moved, apart, false_or]

-- Fusing leaves the scalar of the earlier diagram alone.
theorem Ended.compose_fusions : d.compose other = .ok after ↔ ∃ fusedAll scalar,
    Fusions (d.joined other) (d.seam other) fusedAll ∧ d.scalar.mul other.scalar = .ok scalar ∧
      after = { fusedAll with outputs := other.outputs.map (rename (d.joinNames other)), scalar } := by
  have both := left.toSound.joined right.toSound
  have start : (d.joined other).scalar = d.scalar := (append_appended left.toSound right.toSound 0 d.depth).scalar
  obtain ⟨inputs, outputs⟩ := listed_live right.proper
  rw [compose_exact left.toSound right.toSound inputs outputs, Composed, and_iff_right lengths]
  refine exists₂_congr fun fusedAll scalar => and_congr_right fun steps => ?_
  obtain ⟨_, _, _, kept⟩ := steps.kept both
  rw [kept, start]

-- Composition stops only where what it would leave is no simple graph.
theorem Ended.compose_ok_iff {scalar : Scalar} (product : d.scalar.mul other.scalar = .ok scalar) :
    (∃ after, d.compose other = .ok after) ↔ (d.abreast other).Contractible (d.seam other) := by
  have both := left.toSound.joined right.toSound
  have seamed := left.seamed right lengths
  rw [← joined_wired left.toSound right.toSound]
  constructor
  · rintro ⟨after, done⟩
    obtain ⟨_, _, steps, _⟩ := (left.compose_fusions right lengths).mp done
    exact (seamed.fuseAll_iff.mp (steps.fuseAll both).1).1
  · intro contractible
    obtain ⟨_, steps, _⟩ := fusions_of_fuseAll (seamed.fuseAll_iff.mpr ⟨contractible, rfl⟩) both
    exact ⟨_, (left.compose_fusions right lengths).mpr ⟨_, scalar, steps, product, rfl⟩⟩

theorem Ended.sewing (done : d.compose other = .ok after) : Sewing d other after := by
  have both := left.toSound.joined right.toSound
  have all : Appended d other _ (d.joinNames other) 0 d.depth := append_appended left.toSound right.toSound 0 d.depth
  obtain ⟨fusedAll, scalar, steps, product, rfl⟩ := (left.compose_fusions right lengths).mp done
  obtain ⟨sound, keptInputs, _, _⟩ := steps.kept both
  obtain ⟨vertices, size, count⟩ := steps.leaves both
  have wired := ((left.seamed right lengths).fuseAll_iff.mp (steps.fuseAll both).1).2
  have listed := all.vertices.length_eq
  have joined := all.edges.length_eq
  rw [seam_length lengths] at size count
  simp only [List.length_append, List.length_map] at listed joined
  exact {
    sound := sound.congr rfl rfl rfl rfl
    wired := wired.trans (congrArg (contracted · _) (joined_wired left.toSound right.toSound))
    vertices := vertices ▸ left.unsewn right lengths
    labels := fun _ _ => rfl
    size := size.trans listed
    count := count.trans joined
    inputs := keptInputs.trans all.inputs
    outputs := rfl
    scalar := product }

omit lengths in
theorem Ended.fusePairs_ok (same : order.Perm (d.outputs.zip other.inputs)) :
    fusePairs (d.joinNames other) (d.joined other) order = .ok one ↔
      Fusions (d.joined other) (order.map fun pair => (pair.1, rename (d.joinNames other) pair.2)) one := by
  have all : Appended d other _ (d.joinNames other) 0 d.depth := append_appended left.toSound right.toSound 0 d.depth
  refine fusePairs_exact fun pair held => all.renamed_ok ?_
  exact (right.bound _ (List.mem_append_left _ (List.of_mem_zip (same.mem_iff.mp held)).2)).live

-- The pairs may be fused in any order, and leave what composition leaves.
theorem Ended.fusePairs_perm {scalar : Scalar} (product : d.scalar.mul other.scalar = .ok scalar)
    (same : order.Perm (d.outputs.zip other.inputs)) :
    ((∃ one, fusePairs (d.joinNames other) (d.joined other) order = .ok one) ↔ ∃ after, d.compose other = .ok after) ∧
      ∀ one after, fusePairs (d.joinNames other) (d.joined other) order = .ok one → d.compose other = .ok after →
        after.vertices = one.vertices ∧ after.edges = one.edges ∧ after.inputs = one.inputs := by
  have both := left.toSound.joined right.toSound
  have once := (left.seamed right lengths).once
  have named : (order.map fun pair => (pair.1, rename (d.joinNames other) pair.2)).Perm (d.seam other) := same.map _
  refine ⟨⟨?_, ?_⟩, fun one after fused done => ?_⟩
  · rintro ⟨one, fused⟩
    have steps := (left.fusePairs_ok right same).mp fused
    have once' := ((named.map Prod.fst).append (named.map Prod.snd)).nodup_iff.mpr once
    obtain ⟨_, steps', _⟩ := steps.reordered both once' named
    exact ⟨_, (left.compose_fusions right lengths).mpr ⟨_, scalar, steps', product, rfl⟩⟩
  · rintro ⟨after, done⟩
    obtain ⟨_, _, steps, _⟩ := (left.compose_fusions right lengths).mp done
    obtain ⟨two, steps', _⟩ := steps.reordered both once named.symm
    exact ⟨two, (left.fusePairs_ok right same).mpr steps'⟩
  · obtain ⟨_, _, steps, _, rfl⟩ := (left.compose_fusions right lengths).mp done
    obtain ⟨two, steps', kept⟩ := steps.reordered both once named.symm
    obtain rfl := Except.ok.inj (((left.fusePairs_ok right same).mpr steps').symm.trans fused)
    exact ⟨kept.vertices.symm, kept.edges.symm, kept.inputs.symm⟩

end

-- Fusing pair after pair, in whatever order, is contracting every trail through the seam at once.
theorem compose_contracts {scalar : Scalar} (left : d.Ended) (right : other.Ended)
    (lengths : d.outputs.length = other.inputs.length) (product : d.scalar.mul other.scalar = .ok scalar) :
    ((∀ u ∈ other.ids, ∀ v ∈ other.ids, rename (d.joinNames other) u = rename (d.joinNames other) v → u = v) ∧
      ∀ v ∈ other.ids, rename (d.joinNames other) v ∉ d.ids) ∧
    ((∃ after, d.compose other = .ok after) ↔ (d.abreast other).Contractible (d.seam other)) ∧
    (∀ after, d.compose other = .ok after → Sewing d other after) ∧
    ∀ order, order.Perm (d.outputs.zip other.inputs) →
      ((∃ one, fusePairs (d.joinNames other) (d.joined other) order = .ok one) ↔ ∃ after, d.compose other = .ok after) ∧
        ∀ one after, fusePairs (d.joinNames other) (d.joined other) order = .ok one → d.compose other = .ok after →
          after.vertices = one.vertices ∧ after.edges = one.edges ∧ after.inputs = one.inputs := by
  have all : Appended d other _ (d.joinNames other) 0 d.depth := append_appended left.toSound right.toSound 0 d.depth
  exact ⟨⟨fun u here v there => all.injective here there, fun v live => all.new live⟩,
    left.compose_ok_iff right lengths product, fun after => left.sewing right lengths,
    fun order => left.fusePairs_perm right lengths product⟩

-- A wire that winds to and fro across the seam, and one that closes on itself there.
def winding : Diagram where
  vertices := [(0, .boundary), (1, .boundary), (2, .boundary), (3, .boundary)]
  edges := [⟨0, 1, .hadamard⟩, ⟨2, 3, .simple⟩]
  next := 4
  inputs := [0]
  outputs := [1, 2, 3]

def unwinding : Diagram where
  vertices := [(0, .boundary), (1, .boundary), (2, .boundary), (3, .boundary)]
  edges := [⟨0, 1, .hadamard⟩, ⟨2, 3, .hadamard⟩]
  next := 4
  inputs := [0, 1, 2]
  outputs := [3]

def arch : Diagram where
  vertices := [(0, .boundary), (1, .boundary)]
  edges := [⟨0, 1, .simple⟩]
  next := 2
  outputs := [0, 1]

def trough : Diagram where
  vertices := [(0, .boundary), (1, .boundary)]
  edges := [⟨0, 1, .simple⟩]
  next := 2
  inputs := [0, 1]

theorem compose_contracts_winding : (∃ after, winding.compose unwinding = .ok after ∧ Sewing winding unwinding after ∧
      after.edges = [⟨0, 7, .hadamard⟩] ∧ (winding.abreast unwinding).contracted (winding.seam unwinding) 0 7 .hadamard) ∧
    ¬(arch.abreast trough).Contractible (arch.seam trough) := by
  have formed : (winding.WellFormed ∧ unwinding.WellFormed) ∧ arch.WellFormed ∧ trough.WellFormed := by decide
  obtain ⟨⟨wound, unwound⟩, arched, closed⟩ := formed
  obtain ⟨_, _, sewing, _⟩ := compose_contracts wound.ended unwound.ended rfl (show winding.scalar.mul unwinding.scalar = .ok .one from rfl)
  obtain ⟨_, iff, _⟩ := compose_contracts arched.ended closed.ended rfl (show arch.scalar.mul trough.scalar = .ok .one from rfl)
  refine ⟨⟨_, rfl, sewing _ rfl, rfl, ?_⟩, ?_⟩
  · exact (sewing _ rfl).wired ▸ ⟨⟨0, 7, .hadamard⟩, by decide, .inl ⟨rfl, rfl⟩, rfl⟩
  · rintro contractible
    obtain ⟨after, done⟩ := iff.mpr contractible
    cases done

end ToffoliBench.Diagram
