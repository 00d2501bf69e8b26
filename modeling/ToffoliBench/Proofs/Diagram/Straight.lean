import ToffoliBench.Proofs.Diagram.WellFormed

namespace ToffoliBench.Diagram

variable {d other middle after : Diagram} {o i a b v w : Nat} {k l : EdgeKind} {pairs rest : List (Nat × Nat)}

structure Straight (d : Diagram) : Prop where
  inputsApart : ∀ v ∈ d.inputs, ∀ w, d.Adjacent v w → w ∉ d.inputs
  outputsApart : ∀ v ∈ d.outputs, ∀ w, d.Adjacent v w → w ∉ d.outputs
  -- no two outputs hang on one vertex; inputs may
  outputsLone : ∀ u ∈ d.outputs, ∀ v ∈ d.outputs, ∀ w, d.Adjacent u w → d.Adjacent v w → u = v

-- What is true between two fusions: the pairs that are left have one wire each, leading into their
-- own side, and a wire from side to side lies only where a pair has gone.
structure Ready (left : Nat → Prop) (d : Diagram) (pairs : List (Nat × Nat)) : Prop where
  sound : d.Sound
  once : (pairs.map Prod.fst ++ pairs.map Prod.snd).Nodup
  single : ∀ v ∈ pairs.map Prod.fst ++ pairs.map Prod.snd, d.degree v = 1
  outer : ∀ o ∈ pairs.map Prod.fst, left o ∧ ∀ w, d.Adjacent o w → left w ∧ w ∉ pairs.map Prod.fst
  inner : ∀ i ∈ pairs.map Prod.snd, ¬left i ∧ ∀ w, d.Adjacent i w → ¬left w ∧ w ∉ pairs.map Prod.snd
  lone : ∀ o ∈ pairs.map Prod.fst, ∀ p ∈ pairs.map Prod.fst, ∀ w, d.Adjacent o w → d.Adjacent p w → o = p
  border : ∀ v w, left v → ¬left w → d.Adjacent v w → ∀ o ∈ pairs.map Prod.fst, ¬d.Adjacent o v

-- The wire that takes the place of a pair.
def Bridged (d : Diagram) (pair : Nat × Nat) (v w : Nat) : Prop :=
  (d.Adjacent pair.1 v ∧ d.Adjacent pair.2 w) ∨ (d.Adjacent pair.1 w ∧ d.Adjacent pair.2 v)

-- The wires when every pair has gone: those away from the ends, and a bridge for each pair.
def BridgedAll (d : Diagram) (pairs : List (Nat × Nat)) (after : Diagram) : Prop := ∀ v w, after.Adjacent v w ↔
  (d.Adjacent v w ∧ v ∉ pairs.map Prod.fst ++ pairs.map Prod.snd ∧ w ∉ pairs.map Prod.fst ++ pairs.map Prod.snd) ∨
    ∃ pair ∈ pairs, d.Bridged pair v w

theorem Sound.adjacent_sole (sound : d.Sound) (only : d.incident v = [(w, k)]) {u : Nat} : d.Adjacent v u ↔ u = w := by
  constructor
  · rintro ⟨e, present, ends⟩
    have found := sound.mem_incident.mpr ⟨e, present, ends, rfl⟩
    rw [only, List.mem_singleton] at found
    exact congrArg Prod.fst found
  · rintro rfl
    exact sound.incident_adjacent only

-- No end leads to an end, neither of its own side nor of the other.
theorem Ready.unpaired {left : Nat → Prop} (ready : Ready left d pairs) (held : v ∈ pairs.map Prod.fst ++ pairs.map Prod.snd)
    (near : d.Adjacent v w) : w ∉ pairs.map Prod.fst ++ pairs.map Prod.snd := by
  rw [List.mem_append, not_or]
  rcases List.mem_append.mp held with out | inp
  · obtain ⟨onLeft, apart⟩ := (ready.outer v out).2 w near
    exact ⟨apart, fun far => (ready.inner w far).1 onLeft⟩
  · obtain ⟨onRight, apart⟩ := (ready.inner v inp).2 w near
    exact ⟨fun far => onRight (ready.outer w far).1, apart⟩

section

variable {left : Nat → Prop} (ready : Ready left d ((o, i) :: rest))
include ready

theorem Ready.outer_clear (near : d.Adjacent o a) : (a ≠ o ∧ a ≠ i) ∧ a ∉ rest.map Prod.fst ++ rest.map Prod.snd :=
  Wiring.ends_outside.mp (ready.unpaired (by simp) near)

theorem Ready.inner_clear (near : d.Adjacent i b) : (b ≠ o ∧ b ≠ i) ∧ b ∉ rest.map Prod.fst ++ rest.map Prod.snd :=
  Wiring.ends_outside.mp (ready.unpaired (by simp) near)

theorem Ready.sides (outer : d.Adjacent o a) (inner : d.Adjacent i b) : left a ∧ ¬left b :=
  ⟨((ready.outer o (by simp)).2 a outer).1, ((ready.inner i (by simp)).2 b inner).1⟩

theorem Ready.fusable : ∃ a b k l, Fusable d o i a b k l := by
  obtain ⟨a, k, outer⟩ := incident_single (ready.single o (by simp))
  obtain ⟨b, l, inner⟩ := incident_single (ready.single i (by simp))
  have toLeft := ready.sound.incident_adjacent outer
  have toRight := ready.sound.incident_adjacent inner
  obtain ⟨aLeft, bRight⟩ := ready.sides toLeft toRight
  refine ⟨a, b, k, l, outer, inner, (ready.outer_clear toLeft).1, (ready.inner_clear toRight).1, ?_, fun near => ?_⟩
  · rintro rfl; exact bRight aLeft
  · exact ready.border a b aLeft bRight near o (by simp) toLeft

section

variable (fusable : Fusable d o i a b k l)
include fusable

theorem Ready.unmoved {v : Nat} (later : v ∈ rest.map Prod.fst ++ rest.map Prod.snd) (w : Nat) :
    (d.fused o i a b (k.merge l)).Adjacent v w ↔ d.Adjacent v w := by
  have outer := ready.outer_clear (ready.sound.incident_adjacent fusable.outer)
  have inner := ready.inner_clear (ready.sound.incident_adjacent fusable.inner)
  have apart := (Wiring.ends_once ready.once).2.1 v later
  rw [ready.sound.fused_adjacent]
  constructor
  · rintro (⟨near, _⟩ | ⟨rfl, _⟩ | ⟨_, rfl⟩)
    · exact near
    · exact absurd later outer.2
    · exact absurd later inner.2
  · intro near
    have held := (Wiring.ends_cons o i rest).mem_iff.mpr (List.mem_cons_of_mem o (List.mem_cons_of_mem i later))
    obtain ⟨⟨wOuter, wInner⟩, _⟩ := Wiring.ends_outside.mp (ready.unpaired held near)
    exact .inl ⟨near, apart.1, wOuter, apart.2, wInner⟩

theorem Ready.step : Ready left (d.fused o i a b (k.merge l)) rest := by
  have unmoved := fun {v} => ready.unmoved fusable (v := v)
  obtain ⟨_, apart, once⟩ := Wiring.ends_once ready.once
  have toLeft := ready.sound.incident_adjacent fusable.outer
  obtain ⟨aLeft, _⟩ := ready.sides toLeft (ready.sound.incident_adjacent fusable.inner)
  have fst : ∀ {v}, v ∈ rest.map Prod.fst → v ∈ ((o, i) :: rest).map Prod.fst := fun present => List.mem_cons_of_mem _ present
  have snd : ∀ {v}, v ∈ rest.map Prod.snd → v ∈ ((o, i) :: rest).map Prod.snd := fun present => List.mem_cons_of_mem _ present
  refine ⟨fusable.fused_sound ready.sound, once, ?_, ?_, ?_, ?_, ?_⟩
  · intro v present
    rw [fusable.degree ready.sound (apart v present).1 (apart v present).2]
    exact (Wiring.ends_all ready.single).2.2 v present
  · intro p out
    obtain ⟨pLeft, wires⟩ := ready.outer p (fst out)
    refine ⟨pLeft, fun w near => ?_⟩
    obtain ⟨wLeft, wInside⟩ := wires w ((unmoved (List.mem_append_left _ out) w).mp near)
    exact ⟨wLeft, fun present => wInside (fst present)⟩
  · intro p inp
    obtain ⟨pRight, wires⟩ := ready.inner p (snd inp)
    refine ⟨pRight, fun w near => ?_⟩
    obtain ⟨wRight, wInside⟩ := wires w ((unmoved (List.mem_append_right _ inp) w).mp near)
    exact ⟨wRight, fun present => wInside (snd present)⟩
  · intro p out q out' w first second
    exact ready.lone p (fst out) q (fst out') w ((unmoved (List.mem_append_left _ out) w).mp first)
      ((unmoved (List.mem_append_left _ out') w).mp second)
  · intro v w vLeft wRight near p out joined
    have old := (unmoved (List.mem_append_left _ out) v).mp joined
    rcases ready.sound.fused_adjacent.mp near with ⟨before, _⟩ | ⟨rfl, _⟩ | ⟨rfl, _⟩
    · exact ready.border v w vLeft wRight before p (fst out) old
    · have same := ready.lone p (fst out) o (by simp) a old toLeft
      exact absurd same (apart p (List.mem_append_left _ out)).1
    · exact wRight aLeft

-- One pair fused and the rest bridged: the first bridge stays, since it ends at no end that is left.
theorem Ready.bridged (wires : (d.fused o i a b (k.merge l)).BridgedAll rest after) : d.BridgedAll ((o, i) :: rest) after := by
  intro v w
  have outer := (ready.outer_clear (ready.sound.incident_adjacent fusable.outer)).2
  have inner := (ready.inner_clear (ready.sound.incident_adjacent fusable.inner)).2
  have first : d.Bridged (o, i) v w ↔ (a = v ∧ b = w) ∨ (a = w ∧ b = v) := by
    simp only [Bridged, ready.sound.adjacent_sole fusable.outer, ready.sound.adjacent_sole fusable.inner, eq_comm]
  have others : (∃ pair ∈ rest, (d.fused o i a b (k.merge l)).Bridged pair v w) ↔ ∃ pair ∈ rest, d.Bridged pair v w := by
    refine exists_congr fun pair => and_congr_right fun present => ?_
    have out := List.mem_append_left (rest.map Prod.snd) (List.mem_map_of_mem (f := Prod.fst) present)
    have inp := List.mem_append_right (rest.map Prod.fst) (List.mem_map_of_mem (f := Prod.snd) present)
    simp only [Bridged, ready.unmoved fusable out, ready.unmoved fusable inp]
  have clear : (a = v ∧ b = w) ∨ (a = w ∧ b = v) →
      v ∉ rest.map Prod.fst ++ rest.map Prod.snd ∧ w ∉ rest.map Prod.fst ++ rest.map Prod.snd := by
    rintro (⟨rfl, rfl⟩ | ⟨rfl, rfl⟩)
    · exact ⟨outer, inner⟩
    · exact ⟨inner, outer⟩
  rw [wires, others, List.exists_mem_cons_iff, first, Wiring.ends_outside, Wiring.ends_outside, ready.sound.fused_adjacent]
  constructor
  · rintro (⟨⟨near, vOuter, wOuter, vInner, wInner⟩ | bridge, vClear, wClear⟩ | more)
    · exact .inl ⟨near, ⟨⟨vOuter, vInner⟩, vClear⟩, ⟨wOuter, wInner⟩, wClear⟩
    · exact .inr (.inl bridge)
    · exact .inr (.inr more)
  · rintro (⟨near, ⟨⟨vOuter, vInner⟩, vClear⟩, ⟨wOuter, wInner⟩, wClear⟩ | bridge | more)
    · exact .inl ⟨.inl ⟨near, vOuter, wOuter, vInner, wInner⟩, vClear, wClear⟩
    · exact .inl ⟨.inr bridge, clear bridge⟩
    · exact .inr more

end

end

-- All pairs of the seam are fused, and the wires of the result are known.
theorem Ready.run {left : Nat → Prop} (ready : Ready left d pairs) : ∃ after, Fusions d pairs after ∧ d.BridgedAll pairs after := by
  induction pairs generalizing d with
  | nil => exact ⟨d, .nil, fun v w => by simp⟩
  | cons pair rest ih =>
    obtain ⟨o, i⟩ := pair
    obtain ⟨a, b, k, l, fusable⟩ := ready.fusable
    obtain ⟨after, steps, wires⟩ := ih (ready.step fusable)
    exact ⟨after, .cons (ready.sound.fusePair_ok.mpr ⟨a, b, k, l, fusable, rfl⟩) steps, ready.bridged fusable wires⟩

theorem Appended.adjacent {both : Diagram} {names : Renaming} {qubits rows : Float}
    (all : Appended d other both names qubits rows) : both.Adjacent v w ↔
      d.Adjacent v w ∨ ∃ u t, other.Adjacent u t ∧ rename names u = v ∧ rename names t = w := by
  constructor
  · rintro ⟨e, present, ends⟩
    rcases List.mem_append.mp (all.edges.mem_iff.mp present) with old | moved
    · exact .inl ⟨e, old, ends⟩
    · obtain ⟨f, source, rfl⟩ := List.mem_map.mp moved
      rcases Edge.between_ends_iff.mp ends with ⟨low, high⟩ | ⟨low, high⟩
      · exact .inr ⟨_, _, ⟨f, source, .inl ⟨rfl, rfl⟩⟩, low, high⟩
      · exact .inr ⟨_, _, ⟨f, source, .inr ⟨rfl, rfl⟩⟩, high, low⟩
  · rintro (⟨e, old, ends⟩ | ⟨u, t, ⟨f, source, ends⟩, rfl, rfl⟩)
    · exact ⟨e, all.edges.mem_iff.mpr (List.mem_append_left _ old), ends⟩
    · refine ⟨_, all.edges.mem_iff.mpr (List.mem_append_right _ (List.mem_map_of_mem source)), Edge.between_ends_iff.mpr ?_⟩
      rcases ends with ⟨rfl, rfl⟩ | ⟨rfl, rfl⟩
      · exact .inl ⟨rfl, rfl⟩
      · exact .inr ⟨rfl, rfl⟩

section

variable {both : Diagram} {names : Renaming} {qubits rows : Float} (all : Appended d other both names qubits rows)
  (soundOther : other.Sound)
include all soundOther

theorem Appended.adjacent_left (old : v ∈ d.ids) : both.Adjacent v w ↔ d.Adjacent v w := by
  refine all.adjacent.trans ⟨?_, .inl⟩
  rintro (near | ⟨u, t, near, rfl, _⟩)
  · exact near
  · exact absurd old (all.new (soundOther.adjacent_live near).1)

theorem Appended.adjacent_right (sound : d.Sound) (held : v ∈ other.ids) :
    both.Adjacent (rename names v) w ↔ ∃ t, other.Adjacent v t ∧ rename names t = w := by
  refine all.adjacent.trans ⟨?_, fun ⟨t, near, same⟩ => .inr ⟨v, t, near, rfl, same⟩⟩
  rintro (near | ⟨u, t, near, same, end_⟩)
  · exact absurd (sound.adjacent_live near).1 (all.new held)
  · obtain rfl := all.injective (soundOther.adjacent_live near).1 held same
    exact ⟨t, near, end_⟩

end

section

variable (formed : d.WellFormed) (formedOther : other.WellFormed)
include formed formedOther

theorem joined_left (old : v ∈ d.ids) : (d.joined other).Adjacent v w ↔ d.Adjacent v w :=
  (append_appended formed.toSound formedOther.toSound 0 d.depth).adjacent_left formedOther.toSound old

theorem joined_right (held : v ∈ other.ids) : (d.joined other).Adjacent (rename (d.joinNames other) v) w ↔
    ∃ t, other.Adjacent v t ∧ rename (d.joinNames other) t = w :=
  (append_appended formed.toSound formedOther.toSound 0 d.depth).adjacent_right formedOther.toSound formed.toSound held

theorem join_new (held : v ∈ other.ids) : rename (d.joinNames other) v ∉ d.ids :=
  (append_appended formed.toSound formedOther.toSound 0 d.depth).new held

theorem join_injective (one : v ∈ other.ids) (two : w ∈ other.ids)
    (same : rename (d.joinNames other) v = rename (d.joinNames other) w) : v = w :=
  (append_appended formed.toSound formedOther.toSound 0 d.depth).injective one two same

theorem seam_ready (lengths : d.outputs.length = other.inputs.length) (straight : d.Straight) (straightOther : other.Straight) :
    Ready (· ∈ d.ids) (d.joined other) (d.seam other) := by
  have all := append_appended formed.toSound formedOther.toSound 0 d.depth
  have seam := formed.seam formedOther lengths
  have once := seam.once
  rw [seam_fst lengths, seam_snd lengths] at once
  refine ⟨formed.toSound.joined formedOther.toSound, seam.once, ?_, ?_, ?_, ?_, ?_⟩
  all_goals simp only [seam_fst lengths, seam_snd lengths]
  · intro v present
    rcases List.mem_append.mp present with out | inp
    · exact (all.degree_left formedOther.toSound (formed.output_live out)).trans
        (formed.single v (List.mem_append_right _ out))
    · obtain ⟨u, held, rfl⟩ := List.mem_map.mp inp
      exact (all.degree_right formedOther.toSound formed.toSound (formedOther.input_live held)).trans
        (formedOther.single u (List.mem_append_left _ held))
  · intro v out
    refine ⟨formed.output_live out, fun w near => ?_⟩
    have old := (joined_left formed formedOther (formed.output_live out)).mp near
    exact ⟨(formed.adjacent_live old).2, straight.outputsApart v out w old⟩
  · intro v inp
    obtain ⟨u, held, rfl⟩ := List.mem_map.mp inp
    refine ⟨join_new formed formedOther (formedOther.input_live held), fun w near => ?_⟩
    obtain ⟨t, old, rfl⟩ := (joined_right formed formedOther (formedOther.input_live held)).mp near
    have live := (formedOther.adjacent_live old).2
    refine ⟨join_new formed formedOther live, fun present => ?_⟩
    obtain ⟨s, input, same⟩ := List.mem_map.mp present
    obtain rfl := join_injective formed formedOther (formedOther.input_live input) live same
    exact straightOther.inputsApart u held s old input
  · intro u out v out' w first second
    exact straight.outputsLone u out v out' w ((joined_left formed formedOther (formed.output_live out)).mp first)
      ((joined_left formed formedOther (formed.output_live out')).mp second)
  · intro v w old new near
    exact absurd (formed.adjacent_live ((joined_left formed formedOther old).mp near)).2 new

section

variable {pair pair' : Nat × Nat} {x y : Nat}

omit formed formedOther in
theorem seam_ends (present : pair ∈ d.seam other) :
    pair.1 ∈ d.outputs ∧ ∃ u ∈ other.inputs, pair.2 = rename (d.joinNames other) u := by
  obtain ⟨source, zipped, rfl⟩ := List.mem_map.mp present
  obtain ⟨out, inp⟩ := List.of_mem_zip zipped
  exact ⟨out, _, inp, rfl⟩

theorem seam_left (present : pair ∈ d.seam other) (near : (d.joined other).Adjacent pair.1 w) : d.Adjacent pair.1 w :=
  (joined_left formed formedOther (formed.output_live (seam_ends present).1)).mp near

theorem seam_right (present : pair ∈ d.seam other) (near : (d.joined other).Adjacent pair.2 w) : w ∉ d.ids := by
  obtain ⟨u, input, same⟩ := (seam_ends present).2
  rw [same] at near
  obtain ⟨t, old, rfl⟩ := (joined_right formed formedOther (formedOther.input_live input)).mp near
  exact join_new formed formedOther (formedOther.adjacent_live old).2

variable (wires : (d.joined other).BridgedAll (d.seam other) after)
include wires

theorem bridged_left (live : v ∈ d.ids) (near : after.Adjacent v w) : d.Adjacent v w ∨ w ∉ d.ids := by
  rcases (wires v w).mp near with ⟨before, _⟩ | ⟨pair, present, ⟨_, inp⟩ | ⟨_, inp⟩⟩
  · exact .inl ((joined_left formed formedOther live).mp before)
  · exact .inr (seam_right formed formedOther present inp)
  · exact absurd live (seam_right formed formedOther present inp)

-- The neighbours of a copied vertex: copied ones, or one that an output of `d` had.
theorem bridged_right (live : v ∈ other.ids) (near : after.Adjacent (rename (d.joinNames other) v) w) :
    (∃ t, other.Adjacent v t ∧ rename (d.joinNames other) t = w) ∨
      ∃ pair ∈ d.seam other, d.Adjacent pair.1 w ∧ (d.joined other).Adjacent pair.2 (rename (d.joinNames other) v) := by
  rcases (wires _ _).mp near with ⟨old, _⟩ | ⟨pair, present, ⟨out, _⟩ | ⟨out, inp⟩⟩
  · exact .inl ((joined_right formed formedOther live).mp old)
  · exact absurd (formed.adjacent_live (seam_left formed formedOther present out)).2 (join_new formed formedOther live)
  · exact .inr ⟨pair, present, seam_left formed formedOther present out, inp⟩

variable (lengths : d.outputs.length = other.inputs.length) (straight : d.Straight) (straightOther : other.Straight)
include lengths straight straightOther

omit wires in
-- Outputs of `d` with one neighbour belong to one pair, and that leads to one copied vertex.
theorem seam_lone (present : pair ∈ d.seam other) (present' : pair' ∈ d.seam other) (out : d.Adjacent pair.1 w)
    (out' : d.Adjacent pair'.1 w) (inp : (d.joined other).Adjacent pair.2 x) (inp' : (d.joined other).Adjacent pair'.2 y) :
    x = y := by
  have same := straight.outputsLone _ (seam_ends present).1 _ (seam_ends present').1 w out out'
  obtain rfl := List.inj_on_of_nodup_map (formed.seam formedOther lengths).once.of_append_left present present' same
  have ready := seam_ready formed formedOther lengths straight straightOther
  obtain ⟨b, l, only⟩ := incident_single (ready.single pair.2 (List.mem_append_right _ (List.mem_map_of_mem present)))
  rw [(ready.sound.adjacent_sole only).mp inp, (ready.sound.adjacent_sole only).mp inp']

theorem bridged_straight (inputs : after.inputs = d.inputs)
    (outputs : after.outputs = other.outputs.map (rename (d.joinNames other))) : after.Straight := by
  refine ⟨?_, ?_, ?_⟩
  · rw [inputs]
    intro v input w near again
    rcases bridged_left formed formedOther wires (formed.input_live input) near with before | new
    · exact straight.inputsApart v input w before again
    · exact new (formed.input_live again)
  · rw [outputs]
    intro v output w near again
    obtain ⟨u, held, rfl⟩ := List.mem_map.mp output
    obtain ⟨s, heldAgain, rfl⟩ := List.mem_map.mp again
    have live := formedOther.output_live heldAgain
    rcases bridged_right formed formedOther wires (formedOther.output_live held) near with ⟨t, before, same⟩ | ⟨pair, present, before, _⟩
    · obtain rfl := join_injective formed formedOther (formedOther.adjacent_live before).2 live same
      exact straightOther.outputsApart u held t before heldAgain
    · exact join_new formed formedOther live (formed.adjacent_live before).2
  · rw [outputs]
    intro u output v output' w first second
    obtain ⟨s, held, rfl⟩ := List.mem_map.mp output
    obtain ⟨t, held', rfl⟩ := List.mem_map.mp output'
    have reach := fun {u} (held : u ∈ other.outputs) =>
      bridged_right formed formedOther wires (w := w) (formedOther.output_live held)
    rcases reach held first with ⟨x, before, same⟩ | ⟨pair, present, before, inp⟩ <;>
      rcases reach held' second with ⟨y, before', same'⟩ | ⟨pair', present', before', inp'⟩
    · obtain rfl := join_injective formed formedOther (formedOther.adjacent_live before).2
        (formedOther.adjacent_live before').2 (same.trans same'.symm)
      rw [straightOther.outputsLone s held t held' x before before']
    · exact absurd (formed.adjacent_live before').2 (same ▸ join_new formed formedOther (formedOther.adjacent_live before).2)
    · exact absurd (formed.adjacent_live before).2 (same' ▸ join_new formed formedOther (formedOther.adjacent_live before').2)
    · exact seam_lone formed formedOther lengths straight straightOther present present' before before' inp inp'

end

end

-- Straight diagrams compose as soon as their ends are as many and their scalars have a product.
theorem compose_total (formed : d.WellFormed) (formedOther : other.WellFormed) (straight : d.Straight)
    (straightOther : other.Straight) (lengths : d.outputs.length = other.inputs.length) {scalar : Scalar}
    (product : d.scalar.mul other.scalar = .ok scalar) :
    ∃ after, d.compose other = .ok after ∧ after.WellFormed ∧ after.Straight ∧ after.scalar = scalar := by
  obtain ⟨fusedAll, steps, wires⟩ := (seam_ready formed formedOther lengths straight straightOther).run
  have all := append_appended formed.toSound formedOther.toSound 0 d.depth
  obtain ⟨_, inputs, _, scalars⟩ := steps.kept (formed.toSound.joined formedOther.toSound)
  have scalarKept : fusedAll.scalar = d.scalar := scalars.trans all.scalar
  have done := (formed.compose_iff formedOther).mpr ⟨lengths, fusedAll, scalar, steps, scalarKept ▸ product, rfl⟩
  refine ⟨_, done, compose_wellFormed formed formedOther done, ?_, rfl⟩
  exact bridged_straight formed formedOther wires lengths straight straightOther (inputs.trans all.inputs) rfl

theorem Appended.ends_apart {both : Diagram} {names : Renaming} {qubits rows : Float}
    (all : Appended d other both names qubits rows) (sound : d.Sound) (soundOther : other.Sound) {own far : List Nat}
    (ownLive : ∀ v ∈ own, v ∈ d.ids) (farLive : ∀ v ∈ far, v ∈ other.ids)
    (ownApart : ∀ v ∈ own, ∀ w, d.Adjacent v w → w ∉ own) (farApart : ∀ v ∈ far, ∀ w, other.Adjacent v w → w ∉ far) :
    ∀ v ∈ own ++ far.map (rename names), ∀ w, both.Adjacent v w → w ∉ own ++ far.map (rename names) := by
  intro v present w near again
  rcases all.adjacent.mp near with old | ⟨u, t, old, rfl, rfl⟩
  · obtain ⟨vLive, wLive⟩ := sound.adjacent_live old
    have stays : ∀ x ∈ d.ids, x ∈ own ++ far.map (rename names) → x ∈ own := by
      intro x live listed
      rcases List.mem_append.mp listed with here | there
      · exact here
      · obtain ⟨y, held, rfl⟩ := List.mem_map.mp there
        exact absurd live (all.new (farLive y held))
    exact ownApart v (stays v vLive present) w old (stays w wLive again)
  · obtain ⟨uLive, tLive⟩ := soundOther.adjacent_live old
    have stays : ∀ x ∈ other.ids, rename names x ∈ own ++ far.map (rename names) → x ∈ far := by
      intro x live listed
      rcases List.mem_append.mp listed with here | there
      · exact absurd (ownLive _ here) (all.new live)
      · obtain ⟨y, held, same⟩ := List.mem_map.mp there
        exact all.injective (farLive y held) live same ▸ held
    exact farApart u (stays u uLive present) t old (stays t tLive again)

theorem tensor_straight (formed : d.WellFormed) (formedOther : other.WellFormed) (straight : d.Straight)
    (straightOther : other.Straight) (done : d.tensor other = .ok after) : after.Straight := by
  obtain ⟨scalar, product, rfl⟩ := (formed.tensor_iff formedOther).mp done
  have all := append_appended formed.toSound formedOther.toSound d.qubitCount 0
  generalize d.append other d.qubitCount 0 = result at all
  obtain ⟨both, names⟩ := result
  dsimp only at all ⊢
  refine ⟨?_, ?_, ?_⟩
  · exact all.ends_apart formed.toSound formedOther.toSound (fun v => formed.input_live) (fun v => formedOther.input_live)
      straight.inputsApart straightOther.inputsApart
  · exact all.ends_apart formed.toSound formedOther.toSound (fun v => formed.output_live) (fun v => formedOther.output_live)
      straight.outputsApart straightOther.outputsApart
  · intro u present v again w first second
    -- The common neighbour tells on which side both outputs are.
    rcases all.adjacent.mp first with old | ⟨a, b, old, rfl, rfl⟩
    · have live := formed.adjacent_live old
      have mine : ∀ x, both.Adjacent x w → x ∈ d.outputs ++ other.outputs.map (rename names) → x ∈ d.outputs ∧ d.Adjacent x w := by
        intro x near listed
        rcases all.adjacent.mp near with here | ⟨s, t, there, _, same⟩
        · rcases List.mem_append.mp listed with own | moved
          · exact ⟨own, here⟩
          · obtain ⟨y, held, rfl⟩ := List.mem_map.mp moved
            exact absurd (formed.adjacent_live here).1 (all.new (formedOther.output_live held))
        · exact absurd live.2 (same ▸ all.new (formedOther.adjacent_live there).2)
      exact straight.outputsLone u (mine u first present).1 v (mine v second again).1 w old (mine v second again).2
    · have live := formedOther.adjacent_live old
      have mine : ∀ x, both.Adjacent x (rename names b) → x ∈ d.outputs ++ other.outputs.map (rename names) →
          ∃ y ∈ other.outputs, rename names y = x ∧ other.Adjacent y b := by
        intro x near listed
        rcases all.adjacent.mp near with here | ⟨s, t, there, rfl, same⟩
        · exact absurd (formed.adjacent_live here).2 (all.new live.2)
        · obtain rfl := all.injective (formedOther.adjacent_live there).2 live.2 same
          rcases List.mem_append.mp listed with own | moved
          · exact absurd (formed.output_live own) (all.new (formedOther.adjacent_live there).1)
          · obtain ⟨y, held, equal⟩ := List.mem_map.mp moved
            obtain rfl := all.injective (formedOther.output_live held) (formedOther.adjacent_live there).1 equal
            exact ⟨y, held, rfl, there⟩
      obtain ⟨y, held, same, near⟩ := mine _ first present
      obtain ⟨z, held', same', near'⟩ := mine _ second again
      rw [← same, ← same', straightOther.outputsLone y held z held' b near near']

end ToffoliBench.Diagram
