import ToffoliBench.Proofs.Diagram.Wiring

namespace ToffoliBench

-- What a vertex is, wherever it is drawn.
structure Label where
  kind : VertexKind
  phase : Phase
  marker : Option Marker
deriving DecidableEq

def Vertex.label (x : Vertex) : Label := ⟨x.kind, x.phase, x.marker⟩

@[ext]
structure Net (α : Type) where
  holds : α → Label → Prop
  wires : Wiring α
  inputs : List α
  outputs : List α

namespace Net
open Wiring

variable {α : Type} {P Q O M N : Net α} {t u : α}

def Live (N : Net α) (t : α) : Prop := ∃ l, N.holds t l

structure Proper (N : Net α) : Prop where
  symm : N.wires.Symm
  within : N.wires.Within N.Live
  live : ∀ t ∈ N.inputs ++ N.outputs, N.Live t
  distinct : (N.inputs ++ N.outputs).Nodup

-- The outputs of one net fused with the inputs of the next.
structure Joins (P Q N : Net α) : Prop where
  lengths : P.outputs.length = Q.inputs.length
  fused : FuseAll (P.wires.beside Q.wires) (P.outputs.zip Q.inputs) N.wires
  holds : N.holds = fun t l => (P.holds t l ∨ Q.holds t l) ∧ t ∉ P.outputs ∧ t ∉ Q.inputs
  inputs : N.inputs = P.inputs
  outputs : N.outputs = Q.outputs

theorem apart_of_nodup {pairs : List (α × α)} (once : (pairs.map Prod.fst ++ pairs.map Prod.snd).Nodup) : pairs.Pairwise Apart := by
  induction pairs with
  | nil => exact .nil
  | cons pair rest ih =>
    obtain ⟨_, others, once⟩ := ends_once once
    refine List.pairwise_cons.mpr ⟨fun next held => ?_, ih once⟩
    exact ⟨others _ (List.mem_append_left _ (List.mem_map_of_mem held)), others _ (List.mem_append_right _ (List.mem_map_of_mem held))⟩

-- Three nets joined at both seams, in whatever order.
structure Chain (P Q O M : Net α) (seams : List (α × α)) : Prop where
  first : P.outputs.length = Q.inputs.length
  second : Q.outputs.length = O.inputs.length
  fused : FuseAll (P.wires.beside (Q.wires.beside O.wires)) seams M.wires
  holds : M.holds = fun t l => (P.holds t l ∨ Q.holds t l ∨ O.holds t l) ∧ (t ∉ P.outputs ∧ t ∉ Q.inputs) ∧ t ∉ Q.outputs ∧ t ∉ O.inputs
  inputs : M.inputs = P.inputs
  outputs : M.outputs = O.outputs

theorem Proper.seam_live (p : P.Proper) (q : Q.Proper) {pair : α × α} (held : pair ∈ P.outputs.zip Q.inputs) :
    P.Live pair.1 ∧ Q.Live pair.2 :=
  ⟨p.live _ (List.mem_append_right _ (List.of_mem_zip held).1), q.live _ (List.mem_append_left _ (List.of_mem_zip held).2)⟩

theorem Proper.within_beside (p : P.Proper) (q : Q.Proper) : (P.wires.beside Q.wires).Within fun t => P.Live t ∨ Q.Live t := by
  rintro t u m (near | near)
  · exact (p.within t u m near).imp .inl .inl
  · exact (q.within t u m near).imp .inr .inr

section

variable (p : P.Proper) (q : Q.Proper) (o : O.Proper) (pq : ∀ t, P.Live t → ¬Q.Live t) (po : ∀ t, P.Live t → ¬O.Live t)
  (qo : ∀ t, Q.Live t → ¬O.Live t)
include p q o pq po qo

-- No seam takes anything from the net that is not at it.
theorem seams_apart (t : α) : (O.Live t → t ∉ P.outputs ∧ t ∉ Q.inputs) ∧ (P.Live t → t ∉ Q.outputs ∧ t ∉ O.inputs) := by
  have left : t ∈ P.outputs → P.Live t := fun listed => p.live t (List.mem_append_right _ listed)
  have middle : t ∈ Q.inputs ++ Q.outputs → Q.Live t := q.live t
  have right : t ∈ O.inputs → O.Live t := fun listed => o.live t (List.mem_append_left _ listed)
  refine ⟨fun live => ⟨fun listed => po t (left listed) live, fun listed => qo t (middle (List.mem_append_left _ listed)) live⟩,
    fun live => ⟨fun listed => pq t live (middle (List.mem_append_right _ listed)), fun listed => po t live (right listed)⟩⟩

theorem joins_left : (∃ N, Joins P Q N ∧ Joins N O M) ↔ Chain P Q O M (P.outputs.zip Q.inputs ++ Q.outputs.zip O.inputs) := by
  have apart := seams_apart p q o pq po qo
  have beside := fun U => beside_fuseAll (U := U) (p.within_beside q) o.within
    (fun t live far => live.elim (fun here => po t here far) fun here => qo t here far)
    (fun pair held => (p.seam_live q held).imp .inl .inr)
  have members : ∀ t l, (((P.holds t l ∨ Q.holds t l) ∧ t ∉ P.outputs ∧ t ∉ Q.inputs) ∨ O.holds t l) ∧ t ∉ Q.outputs ∧ t ∉ O.inputs ↔
      (P.holds t l ∨ Q.holds t l ∨ O.holds t l) ∧ (t ∉ P.outputs ∧ t ∉ Q.inputs) ∧ t ∉ Q.outputs ∧ t ∉ O.inputs := by
    intro t l
    have away : O.holds t l → t ∉ P.outputs ∧ t ∉ Q.inputs := fun held => (apart t).1 ⟨l, held⟩
    grind
  constructor
  · rintro ⟨N, one, two⟩
    have fused := two.fused
    rw [one.outputs] at fused
    refine ⟨one.lengths, one.outputs ▸ two.lengths, ?_, ?_, two.inputs.trans one.inputs, two.outputs⟩
    · rw [← beside_assoc]
      exact fuseAll_append.mpr ⟨_, (beside _).mpr ⟨_, one.fused, rfl⟩, fused⟩
    · rw [two.holds, one.holds, one.outputs]
      funext t l
      exact propext (members t l)
  · intro chain
    have fused := chain.fused
    rw [← beside_assoc] at fused
    obtain ⟨_, early, late⟩ := fuseAll_append.mp fused
    obtain ⟨W, own, rfl⟩ := (beside _).mp early
    refine ⟨⟨_, W, P.inputs, Q.outputs⟩, ⟨chain.first, own, rfl, rfl, rfl⟩, chain.second, late, ?_, chain.inputs, chain.outputs⟩
    rw [chain.holds]
    funext t l
    exact propext (members t l).symm

theorem joins_right : (∃ N, Joins Q O N ∧ Joins P N M) ↔ Chain P Q O M (Q.outputs.zip O.inputs ++ P.outputs.zip Q.inputs) := by
  have apart := seams_apart p q o pq po qo
  have beside := fun U => beside_fuseAll (U := U) (q.within_beside o) p.within
    (fun t live here => live.elim (fun far => pq t here far) fun far => po t here far)
    (fun pair held => (q.seam_live o held).imp .inl .inr)
  have members : ∀ t l, (P.holds t l ∨ ((Q.holds t l ∨ O.holds t l) ∧ t ∉ Q.outputs ∧ t ∉ O.inputs)) ∧ t ∉ P.outputs ∧ t ∉ Q.inputs ↔
      (P.holds t l ∨ Q.holds t l ∨ O.holds t l) ∧ (t ∉ P.outputs ∧ t ∉ Q.inputs) ∧ t ∉ Q.outputs ∧ t ∉ O.inputs := by
    intro t l
    have away : P.holds t l → t ∉ Q.outputs ∧ t ∉ O.inputs := fun held => (apart t).2 ⟨l, held⟩
    grind
  constructor
  · rintro ⟨N, one, two⟩
    have fused := two.fused
    rw [one.inputs, beside_comm] at fused
    refine ⟨one.inputs ▸ two.lengths, one.lengths, ?_, ?_, two.inputs, two.outputs.trans one.outputs⟩
    · rw [beside_comm]
      exact fuseAll_append.mpr ⟨_, (beside _).mpr ⟨_, one.fused, rfl⟩, fused⟩
    · rw [two.holds, one.holds, one.inputs]
      funext t l
      exact propext (members t l)
  · intro chain
    have fused := chain.fused
    rw [beside_comm] at fused
    obtain ⟨_, early, late⟩ := fuseAll_append.mp fused
    obtain ⟨W, own, rfl⟩ := (beside _).mp early
    rw [beside_comm] at late
    refine ⟨⟨_, W, Q.inputs, O.outputs⟩, ⟨chain.second, own, rfl, rfl, rfl⟩, chain.first, late, ?_, chain.inputs, chain.outputs⟩
    rw [chain.holds]
    funext t l
    exact propext (members t l).symm

theorem seams_pairwise (first : P.outputs.length = Q.inputs.length) (second : Q.outputs.length = O.inputs.length) :
    (P.outputs.zip Q.inputs ++ Q.outputs.zip O.inputs).Pairwise Apart := by
  refine apart_of_nodup ?_
  rw [List.map_append, List.map_append, List.map_fst_zip (Nat.le_of_eq first), List.map_fst_zip (Nat.le_of_eq second),
    List.map_snd_zip (Nat.le_of_eq first.symm), List.map_snd_zip (Nat.le_of_eq second.symm)]
  have rearranged : (P.outputs ++ Q.outputs ++ (Q.inputs ++ O.inputs)).Perm (P.outputs ++ ((Q.inputs ++ Q.outputs) ++ O.inputs)) := by
    rw [List.append_assoc, ← List.append_assoc Q.outputs]
    exact (List.perm_append_comm.append_right _).append_left _
  have mine : ∀ t ∈ P.outputs, P.Live t := fun t listed => p.live t (List.mem_append_right _ listed)
  have last : ∀ t ∈ O.inputs, O.Live t := fun t listed => o.live t (List.mem_append_left _ listed)
  refine rearranged.nodup_iff.mpr (List.nodup_append'.mpr ⟨p.distinct.of_append_right,
    List.nodup_append'.mpr ⟨q.distinct, o.distinct.of_append_left, fun t held listed => qo t (q.live t held) (last t listed)⟩,
    fun t held listed => ?_⟩)
  rcases List.mem_append.mp listed with middle | right
  · exact pq t (mine t held) (q.live t middle)
  · exact po t (mine t held) (last t right)

theorem joins_assoc : (∃ N, Joins P Q N ∧ Joins N O M) ↔ ∃ N, Joins Q O N ∧ Joins P N M := by
  rw [joins_left p q o pq po qo, joins_right p q o pq po qo]
  have symm := p.symm.beside (q.symm.beside o.symm)
  constructor
  · intro chain
    have apart := seams_pairwise p q o pq po qo chain.first chain.second
    exact { chain with fused := chain.fused.perm List.perm_append_comm symm apart }
  · intro chain
    have apart := seams_pairwise p q o pq po qo chain.first chain.second
    exact { chain with fused := chain.fused.perm List.perm_append_comm symm (List.perm_append_comm.pairwise apart Apart.symm) }

end

section

variable {β : Type} {f : α → β} {X : Net β}

-- The same net under other names.
def moved (f : α → β) (N : Net α) : Net β :=
  ⟨fun v l => ∃ t, f t = v ∧ N.holds t l, N.wires.moved f, N.inputs.map f, N.outputs.map f⟩

theorem moved_live {v : β} : (N.moved f).Live v ↔ ∃ t, f t = v ∧ N.Live t := by
  constructor
  · rintro ⟨l, t, same, held⟩
    exact ⟨t, same, l, held⟩
  · rintro ⟨t, same, l, held⟩
    exact ⟨l, t, same, held⟩

theorem Proper.moved (proper : N.Proper) (names : Names f N.Live) : (N.moved f).Proper := by
  refine ⟨proper.symm.moved f, ?_, ?_, ?_⟩
  · rintro _ _ m ⟨t, u, rfl, rfl, near⟩
    obtain ⟨left, right⟩ := proper.within t u m near
    exact ⟨moved_live.mpr ⟨t, rfl, left⟩, moved_live.mpr ⟨u, rfl, right⟩⟩
  · intro v listed
    obtain ⟨t, held, rfl⟩ := List.mem_map.mp ((List.map_append ..).symm ▸ listed)
    exact moved_live.mpr ⟨t, rfl, proper.live t held⟩
  · show (N.inputs.map f ++ N.outputs.map f).Nodup
    rw [← List.map_append]
    exact proper.distinct.map_on fun t held u listed => names t u (proper.live t held) (proper.live u listed)

theorem Joins.kept (joins : Joins P Q N) (live : N.Live t) : (P.Live t ∨ Q.Live t) ∧ t ∉ P.outputs ∧ t ∉ Q.inputs := by
  obtain ⟨l, held⟩ := live
  rw [joins.holds] at held
  exact ⟨held.1.imp (fun mine => ⟨l, mine⟩) fun theirs => ⟨l, theirs⟩, held.2⟩

theorem Joins.keeps (joins : Joins P Q N) (live : P.Live t ∨ Q.Live t) (outer : t ∉ P.outputs) (inner : t ∉ Q.inputs) : N.Live t := by
  rcases live with ⟨l, held⟩ | ⟨l, held⟩
  · exact ⟨l, joins.holds ▸ ⟨.inl held, outer, inner⟩⟩
  · exact ⟨l, joins.holds ▸ ⟨.inr held, outer, inner⟩⟩

-- What is joined can be joined again.
theorem Joins.proper (joins : Joins P Q N) (p : P.Proper) (q : Q.Proper) (apart : ∀ t, P.Live t → ¬Q.Live t) : N.Proper := by
  have pInputs : ∀ t ∈ P.inputs, P.Live t := fun t listed => p.live t (List.mem_append_left _ listed)
  have pOutputs : ∀ t ∈ P.outputs, P.Live t := fun t listed => p.live t (List.mem_append_right _ listed)
  have qInputs : ∀ t ∈ Q.inputs, Q.Live t := fun t listed => q.live t (List.mem_append_left _ listed)
  have qOutputs : ∀ t ∈ Q.outputs, Q.Live t := fun t listed => q.live t (List.mem_append_right _ listed)
  have fsts : (P.outputs.zip Q.inputs).map Prod.fst = P.outputs := List.map_fst_zip (Nat.le_of_eq joins.lengths)
  have snds : (P.outputs.zip Q.inputs).map Prod.snd = Q.inputs := List.map_snd_zip (Nat.le_of_eq joins.lengths.symm)
  refine ⟨joins.fused.symm (p.symm.beside q.symm), ?_, ?_, ?_⟩
  · intro t u m near
    obtain ⟨left, right⟩ := joins.fused.cleared (p.within_beside q) t u m near
    rw [fsts, snds] at left right
    exact ⟨joins.keeps left.1 left.2.1 left.2.2, joins.keeps right.1 right.2.1 right.2.2⟩
  · intro t listed
    rw [joins.inputs, joins.outputs] at listed
    rcases List.mem_append.mp listed with input | output
    · refine joins.keeps (.inl (pInputs t input)) (List.disjoint_of_nodup_append p.distinct input) fun other => ?_
      exact apart t (pInputs t input) (qInputs t other)
    · refine joins.keeps (.inr (qOutputs t output)) (fun other => apart t (pOutputs t other) (qOutputs t output)) fun other => ?_
      exact List.disjoint_of_nodup_append q.distinct other output
  · rw [joins.inputs, joins.outputs]
    exact List.nodup_append'.mpr ⟨p.distinct.of_append_left, q.distinct.of_append_right,
      fun t input output => apart t (pInputs t input) (qOutputs t output)⟩

-- Names only count where something lives.
theorem moved_congr {g : α → β} (proper : N.Proper) (same : ∀ t, N.Live t → f t = g t) : N.moved f = N.moved g := by
  have ends : ∀ t ∈ N.inputs ++ N.outputs, f t = g t := fun t listed => same t (proper.live t listed)
  refine Net.ext ?_ ?_ ?_ ?_
  · funext v l
    refine propext ⟨?_, ?_⟩
    · rintro ⟨t, rfl, held⟩
      exact ⟨t, (same t ⟨l, held⟩).symm, held⟩
    · rintro ⟨t, rfl, held⟩
      exact ⟨t, same t ⟨l, held⟩, held⟩
  · funext v w m
    refine propext ⟨?_, ?_⟩
    · rintro ⟨t, u, rfl, rfl, near⟩
      obtain ⟨one, two⟩ := proper.within t u m near
      exact ⟨t, u, (same t one).symm, (same u two).symm, near⟩
    · rintro ⟨t, u, rfl, rfl, near⟩
      obtain ⟨one, two⟩ := proper.within t u m near
      exact ⟨t, u, same t one, same u two, near⟩
  · exact List.map_congr_left fun t held => ends t (List.mem_append_left _ held)
  · exact List.map_congr_left fun t held => ends t (List.mem_append_right _ held)

theorem moved_moved {γ : Type} (f : α → β) (g : β → γ) (N : Net α) : (N.moved f).moved g = N.moved (g ∘ f) := by
  refine Net.ext ?_ ?_ (List.map_map ..) (List.map_map ..)
  · funext w l
    refine propext ⟨?_, ?_⟩
    · rintro ⟨_, rfl, t, rfl, held⟩
      exact ⟨t, rfl, held⟩
    · rintro ⟨t, rfl, held⟩
      exact ⟨f t, rfl, t, rfl, held⟩
  · exact Wiring.moved_moved f g N.wires

-- Nets are joined in the same way whatever the names.
theorem joins_moved (p : P.Proper) (q : Q.Proper) (names : Names f fun t => P.Live t ∨ Q.Live t) :
    Joins (P.moved f) (Q.moved f) X ↔ ∃ N, Joins P Q N ∧ X = N.moved f := by
  have steps := fun Y => moved_fuseAll (X := Y) (p.within_beside q) names fun pair held => (p.seam_live q held).imp .inl .inr
  have seam : (P.outputs.map f).zip (Q.inputs.map f) = (P.outputs.zip Q.inputs).map (Prod.map f f) := List.zip_map ..
  have listed : ∀ t, P.Live t ∨ Q.Live t → (f t ∉ P.outputs.map f ∧ f t ∉ Q.inputs.map f ↔ t ∉ P.outputs ∧ t ∉ Q.inputs) := by
    have back : ∀ (vs : List α), (∀ u ∈ vs, P.Live u ∨ Q.Live u) → ∀ t, P.Live t ∨ Q.Live t → (f t ∈ vs.map f ↔ t ∈ vs) := by
      intro vs known t live
      constructor
      · intro there
        obtain ⟨u, held, same⟩ := List.mem_map.mp there
        exact names u t (known u held) live same ▸ held
      · exact List.mem_map_of_mem
    intro t live
    rw [back _ (fun u held => .inl (p.live u (List.mem_append_right _ held))) t live,
      back _ (fun u held => .inr (q.live u (List.mem_append_left _ held))) t live]
  have members : ∀ v l, ((P.moved f).holds v l ∨ (Q.moved f).holds v l) ∧ v ∉ P.outputs.map f ∧ v ∉ Q.inputs.map f ↔
      ∃ t, f t = v ∧ (P.holds t l ∨ Q.holds t l) ∧ t ∉ P.outputs ∧ t ∉ Q.inputs := by
    intro v l
    constructor
    · rintro ⟨⟨t, rfl, held⟩ | ⟨t, rfl, held⟩, away⟩
      · exact ⟨t, rfl, .inl held, (listed t (.inl ⟨l, held⟩)).mp away⟩
      · exact ⟨t, rfl, .inr held, (listed t (.inr ⟨l, held⟩)).mp away⟩
    · rintro ⟨t, rfl, held, away⟩
      refine ⟨held.imp (fun mine => ⟨t, rfl, mine⟩) fun theirs => ⟨t, rfl, theirs⟩, (listed t ?_).mpr away⟩
      exact held.imp (fun mine => ⟨l, mine⟩) fun theirs => ⟨l, theirs⟩
  constructor
  · intro joins
    have fused := joins.fused
    rw [show (P.moved f).wires.beside (Q.moved f).wires = _ from (moved_beside f P.wires Q.wires).symm,
      show (P.moved f).outputs.zip (Q.moved f).inputs = _ from seam] at fused
    obtain ⟨V, own, same⟩ := (steps _).mp fused
    refine ⟨⟨_, V, P.inputs, Q.outputs⟩, ⟨by simpa [moved] using joins.lengths, own, rfl, rfl, rfl⟩, ?_⟩
    refine Net.ext (joins.holds.trans ?_) same joins.inputs joins.outputs
    funext v l
    exact propext (members v l)
  · rintro ⟨N, joins, rfl⟩
    refine ⟨by simpa [moved] using joins.lengths, ?_, ?_, congrArg (List.map f) joins.inputs, congrArg (List.map f) joins.outputs⟩
    · rw [show (P.moved f).wires.beside (Q.moved f).wires = _ from (moved_beside f P.wires Q.wires).symm,
        show (P.moved f).outputs.zip (Q.moved f).inputs = _ from seam]
      exact (steps _).mpr ⟨_, joins.fused, rfl⟩
    · funext v l
      refine propext (Iff.trans ?_ (members v l).symm)
      simp only [moved, joins.holds]

-- Two namings of one net are renamings of each other.
theorem exists_renaming {γ : Type} [Nonempty γ] {f : α → β} {g : α → γ} (proper : N.Proper) (left : Names f N.Live)
    (right : Names g N.Live) : ∃ h : β → γ, Names h (N.moved f).Live ∧ (N.moved f).moved h = N.moved g := by
  classical
  have chosen : ∀ v, ∃ w, ∀ t, N.Live t → f t = v → g t = w := by
    intro v
    by_cases some_ : ∃ t, N.Live t ∧ f t = v
    · obtain ⟨t, live, rfl⟩ := some_
      exact ⟨g t, fun u again same => congrArg g (left u t again live same)⟩
    · exact ⟨Classical.arbitrary γ, fun t live same => absurd ⟨t, live, same⟩ some_⟩
  choose h follows using chosen
  have same : ∀ t, N.Live t → h (f t) = g t := fun t live => (follows (f t) t live rfl).symm
  refine ⟨h, ?_, (moved_moved f h N).trans (moved_congr proper same)⟩
  intro v w one two equal
  obtain ⟨t, rfl, tLive⟩ := moved_live.mp one
  obtain ⟨u, rfl, uLive⟩ := moved_live.mp two
  rw [same t tLive, same u uLive] at equal
  exact congrArg f (right t u tLive uLive equal)

end

end Net

end ToffoliBench
