import ToffoliBench.Proofs.Diagram.Composition
import ToffoliBench.Proofs.Diagram.Net

namespace ToffoliBench

open Wiring

namespace Diagram
open Outcome

variable {d other after : Diagram} {o i a b v w : Nat} {k l m : EdgeKind} {pairs : List (Nat × Nat)} {V : Wiring Nat}

def wired (d : Diagram) : Wiring Nat := fun v w m => ∃ e ∈ d.edges, e.Ends v w ∧ e.kind = m

def net (d : Diagram) : Net Nat := ⟨fun v l => ∃ x, (v, x) ∈ d.vertices ∧ x.label = l, d.wired, d.inputs, d.outputs⟩

-- Each listed boundary is one, once, and has one wire; others may be left over.
structure Ended (d : Diagram) : Prop extends Sound d where
  distinct : (d.inputs ++ d.outputs).Nodup
  bound : ∀ v ∈ d.inputs ++ d.outputs, d.IsBoundary v
  single : ∀ v ∈ d.inputs ++ d.outputs, d.degree v = 1

theorem WellFormed.ended (formed : d.WellFormed) : d.Ended :=
  { formed with bound := fun v => (formed.covered v).mp }

theorem net_live : d.net.Live v ↔ v ∈ d.ids := by
  constructor
  · rintro ⟨_, x, held, _⟩
    exact List.mem_map_of_mem held
  · intro live
    obtain ⟨⟨_, x⟩, held, rfl⟩ := List.mem_map.mp live
    exact ⟨_, x, held, rfl⟩

theorem wired_adjacent (near : d.wired v w m) : d.Adjacent v w := by
  obtain ⟨e, held, ends, _⟩ := near
  exact ⟨e, held, ends⟩

theorem Adjacent.wired (near : d.Adjacent v w) : ∃ m, d.wired v w m := by
  obtain ⟨e, held, ends⟩ := near
  exact ⟨e.kind, e, held, ends, rfl⟩

theorem wired_symm (d : Diagram) : d.wired.Symm := by
  rintro v w m ⟨e, held, ends, kind⟩
  exact ⟨e, held, ends.symm, kind⟩

theorem Ended.proper (ended : d.Ended) : d.net.Proper where
  symm := d.wired_symm
  within := fun _ _ _ near => (ended.adjacent_live (wired_adjacent near)).imp net_live.mpr net_live.mpr
  live := fun v listed => net_live.mpr (ended.bound v listed).live
  distinct := ended.distinct

theorem Sound.sole_iff (sound : d.Sound) : d.wired.Sole o a k ↔ d.incident o = [(a, k)] := by
  have members : ∀ near, near ∈ d.incident o ↔ d.wired o near.1 near.2 := fun near => sound.mem_incident
  constructor
  · intro sole
    have once : (d.incident o).Nodup := List.Nodup.of_map Prod.fst (neighbors_eq d o ▸ sound.neighbors_nodup o)
    refine List.perm_singleton.mp ((List.perm_ext_iff_of_nodup once (List.nodup_singleton _)).mpr fun near => ?_)
    rw [members, sole, List.mem_singleton, Prod.ext_iff]
  · intro only v m
    rw [← members (v, m), only, List.mem_singleton, Prod.mk.injEq]

theorem Sound.fits_iff (sound : d.Sound) : d.wired.Fits o i a b k l ↔ Fusable d o i a b k l := by
  constructor
  · intro fits
    refine ⟨sound.sole_iff.mp fits.outer, sound.sole_iff.mp fits.inner, fits.left, fits.right, fits.different, fun near => ?_⟩
    obtain ⟨m, wire⟩ := near.wired
    exact fits.new m wire
  · intro fusable
    exact ⟨sound.sole_iff.mpr fusable.outer, sound.sole_iff.mpr fusable.inner, fusable.left, fusable.right, fusable.different,
      fun m wire => fusable.new (wired_adjacent wire)⟩

theorem Sound.fused_wired (sound : d.Sound) : (d.fused o i a b m).wired = d.wired.fused o i a b m := by
  have edges : ∀ e, e ∈ (d.fused o i a b m).edges ↔ e = .between a b m ∨ e ∈ d.edges ∧ e.touches o = false ∧ e.touches i = false := by
    intro e
    rw [fused_edges.mem_iff, List.mem_cons, (sound.drop o).drop_edges, sound.drop_edges]
    simp only [List.mem_filter, Bool.not_eq_true', and_assoc]
  funext v w n
  refine propext ⟨?_, ?_⟩
  · rintro ⟨e, held, ends, rfl⟩
    rcases (edges e).mp held with rfl | ⟨old, outer, inner⟩
    · refine .inr ⟨rfl, ?_⟩
      simpa only [eq_comm, and_comm] using Edge.between_ends_iff.mp ends
    · rw [← Bool.not_eq_true, Edge.touches_iff] at outer inner
      refine .inl ⟨⟨e, old, ends, rfl⟩, ?_⟩
      simp only [Edge.Ends] at ends
      omega
  · rintro (⟨⟨e, old, ends, rfl⟩, left, right⟩ | ⟨rfl, ends⟩)
    · refine ⟨e, (edges e).mpr (.inr ⟨old, ?_⟩), ends, rfl⟩
      rw [← Bool.not_eq_true, ← Bool.not_eq_true, Edge.touches_iff, Edge.touches_iff]
      simp only [Edge.Ends] at ends
      omega
    · refine ⟨_, (edges _).mpr (.inl rfl), Edge.between_ends_iff.mpr ?_, rfl⟩
      simpa only [eq_comm, and_comm] using ends

theorem fused_holds {x : Label} : (d.fused o i a b m).net.holds v x ↔ d.net.holds v x ∧ v ≠ o ∧ v ≠ i := by
  constructor
  · rintro ⟨y, held, rfl⟩
    obtain ⟨held, inner⟩ := mem_drop_vertices.mp held
    obtain ⟨held, outer⟩ := mem_drop_vertices.mp held
    exact ⟨⟨y, held, rfl⟩, outer, inner⟩
  · rintro ⟨⟨y, held, rfl⟩, outer, inner⟩
    exact ⟨y, mem_drop_vertices.mpr ⟨mem_drop_vertices.mpr ⟨held, outer⟩, inner⟩, rfl⟩

theorem Fusions.fuseAll (steps : Fusions d pairs after) (sound : d.Sound) : FuseAll d.wired pairs after.wired ∧
    ∀ v x, after.net.holds v x ↔ d.net.holds v x ∧ v ∉ pairs.map Prod.fst ∧ v ∉ pairs.map Prod.snd := by
  induction steps with
  | nil => exact ⟨.nil, by simp⟩
  | cons step _ ih =>
    obtain ⟨a, b, k, l, fusable, rfl⟩ := sound.fusePair_ok.mp step
    obtain ⟨others, holds⟩ := ih (fusable.fused_sound sound)
    refine ⟨.cons ⟨a, b, k, l, sound.fits_iff.mpr fusable, rfl⟩ (sound.fused_wired ▸ others), fun v x => ?_⟩
    rw [holds, fused_holds]
    simp only [List.map_cons, List.mem_cons, not_or]
    tauto

theorem fusions_of_fuseAll (steps : FuseAll d.wired pairs V) (sound : d.Sound) : ∃ after, Fusions d pairs after ∧ after.wired = V := by
  induction pairs generalizing d with
  | nil =>
    cases steps
    exact ⟨d, .nil, rfl⟩
  | cons pair rest ih =>
    cases steps with
    | cons first others =>
      obtain ⟨a, b, k, l, fits, rfl⟩ := first
      have fusable := sound.fits_iff.mp fits
      obtain ⟨after, more, same⟩ := ih (sound.fused_wired.symm ▸ others) (fusable.fused_sound sound)
      exact ⟨after, .cons (sound.fusePair_ok.mpr ⟨a, b, k, l, fusable, rfl⟩) more, same⟩

theorem Appended.wired {both : Diagram} {names : Renaming} {qubits rows : Float} (all : Appended d other both names qubits rows) :
    both.wired = d.wired.beside (other.wired.moved (rename names)) := by
  funext v w m
  refine propext ⟨?_, ?_⟩
  · rintro ⟨e, held, ends, rfl⟩
    rcases List.mem_append.mp (all.edges.mem_iff.mp held) with old | moved
    · exact .inl ⟨e, old, ends, rfl⟩
    · obtain ⟨f, source, rfl⟩ := List.mem_map.mp moved
      rcases Edge.between_ends_iff.mp ends with ⟨low, high⟩ | ⟨low, high⟩
      · exact .inr ⟨f.low, f.high, low, high, f, source, .inl ⟨rfl, rfl⟩, rfl⟩
      · exact .inr ⟨f.high, f.low, high, low, f, source, .inr ⟨rfl, rfl⟩, rfl⟩
  · rintro (⟨e, old, ends, rfl⟩ | ⟨t, u, rfl, rfl, f, source, ends, rfl⟩)
    · exact ⟨e, all.edges.mem_iff.mpr (List.mem_append_left _ old), ends, rfl⟩
    · refine ⟨_, all.edges.mem_iff.mpr (List.mem_append_right _ (List.mem_map_of_mem source)), Edge.between_ends_iff.mpr ?_, rfl⟩
      rcases ends with ⟨rfl, rfl⟩ | ⟨rfl, rfl⟩
      · exact .inl ⟨rfl, rfl⟩
      · exact .inr ⟨rfl, rfl⟩

theorem Appended.holds {both : Diagram} {names : Renaming} {qubits rows : Float} (all : Appended d other both names qubits rows)
    {x : Label} : both.net.holds v x ↔ d.net.holds v x ∨ (other.net.moved (rename names)).holds v x := by
  constructor
  · rintro ⟨y, held, rfl⟩
    rcases List.mem_append.mp (all.vertices.mem_iff.mp held) with old | moved
    · exact .inl ⟨y, old, rfl⟩
    · obtain ⟨⟨u, z⟩, source, same⟩ := List.mem_map.mp moved
      obtain ⟨rfl, rfl⟩ := Prod.mk.inj same
      exact .inr ⟨u, rfl, z, source, rfl⟩
  · rintro (⟨y, old, rfl⟩ | ⟨u, rfl, z, source, rfl⟩)
    · exact ⟨y, all.vertices.mem_iff.mpr (List.mem_append_left _ old), rfl⟩
    · exact ⟨_, all.vertices.mem_iff.mpr (List.mem_append_right _ (List.mem_map_of_mem source)), rfl⟩

theorem listed_live (proper : d.net.Proper) : (∀ v ∈ d.inputs, v ∈ d.ids) ∧ ∀ v ∈ d.outputs, v ∈ d.ids :=
  ⟨fun v listed => net_live.mp (proper.live v (List.mem_append_left _ listed)),
    fun v listed => net_live.mp (proper.live v (List.mem_append_right _ listed))⟩

section

variable (left : d.Sound) (right : other.Sound) (proper : other.net.Proper)
include left right proper

-- Composing diagrams joins their nets, and multiplies their scalars.
theorem compose_joins (done : d.compose other = .ok after) : after.Sound ∧
    Net.Joins d.net (other.net.moved (rename (d.joinNames other))) after.net ∧ d.scalar.mul other.scalar = .ok after.scalar := by
  obtain ⟨inputs, outputs⟩ := listed_live proper
  obtain ⟨lengths, fusedAll, scalar, steps, product, rfl⟩ := (compose_exact left right inputs outputs).mp done
  have all := append_appended left right 0 d.depth
  have both := left.joined right
  obtain ⟨fused, holds⟩ := steps.fuseAll both
  obtain ⟨sound, keptInputs, _, keptScalar⟩ := steps.kept both
  refine ⟨sound.congr rfl rfl rfl rfl,
    ⟨?_, ?_, ?_, keptInputs.trans all.inputs, rfl⟩, ?_⟩
  · simpa [net, Net.moved] using lengths
  · rw [show (d.joined other).wired = _ from all.wired] at fused
    rw [seam] at fused
    rw [show d.net.outputs.zip (other.net.moved (rename (d.joinNames other))).inputs =
      (d.outputs.zip other.inputs).map fun pair => (pair.1, rename (d.joinNames other) pair.2) from List.zip_map_right ..]
    exact fused
  · funext v x
    have one := holds v x
    rw [show (d.joined other).net.holds v x ↔ _ from all.holds, seam_fst lengths, seam_snd lengths] at one
    exact propext one
  · rw [← product, keptScalar]
    exact congrArg (·.mul other.scalar) all.scalar.symm

theorem joins_compose {N : Net Nat} (joins : Net.Joins d.net (other.net.moved (rename (d.joinNames other))) N) {scalar : Scalar}
    (product : d.scalar.mul other.scalar = .ok scalar) : ∃ after, d.compose other = .ok after ∧ after.net = N := by
  obtain ⟨inputs, outputs⟩ := listed_live proper
  have lengths : d.outputs.length = other.inputs.length := by simpa [net, Net.moved] using joins.lengths
  have all := append_appended left right 0 d.depth
  have both := left.joined right
  have fused := joins.fused
  rw [show d.net.wires.beside (other.net.moved (rename (d.joinNames other))).wires = (d.joined other).wired from all.wired.symm,
    show d.net.outputs.zip (other.net.moved (rename (d.joinNames other))).inputs = d.seam other from List.zip_map_right ..] at fused
  obtain ⟨fusedAll, steps, same⟩ := fusions_of_fuseAll fused both
  obtain ⟨_, _, _, keptScalar⟩ := steps.kept both
  have done := (compose_exact left right inputs outputs).mpr
    ⟨lengths, fusedAll, scalar, steps, (congrArg (·.mul other.scalar) (keptScalar.trans all.scalar)).trans product, rfl⟩
  refine ⟨_, done, ?_⟩
  obtain ⟨_, joined, _⟩ := compose_joins left right proper done
  exact Net.ext (joined.holds.trans joins.holds.symm) same (joined.inputs.trans joins.inputs.symm)
    (joined.outputs.trans joins.outputs.symm)

end

-- A diagram shows a net when its own net is that one under other names.
structure Shows {α : Type} (d : Diagram) (N : Net α) (f : α → Nat) : Prop where
  sound : d.Sound
  proper : N.Proper
  names : Names f N.Live
  same : d.net = N.moved f

section

variable {α : Type} {P Q N : Net α} {f g : α → Nat}

-- The names of a copy tell its vertices apart, and from those that were there before.
theorem Appended.names {both : Diagram} {names : Renaming} {qubits rows : Float} (all : Appended d other both names qubits rows) :
    Names (rename names) other.net.Live ∧ ∀ v, other.net.Live v → ¬d.net.Live (rename names v) :=
  ⟨fun _ _ here there => all.injective (net_live.mp here) (net_live.mp there),
    fun _ live => mt net_live.mp (all.new (net_live.mp live))⟩

theorem copy_names (left : d.Sound) (right : other.Sound) : Names (rename (d.joinNames other)) other.net.Live ∧
    ∀ v, other.net.Live v → ¬d.net.Live (rename (d.joinNames other) v) :=
  (append_appended left right 0 d.depth).names

-- Where a copy stands, each place goes by the name it had, or by the name its copy got.
theorem Shows.together {both : Diagram} {names : Renaming} {qubits rows : Float} (left : d.Shows P f) (right : other.Shows Q g)
    (apart : ∀ t, P.Live t → ¬Q.Live t) (all : Appended d other both names qubits rows) :
    ∃ h : α → Nat, Names h (fun t => P.Live t ∨ Q.Live t) ∧ d.net = P.moved h ∧ other.net.moved (rename names) = Q.moved h := by
  classical
  obtain ⟨injective, new⟩ := all.names
  have mine : ∀ t, P.Live t → d.net.Live (f t) := fun t live => left.same ▸ Net.moved_live.mpr ⟨t, rfl, live⟩
  have theirs : ∀ t, Q.Live t → other.net.Live (g t) := fun t live => right.same ▸ Net.moved_live.mpr ⟨t, rfl, live⟩
  obtain ⟨h, onP, onQ⟩ : ∃ h : α → Nat, (∀ t, P.Live t → h t = f t) ∧ ∀ t, Q.Live t → h t = rename names (g t) :=
    ⟨fun t => if P.Live t then f t else rename names (g t), fun t live => if_pos live,
      fun t live => if_neg fun here => apart t here live⟩
  have crossed : ∀ t u, P.Live t → Q.Live u → h t ≠ h u := by
    intro t u here there same
    rw [onP t here, onQ u there] at same
    exact new (g u) (theirs u there) (same ▸ mine t here)
  refine ⟨h, ?_, left.same.trans (Net.moved_congr left.proper fun t live => (onP t live).symm), ?_⟩
  · rintro t u (here | here) (there | there) same
    · rw [onP t here, onP u there] at same
      exact left.names t u here there same
    · exact absurd same (crossed t u here there)
    · exact absurd same.symm (crossed u t there here)
    · rw [onQ t here, onQ u there] at same
      exact right.names t u here there (injective _ _ (theirs t here) (theirs u there) same)
  · rw [right.same, Net.moved_moved]
    exact Net.moved_congr right.proper fun t live => (onQ t live).symm

theorem Shows.net_proper (shown : d.Shows N f) : d.net.Proper := shown.same ▸ shown.proper.moved shown.names

-- A run that ends well just when there is a net of some sort, and then in a diagram that shows it.
def Depicts (run : Except Interrupted Diagram) (sort : Net α → Prop) (scalar : Scalar) : Prop :=
  (∀ after, run = .ok after → ∃ N h, sort N ∧ after.Shows N h ∧ after.scalar = scalar) ∧
    ∀ N, sort N → ∃ after h, run = .ok after ∧ after.Shows N h ∧ after.scalar = scalar

-- Diagrams compose as the nets they show join.
theorem Shows.compose (left : d.Shows P f) (right : other.Shows Q g) (apart : ∀ t, P.Live t → ¬Q.Live t) {scalar : Scalar}
    (product : d.scalar.mul other.scalar = .ok scalar) : Depicts (d.compose other) (Net.Joins P Q) scalar := by
  have all : Appended d other _ (d.joinNames other) 0 d.depth := append_appended left.sound right.sound 0 d.depth
  obtain ⟨h, names, mine, theirs⟩ := left.together right apart all
  have renamed : ∀ X, Net.Joins d.net (other.net.moved (rename (d.joinNames other))) X ↔ ∃ N, Net.Joins P Q N ∧ X = N.moved h := by
    intro X
    rw [mine, theirs]
    exact Net.joins_moved left.proper right.proper names
  have shown : ∀ after N, d.compose other = .ok after → Net.Joins P Q N → after.net = N.moved h →
      after.Shows N h ∧ after.scalar = scalar := by
    intro after N done joins same
    obtain ⟨sound, _, product'⟩ := compose_joins left.sound right.sound right.net_proper done
    exact ⟨⟨sound, joins.proper left.proper right.proper apart,
      fun t u here there => names t u (joins.kept here).1 (joins.kept there).1, same⟩, Except.ok.inj (product'.symm.trans product)⟩
  refine ⟨fun after done => ?_, fun N joins => ?_⟩
  · obtain ⟨_, joined, _⟩ := compose_joins left.sound right.sound right.net_proper done
    obtain ⟨N, joins, same⟩ := (renamed _).mp joined
    exact ⟨N, h, joins, shown after N done joins same⟩
  · obtain ⟨after, done, same⟩ := joins_compose left.sound right.sound right.net_proper ((renamed _).mpr ⟨N, joins, rfl⟩) product
    exact ⟨after, h, done, shown after N done joins same⟩

end

-- A diagram shows its own net, with a tag on every place too.
theorem Ended.shows (ended : d.Ended) (tag : Nat) : d.Shows (d.net.moved (Prod.mk tag)) Prod.snd := by
  have names : Names (Prod.mk tag) d.net.Live := fun _ _ _ _ same => (Prod.mk.inj same).2
  refine ⟨ended.toSound, ended.proper.moved names, ?_, ?_⟩
  · intro t u here there same
    obtain ⟨_, rfl, _⟩ := Net.moved_live.mp here
    obtain ⟨_, rfl, _⟩ := Net.moved_live.mp there
    exact congrArg (Prod.mk tag) same
  · rw [Net.moved_moved]
    refine Net.ext ?_ ?_ (List.map_id _).symm (List.map_id _).symm
    · funext v l
      simp [Net.moved]
    · funext v w m
      simp [Net.moved, moved]

end Diagram

end ToffoliBench
