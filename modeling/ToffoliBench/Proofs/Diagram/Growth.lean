import ToffoliBench.Proofs.Diagram.Straight

namespace ToffoliBench.Diagram

variable {d middle after : Diagram} {new more : List (Nat × Vertex)} {es fs : List Edge} {ins outs ins' outs' : List Nat}
  {a b v w : Nat}

structure Grown (d after : Diagram) (new : List (Nat × Vertex)) (es : List Edge) : Prop where
  sound : after.Sound
  unfreed : after.freed = []
  next : after.next = d.next + new.length
  vertices : after.vertices.Perm (d.vertices ++ new)
  edges : after.edges.Perm (d.edges ++ es)
  inputs : after.inputs = d.inputs
  outputs : after.outputs = d.outputs
  scalar : after.scalar = d.scalar

theorem fresh_unfreed (unfreed : d.freed = []) : d.fresh = d.next := by
  rw [fresh, unfreed]
  rfl

-- Ids from `d.next` on are not in use.
theorem Sound.beyond (sound : d.Sound) (above : d.next ≤ v) : v ∉ d.ids :=
  fun old => Nat.lt_irrefl _ (Nat.lt_of_le_of_lt above (sound.used v old))

theorem Sound.unmet (sound : d.Sound) (above : d.next ≤ v) : ¬d.Adjacent v w :=
  fun near => sound.beyond above (sound.adjacent_live near).1

theorem Sound.bound_used (sound : d.Sound) (bound : d.IsBoundary v) : v < d.next := sound.used v bound.live

theorem empty_sound : empty.Sound := by decide

theorem empty_unfreed : empty.freed = [] := rfl

namespace Grown

theorem start (sound : d.Sound) (unfreed : d.freed = []) : Grown d d [] [] :=
  ⟨sound, unfreed, rfl, by simp, by simp, rfl, rfl, rfl⟩

theorem trans (first : Grown d middle new es) (second : Grown middle after more fs) : Grown d after (new ++ more) (es ++ fs) := by
  refine ⟨second.sound, second.unfreed, ?_, ?_, ?_, second.inputs.trans first.inputs, second.outputs.trans first.outputs,
    second.scalar.trans first.scalar⟩
  · rw [second.next, first.next, List.length_append, Nat.add_assoc]
  · rw [← List.append_assoc]
    exact second.vertices.trans (first.vertices.append_right more)
  · rw [← List.append_assoc]
    exact second.edges.trans (first.edges.append_right fs)

theorem fresh (grown : Grown d after new es) : after.fresh = d.next + new.length :=
  (fresh_unfreed grown.unfreed).trans grown.next

theorem add (grown : Grown d after new es) (x : Vertex) : Grown d (after.add x) (new ++ [(d.next + new.length, x)]) es := by
  refine ⟨grown.sound.add x, ?_, ?_, ?_, grown.edges, grown.inputs, grown.outputs, grown.scalar⟩
  · simp [Diagram.add, grown.unfreed]
  · simp [Diagram.add, grown.unfreed, grown.next, Nat.add_assoc]
  · calc (after.add x).vertices.Perm _ := grown.fresh ▸ add_vertices after x
      List.Perm _ ((d.next + new.length, x) :: (d.vertices ++ new)) := grown.vertices.cons _
      List.Perm _ (d.vertices ++ (new ++ [(d.next + new.length, x)])) := by
        rw [← List.append_assoc]
        exact (List.perm_append_singleton _ _).symm

theorem ids (grown : Grown d after new es) : after.ids.Perm (d.ids ++ new.map Prod.fst) := by
  have same := grown.vertices.map Prod.fst
  rwa [List.map_append] at same

theorem mem_ids (grown : Grown d after new es) : v ∈ after.ids ↔ v ∈ d.ids ∨ v ∈ new.map Prod.fst := by
  rw [grown.ids.mem_iff, List.mem_append]

theorem apart (grown : Grown d after new es) (old : v ∈ d.ids) : v ∉ new.map Prod.fst :=
  fun fresh => List.disjoint_of_nodup_append (grown.ids.nodup_iff.mp grown.sound.nodup) old fresh

theorem adjacent (grown : Grown d after new es) : after.Adjacent v w ↔ d.Adjacent v w ∨ ∃ e ∈ es, e.Ends v w := by
  simp only [Adjacent, grown.edges.mem_iff, List.mem_append, or_and_right, exists_or]

theorem boundary (grown : Grown d after new es) :
    after.IsBoundary v ↔ d.IsBoundary v ∨ ∃ x, (v, x) ∈ new ∧ x.kind = .boundary := by
  simp only [IsBoundary, grown.vertices.mem_iff, List.mem_append, or_and_right, exists_or]

theorem kept_inner (grown : Grown d after new es) (old : v ∈ d.ids) (inner : ¬d.IsBoundary v) : v ∈ after.ids ∧ ¬after.IsBoundary v := by
  refine ⟨grown.mem_ids.mpr (.inl old), fun bound => ?_⟩
  rcases grown.boundary.mp bound with before | ⟨x, listed, _⟩
  · exact inner before
  · exact grown.apart old (List.mem_map_of_mem listed)

theorem link (grown : Grown d after new es) (left : a ∈ after.ids) (right : b ∈ after.ids) (different : a ≠ b)
    (apart : ¬d.Adjacent a b) (free : ∀ e ∈ es, ¬e.Ends a b) (kind : EdgeKind) :
    Grown d (after.link a b kind) new (es ++ [.between a b kind]) := by
  have unmet : ¬after.Adjacent a b := by
    rw [grown.adjacent]
    rintro (old | ⟨e, present, ends⟩)
    · exact apart old
    · exact free e present ends
  refine ⟨grown.sound.link left right different unmet kind, grown.unfreed, grown.next, grown.vertices, ?_, grown.inputs,
    grown.outputs, grown.scalar⟩
  calc (after.link a b kind).edges.Perm _ := link_edges ..
    List.Perm _ (.between a b kind :: (d.edges ++ es)) := grown.edges.cons _
    List.Perm _ (d.edges ++ (es ++ [.between a b kind])) := by
      rw [← List.append_assoc]
      exact (List.perm_append_singleton _ _).symm

theorem degree (grown : Grown d after new es) (v : Nat) : after.degree v = d.degree v + es.countP (·.touches v) := by
  rw [degree_perm grown.edges, List.countP_append, degree_eq]

end Grown

def within (d : Diagram) (ins outs : List Nat) : Diagram := { d with inputs := ins, outputs := outs }

@[simp] theorem within_inputs : (d.within ins outs).inputs = ins := rfl
@[simp] theorem within_outputs : (d.within ins outs).outputs = outs := rfl
@[simp] theorem within_vertices : (d.within ins outs).vertices = d.vertices := rfl
@[simp] theorem within_edges : (d.within ins outs).edges = d.edges := rfl
@[simp] theorem within_scalar : (d.within ins outs).scalar = d.scalar := rfl
@[simp] theorem within_within : (d.within ins outs).within ins' outs' = d.within ins' outs' := rfl
@[simp] theorem within_self : d.within d.inputs d.outputs = d := rfl

theorem Sound.within (sound : d.Sound) (ins outs : List Nat) : (d.within ins outs).Sound :=
  sound.congr rfl rfl rfl rfl

structure Tidy (d : Diagram) : Prop extends WellFormed d, Straight d

def boundaries (vertices : List (Nat × Vertex)) : List Nat :=
  (vertices.filter fun entry => entry.2.kind == .boundary).map Prod.fst

theorem mem_boundaries : v ∈ boundaries new ↔ ∃ x, (v, x) ∈ new ∧ x.kind = .boundary := by
  simp [boundaries, List.mem_filter]

theorem Tidy.tensor {other : Diagram} (left : d.Tidy) (right : other.Tidy) (done : d.tensor other = .ok after) : after.Tidy :=
  ⟨tensor_wellFormed left.toWellFormed right.toWellFormed done,
    tensor_straight left.toWellFormed right.toWellFormed left.toStraight right.toStraight done⟩

-- Tidy diagrams compose as soon as their ends are as many and their scalars have a product.
theorem Tidy.compose {other : Diagram} (left : d.Tidy) (right : other.Tidy) (lengths : d.outputs.length = other.inputs.length)
    {scalar : Scalar} (product : d.scalar.mul other.scalar = .ok scalar) :
    ∃ after, d.compose other = .ok after ∧ after.Tidy ∧ after.scalar = scalar := by
  obtain ⟨after, done, formed, straight, kept⟩ :=
    compose_total left.toWellFormed right.toWellFormed left.toStraight right.toStraight lengths product
  exact ⟨after, done, ⟨formed, straight⟩, kept⟩

-- New wires keep away from the old boundaries; each new boundary has one of them, and a new output
-- has it to a new vertex that has no other output.
structure Inward (d : Diagram) (new : List (Nat × Vertex)) (es : List Edge) (ins outs : List Nat) : Prop where
  distinct : (ins ++ outs).Nodup
  covered : ∀ v, v ∈ ins ++ outs ↔ v ∈ boundaries new
  single : ∀ v ∈ ins ++ outs, es.countP (·.touches v) = 1
  inner : ∀ v, d.IsBoundary v → ∀ e ∈ es, ¬e.touches v = true
  inputsApart : ∀ e ∈ es, ∀ v ∈ ins, ∀ w ∈ ins, ¬e.Ends v w
  outputsApart : ∀ e ∈ es, ∀ v ∈ outs, ∀ w ∈ outs, ¬e.Ends v w
  outputsNew : ∀ e ∈ es, ∀ v ∈ outs, ∀ w, e.Ends v w → w ∉ d.ids
  outputsLone : ∀ e ∈ es, ∀ f ∈ es, ∀ u ∈ outs, ∀ v ∈ outs, ∀ w, e.Ends u w → f.Ends v w → u = v

theorem Inward.unmet (inward : Inward d new es ins' outs') (tidy : (d.within ins outs).Tidy) {e : Edge} (present : e ∈ es)
    (bound : v ∈ ins ++ outs) : ¬e.Ends v w :=
  fun ends => inward.inner v ((tidy.covered v).mp bound) e present ends.touches

theorem Inward.new_live (inward : Inward d new es ins' outs') (grown : Grown d after new es) (bound : v ∈ ins' ++ outs') :
    v ∉ d.ids := by
  obtain ⟨x, present, _⟩ := mem_boundaries.mp ((inward.covered v).mp bound)
  exact fun old => grown.apart old (List.mem_map.mpr ⟨_, present, rfl⟩)

section

variable (tidy : (d.within ins outs).Tidy) (grown : Grown d after new es) (inward : Inward d new es ins' outs')
include tidy grown inward

theorem Inward.wellFormed : (after.within (ins ++ ins') (outs ++ outs')).WellFormed := by
  have sound := grown.sound
  have live : ∀ v ∈ ins ++ outs, v ∈ d.ids := fun v bound => ((tidy.covered v).mp bound).live
  have rearranged : (ins ++ ins' ++ (outs ++ outs')).Perm (ins ++ outs ++ (ins' ++ outs')) := by
    refine List.perm_iff_count.mpr fun v => ?_
    simp only [List.count_append]
    omega
  refine ⟨sound.congr rfl rfl rfl rfl, ?_, ?_, ?_⟩
  · refine rearranged.nodup_iff.mpr (List.nodup_append'.mpr ⟨tidy.distinct, inward.distinct, ?_⟩)
    exact fun v old fresh => inward.new_live grown fresh (live v old)
  · intro v
    rw [show (after.within (ins ++ ins') (outs ++ outs')).IsBoundary v ↔ after.IsBoundary v from Iff.rfl, grown.boundary,
      ← mem_boundaries, ← inward.covered, show d.IsBoundary v ↔ v ∈ ins ++ outs from (tidy.covered v).symm, ← List.mem_append]
    exact rearranged.mem_iff
  · intro v present
    rw [show (after.within (ins ++ ins') (outs ++ outs')).degree v = after.degree v from rfl, grown.degree]
    rcases List.mem_append.mp (rearranged.mem_iff.mp present) with old | fresh
    · have none : es.countP (·.touches v) = 0 := by
        rw [List.countP_eq_zero]
        exact inward.inner v ((tidy.covered v).mp old)
      rw [none, Nat.add_zero]
      exact tidy.single v old
    · have none : d.degree v = 0 := by
        rw [degree_eq, List.countP_eq_zero]
        intro e held touched
        obtain ⟨low, high⟩ := tidy.live e held
        rcases Edge.touches_iff.mp touched with rfl | rfl
        · exact inward.new_live grown fresh low
        · exact inward.new_live grown fresh high
      rw [none, Nat.zero_add]
      exact inward.single v fresh

-- Old ends that keep apart, and new ones that do, keep apart from each other too.
theorem Inward.ends_apart {old fresh : List Nat} (oldEnds : ∀ v ∈ old, v ∈ ins ++ outs) (freshEnds : ∀ v ∈ fresh, v ∈ ins' ++ outs')
    (oldApart : ∀ v ∈ old, ∀ w, d.Adjacent v w → w ∉ old) (freshApart : ∀ e ∈ es, ∀ v ∈ fresh, ∀ w ∈ fresh, ¬e.Ends v w) :
    ∀ v ∈ old ++ fresh, ∀ w, after.Adjacent v w → w ∉ old ++ fresh := by
  have new : ∀ v ∈ fresh, v ∉ d.ids := fun v bound => inward.new_live grown (freshEnds v bound)
  intro v present w near again
  rcases grown.adjacent.mp near with there | ⟨e, held, ends⟩
  · have live : v ∈ d.ids ∧ w ∈ d.ids := tidy.adjacent_live there
    have one := (List.mem_append.mp present).resolve_right fun one => new v one live.1
    have two := (List.mem_append.mp again).resolve_right fun two => new w two live.2
    exact oldApart v one w there two
  · have one := (List.mem_append.mp present).resolve_left fun one => inward.unmet tidy held (oldEnds v one) ends
    have two := (List.mem_append.mp again).resolve_left fun two => inward.unmet tidy held (oldEnds w two) ends.symm
    exact freshApart e held v one w two ends

-- An old output has its old wire, a new one has a new wire to a new vertex.
theorem Inward.output_wire (bound : v ∈ outs ++ outs') (near : after.Adjacent v w) :
    (v ∈ outs ∧ d.Adjacent v w) ∨ (v ∈ outs' ∧ w ∉ d.ids ∧ ∃ e ∈ es, e.Ends v w) := by
  rcases grown.adjacent.mp near with old | ⟨e, held, ends⟩ <;> rcases List.mem_append.mp bound with one | one
  · exact .inl ⟨one, old⟩
  · exact absurd (tidy.adjacent_live old).1 (inward.new_live grown (List.mem_append_right _ one))
  · exact absurd ends (inward.unmet tidy held (List.mem_append_right _ one))
  · exact .inr ⟨one, inward.outputsNew e held v one w ends, e, held, ends⟩

theorem Inward.straight : (after.within (ins ++ ins') (outs ++ outs')).Straight := by
  refine ⟨?_, ?_, ?_⟩
  · exact inward.ends_apart tidy grown (fun v => List.mem_append_left _) (fun v => List.mem_append_left _)
      tidy.inputsApart inward.inputsApart
  · exact inward.ends_apart tidy grown (fun v => List.mem_append_right _) (fun v => List.mem_append_right _)
      tidy.outputsApart inward.outputsApart
  · intro u present v again w first second
    rcases inward.output_wire tidy grown present first with ⟨one, old⟩ | ⟨one, fresh, e, held, ends⟩ <;>
      rcases inward.output_wire tidy grown again second with ⟨two, old'⟩ | ⟨two, fresh', f, held', ends'⟩
    · exact tidy.outputsLone u one v two w old old'
    · exact absurd (tidy.adjacent_live old).2 fresh'
    · exact absurd (tidy.adjacent_live old').2 fresh
    · exact inward.outputsLone e held f held' u one v two w ends ends'

theorem Tidy.grow : (after.within (ins ++ ins') (outs ++ outs')).Tidy :=
  ⟨inward.wellFormed tidy grown, inward.straight tidy grown⟩

end

-- The order of the outputs and the scalar do not matter.
theorem Tidy.relabel (tidy : (d.within ins outs).Tidy) (same : outs.Perm outs') (scalar : Scalar) :
    { d.within ins outs' with scalar }.Tidy := by
  have members : ∀ v, v ∈ outs' ↔ v ∈ outs := fun v => same.mem_iff.symm
  have all : ∀ v, v ∈ ins ++ outs' ↔ v ∈ ins ++ outs := fun v => by simp only [List.mem_append, members]
  refine ⟨⟨tidy.toSound.congr rfl rfl rfl rfl, ?_, ?_, ?_⟩, ?_, ?_, ?_⟩
  · exact (same.append_left ins).nodup_iff.mp tidy.distinct
  · exact fun v => (all v).trans (tidy.covered v)
  · exact fun v present => tidy.single v ((all v).mp present)
  · exact tidy.inputsApart
  · exact fun v present w near again => tidy.outputsApart v ((members v).mp present) w near ((members w).mp again)
  · exact fun u present v again => tidy.outputsLone u ((members u).mp present) v ((members v).mp again)

end ToffoliBench.Diagram
