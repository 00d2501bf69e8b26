import Mathlib.LinearAlgebra.Matrix.Kronecker
import ToffoliBench.Proofs.Diagram.Fusion
import ToffoliBench.Proofs.Meaning.Bits
import ToffoliBench.Proofs.Meaning.Contract

namespace ToffoliBench.Diagram
open Meaning

variable {d after : Diagram} {o i a b : Nat} {k l : EdgeKind}

-- The bits outside, each at the boundary it belongs to.
def openLegs (d : Diagram) (out inp : List Bool) : Legs := ↑(d.inputs.zip inp ++ d.outputs.zip out)

noncomputable def entry (d : Diagram) (out inp : List Bool) : ℂ :=
  d.scalar.value * contract d.vertices d.edges (d.openLegs out inp)

noncomputable def matrix (d : Diagram) (m n : Nat) : Matrix (Fin m → Bool) (Fin n → Bool) ℂ :=
  .of fun out inp => d.entry (List.ofFn out) (List.ofFn inp)

theorem entry_eq_of_matrix {m n : Nat} {M : Matrix (Fin m → Bool) (Fin n → Bool) ℂ} :
    d.matrix m n = M ↔ ∀ out inp, d.entry (List.ofFn out) (List.ofFn inp) = M out inp := by
  constructor
  · rintro rfl out inp
    rfl
  · intro entries
    ext out inp
    exact entries out inp

def Bare (legs : Legs) (v : Nat) : Prop := ∀ b, legs.count (v, b) = 0

theorem boundary_weight {x : Vertex} (bound : x.kind = .boundary) (p c : Bool) :
    x.weight ((if p = false then 1 else 0) + if c = false then 1 else 0)
      ((if p = true then 1 else 0) + if c = true then 1 else 0) = if p = c then 1 else 0 := by
  cases p <;> cases c <;> simp [Vertex.weight, bound]

theorem fused_meaning (sound : d.Sound) (fusable : Fusable d o i a b k l) (outer : d.IsBoundary o) (inner : d.IsBoundary i)
    {rest : Legs} (bareOuter : Bare rest o) (bareInner : Bare rest i) :
    ∑ c : Bool, contract d.vertices d.edges ({(o, c), (i, c)} + rest) =
      contract (d.fused o i a b (k.merge l)).vertices (d.fused o i a b (k.merge l)).edges rest := by
  obtain ⟨x, xPresent, xBound⟩ := outer
  obtain ⟨y, yPresent, yBound⟩ := inner
  have apart := fusable.apart
  have dropped := (sound.drop o).drop i
  have vertices : d.vertices.Perm ((o, x) :: (i, y) :: ((d.drop o).drop i).vertices) :=
    (drop_vertices sound.nodup xPresent).trans
      ((drop_vertices (sound.drop o).nodup (mem_drop_vertices.mpr ⟨yPresent, apart.symm⟩)).cons _)
  have gone : ∀ v, v = o ∨ v = i → v ∉ ((d.drop o).drop i).ids := by
    rintro v (rfl | rfl) present <;> simp [drop_ids] at present
  have clear : ∀ v z, v = o ∨ v = i → Apart [(v, z)] ((d.drop o).drop i).edges := by
    intro v z which e present entry member
    obtain ⟨low, high⟩ := dropped.live e present
    obtain rfl := List.mem_singleton.mp member
    constructor
    · rintro rfl
      exact gone _ which low
    · rintro rfl
      exact gone _ which high
  have legsLeft : ∀ c : Bool, ∀ p q : Bool × Bool, SameAt ((d.drop o).drop i).vertices
      ({(i, q.1), (b, q.2)} + ({(o, p.1), (a, p.2)} + ({(o, c), (i, c)} + rest))) ({(a, p.2), (b, q.2)} + rest) := by
    intro c p q entry present e
    have live : entry.1 ∈ ((d.drop o).drop i).ids := List.mem_map.mpr ⟨entry, present, rfl⟩
    have notOuter : o ≠ entry.1 := fun same => gone o (.inl rfl) (same ▸ live)
    have notInner : i ≠ entry.1 := fun same => gone i (.inr rfl) (same ▸ live)
    simp only [count_pair, notOuter, notInner, false_and, if_false]
    ring
  -- Both boundaries hand the bit outside to their wires.
  have pinned : ∀ c, contract d.vertices d.edges ({(o, c), (i, c)} + rest) =
      ∑ p : Bool × Bool, k.weight p * ∑ q : Bool × Bool, l.weight q *
        ((if p.1 = c then 1 else 0) * ((if q.1 = c then 1 else 0) *
          contract ((d.drop o).drop i).vertices ((d.drop o).drop i).edges ({(a, p.2), (b, q.2)} + rest))) := by
    intro c
    rw [contract_perm vertices (fusable.edges sound), contract_between]
    refine Finset.sum_congr rfl fun p _ => ?_
    rw [contract_between]
    refine congrArg _ (Finset.sum_congr rfl fun q _ => ?_)
    rw [contract_cons (clear o x (.inl rfl)), contract_cons (clear i y (.inr rfl)), contract_same (legsLeft c p q)]
    simp only [count_pair, apart, apart.symm, fusable.left.1, fusable.left.2, fusable.right.1, fusable.right.2,
      bareOuter _, bareInner _, true_and, false_and, if_false, zero_add, add_zero]
    rw [boundary_weight xBound, boundary_weight yBound]
  have crossed : k.weight (false, true) = k.weight (true, false) := k.weight_swap (true, false)
  calc ∑ c : Bool, contract d.vertices d.edges ({(o, c), (i, c)} + rest)
      = ∑ c : Bool, ∑ far : Bool × Bool, k.weight (far.1, c) * l.weight (c, far.2) *
          contract ((d.drop o).drop i).vertices ((d.drop o).drop i).edges ({(a, far.1), (b, far.2)} + rest) := by
        refine Finset.sum_congr rfl fun c _ => ?_
        rw [pinned]
        cases c <;> simp [Fintype.sum_prod_type, crossed] <;> ring
    _ = ∑ far : Bool × Bool, (k.merge l).weight far *
          contract ((d.drop o).drop i).vertices ((d.drop o).drop i).edges ({(a, far.1), (b, far.2)} + rest) := by
        rw [Finset.sum_comm]
        refine Finset.sum_congr rfl fun far _ => ?_
        rw [← Finset.sum_mul, k.weight_merge l]
    _ = contract (d.fused o i a b (k.merge l)).vertices (d.fused o i a b (k.merge l)).edges rest := by
        rw [contract_edges_perm fused_edges, contract_between]
        rfl

theorem zip_legs (v : Nat) (vs : List Nat) (b : Bool) (bits : List Bool) :
    (↑((v :: vs).zip (b :: bits)) : Legs) = {(v, b)} + ↑(vs.zip bits) := by
  rw [List.zip_cons_cons, ← Multiset.cons_coe, ← Multiset.singleton_add]

-- The bits that the pairs of a seam share.
def pairLegs (pairs : List (Nat × Nat)) (bits : List Bool) : Legs :=
  ↑((pairs.map Prod.fst).zip bits ++ (pairs.map Prod.snd).zip bits)

theorem pairLegs_cons (pairs : List (Nat × Nat)) (c : Bool) (bits : List Bool) :
    pairLegs ((o, i) :: pairs) (c :: bits) = {(o, c), (i, c)} + pairLegs pairs bits := by
  simp only [pairLegs, List.map_cons, ← Multiset.coe_add, zip_legs]
  rw [Multiset.insert_eq_cons, ← Multiset.singleton_add]
  abel

theorem bare_zip {vs : List Nat} {bits : List Bool} {v : Nat} (absent : v ∉ vs) : Bare ↑(vs.zip bits) v := by
  intro b
  exact Multiset.count_eq_zero.mpr fun present => absent (List.of_mem_zip (Multiset.mem_coe.mp present)).1

theorem bare_add {legs more : Legs} {v : Nat} (one : Bare legs v) (two : Bare more v) : Bare (legs + more) v := by
  intro b
  rw [Multiset.count_add, one b, two b]

theorem bare_pairs {pairs : List (Nat × Nat)} {bits : List Bool} {v : Nat}
    (absent : v ∉ pairs.map Prod.fst ++ pairs.map Prod.snd) : Bare (pairLegs pairs bits) v := by
  rw [List.mem_append, not_or] at absent
  rw [pairLegs, ← Multiset.coe_add]
  exact bare_add (bare_zip absent.1) (bare_zip absent.2)

-- All pairs of a seam are fused: every shared bit is summed out.
theorem fusions_meaning {pairs : List (Nat × Nat)} (steps : Fusions d pairs after) (sound : d.Sound)
    (once : (pairs.map Prod.fst ++ pairs.map Prod.snd).Nodup)
    (bound : ∀ v ∈ pairs.map Prod.fst ++ pairs.map Prod.snd, d.IsBoundary v) {rest : Legs}
    (bare : ∀ v ∈ pairs.map Prod.fst ++ pairs.map Prod.snd, Bare rest v) :
    (sumBits pairs.length fun bits => contract d.vertices d.edges (pairLegs pairs bits + rest)) =
      contract after.vertices after.edges rest := by
  induction steps with
  | nil => simp [sumBits, pairLegs]
  | @cons d middle after o i pairs step more ih =>
    obtain ⟨a, b, k, l, fusable, rfl⟩ := sound.fusePair_ok.mp step
    obtain ⟨_, others, once⟩ := Wiring.ends_once once
    obtain ⟨outerBound, innerBound, bound⟩ := Wiring.ends_all bound
    obtain ⟨outerBare, innerBare, bare⟩ := Wiring.ends_all bare
    rw [← ih (fusable.fused_sound sound) once (fun v present => (bound v present).fused (others v present).1 (others v present).2) bare]
    rw [List.length_cons, sumBits, sumBits_comm]
    refine sumBits_congr fun bits _ => ?_
    rw [← fused_meaning sound fusable outerBound innerBound
      (bare_add (bare_pairs fun listed => (others o listed).1 rfl) outerBare)
      (bare_add (bare_pairs fun listed => (others i listed).2 rfl) innerBare)]
    refine Finset.sum_congr rfl fun c _ => ?_
    rw [pairLegs_cons, add_assoc]

end ToffoliBench.Diagram
