import Mathlib.Algebra.BigOperators.Ring.Finset
import Mathlib.Data.Fintype.Prod
import ToffoliBench.Diagram.Basic
import ToffoliBench.Proofs.Numbers.Turn

namespace ToffoliBench

-- The entry at a leg pattern; a spider does not tell its legs apart, so their counts are enough.
noncomputable def Vertex.weight (x : Vertex) (zeros ones : Nat) : ℂ :=
  match x.kind with
  -- one leg is the wire, the other one is outside
  | .boundary => if zeros = 0 ∨ ones = 0 then 1 else 0
  | .z => (if ones = 0 then 1 else 0) + if zeros = 0 then x.phase.turn else 0
  | .x => rootTwo⁻¹ ^ (zeros + ones) * (1 + x.phase.turn * (-1) ^ ones)
  | .hBox => if zeros = 0 then x.phase.turn else 1

noncomputable def EdgeKind.weight : EdgeKind → Bool × Bool → ℂ
  | .simple, (a, b) => if a = b then 1 else 0
  | .hadamard, (a, b) => rootTwo⁻¹ * if a && b then -1 else 1

theorem EdgeKind.weight_swap (kind : EdgeKind) (bits : Bool × Bool) : kind.weight bits.swap = kind.weight bits := by
  obtain ⟨a, b⟩ := bits
  cases kind <;> cases a <;> cases b <;> rfl

theorem EdgeKind.weight_merge (k l : EdgeKind) (a b : Bool) :
    ∑ c : Bool, k.weight (a, c) * l.weight (c, b) = (k.merge l).weight (a, b) := by
  have half : rootTwo⁻¹ * rootTwo⁻¹ = 1 / 2 := by
    rw [← mul_inv, ← sq, rootTwo_sq, one_div]
  cases k <;> cases l <;> cases a <;> cases b <;> simp [weight, merge, half]
  norm_num

-- Bits at the ends of wires, each with the vertex it stands at.
abbrev Legs := Multiset (Nat × Bool)

def Edge.ends (e : Edge) (bits : Bool × Bool) : Legs := {(e.low, bits.1), (e.high, bits.2)}

namespace Meaning

-- Legs are weighed only at the listed vertices.
noncomputable def weigh (vertices : List (Nat × Vertex)) (legs : Legs) : ℂ :=
  (vertices.map fun entry => entry.2.weight (legs.count (entry.1, false)) (legs.count (entry.1, true))).prod

noncomputable def contract (vertices : List (Nat × Vertex)) : List Edge → Legs → ℂ
  | [], legs => weigh vertices legs
  | e :: rest, legs => ∑ bits : Bool × Bool, e.kind.weight bits * contract vertices rest (e.ends bits + legs)

variable {vs ws : List (Nat × Vertex)} {es fs : List Edge} {legs more : Legs}

theorem contract_vertices_perm (same : vs.Perm ws) : contract vs es legs = contract ws es legs := by
  induction es generalizing legs with
  | nil => exact (same.map _).prod_eq
  | cons e rest ih => simp only [contract, ih]

theorem contract_edges_perm (same : es.Perm fs) : contract vs es legs = contract vs fs legs := by
  induction same generalizing legs with
  | nil => rfl
  | cons e _ ih => simp only [contract, ih]
  | trans _ _ first second => rw [first, second]
  | swap e f rest =>
    simp only [contract, Finset.mul_sum]
    rw [Finset.sum_comm]
    refine Finset.sum_congr rfl fun c _ => Finset.sum_congr rfl fun b _ => ?_
    rw [add_left_comm]
    ring

theorem contract_perm (vertices : vs.Perm ws) (edges : es.Perm fs) : contract vs es legs = contract ws fs legs :=
  (contract_vertices_perm vertices).trans (contract_edges_perm edges)

def SameAt (vs : List (Nat × Vertex)) (legs more : Legs) : Prop :=
  ∀ entry ∈ vs, ∀ b, legs.count (entry.1, b) = more.count (entry.1, b)

theorem SameAt.add (extra : Legs) (same : SameAt vs legs more) : SameAt vs (extra + legs) (extra + more) := by
  intro entry present b
  rw [Multiset.count_add, Multiset.count_add, same entry present b]

theorem contract_same (same : SameAt vs legs more) : contract vs es legs = contract vs es more := by
  induction es generalizing legs more with
  | nil =>
    refine congrArg List.prod (List.map_congr_left fun entry present => ?_)
    rw [same entry present false, same entry present true]
  | cons e rest ih =>
    refine Finset.sum_congr rfl fun bits _ => ?_
    rw [ih (same.add _)]

def Apart (vs : List (Nat × Vertex)) (es : List Edge) : Prop :=
  ∀ e ∈ es, ∀ entry ∈ vs, entry.1 ≠ e.low ∧ entry.1 ≠ e.high

theorem Apart.sameAt {e : Edge} (apart : Apart vs (e :: es)) (bits : Bool × Bool) : SameAt vs (e.ends bits + legs) legs := by
  intro entry present b
  obtain ⟨low, high⟩ := apart e List.mem_cons_self entry present
  simp [Edge.ends, low, high]

theorem Apart.tail {e : Edge} (apart : Apart vs (e :: es)) : Apart vs es :=
  fun f present => apart f (List.mem_cons_of_mem _ present)

theorem count_one {u v : Nat} {p b : Bool} :
    Multiset.count (v, b) ({(u, p)} + legs) = (if u = v ∧ p = b then 1 else 0) + legs.count (v, b) := by
  simp only [Multiset.count_add, Multiset.count_singleton, Prod.mk.injEq, eq_comm (a := v), eq_comm (a := b)]

theorem count_pair {u w v : Nat} {p q b : Bool} : Multiset.count (v, b) ({(u, p), (w, q)} + legs) =
    (if u = v ∧ p = b then 1 else 0) + (if w = v ∧ q = b then 1 else 0) + legs.count (v, b) := by
  simp only [Multiset.count_add, Multiset.insert_eq_cons, Multiset.count_cons, Multiset.count_singleton, Prod.mk.injEq,
    eq_comm (a := v), eq_comm (a := b)]
  ring

theorem contract_append (left : Apart ws es) (right : Apart vs fs) :
    contract (vs ++ ws) (es ++ fs) legs = contract vs es legs * contract ws fs legs := by
  induction es generalizing legs with
  | cons e rest ih =>
    simp only [List.cons_append, contract, Finset.sum_mul]
    refine Finset.sum_congr rfl fun bits _ => ?_
    rw [ih left.tail, contract_same (left.sameAt bits), mul_assoc]
  | nil =>
    rw [List.nil_append]
    induction fs generalizing legs with
    | nil => simp [contract, weigh]
    | cons f rest ih =>
      simp only [contract, Finset.mul_sum]
      refine Finset.sum_congr rfl fun bits _ => ?_
      rw [ih right.tail]
      have away : contract vs [] (f.ends bits + legs) = contract vs [] legs := contract_same (right.sameAt bits)
      rw [away, contract]
      ring

theorem contract_cons {v : Nat} {x : Vertex} (apart : Apart [(v, x)] es) :
    contract ((v, x) :: vs) es legs = x.weight (legs.count (v, false)) (legs.count (v, true)) * contract vs es legs := by
  have split : contract ([(v, x)] ++ vs) ([] ++ es) legs = contract [(v, x)] [] legs * contract vs es legs :=
    contract_append nofun apart
  simpa [contract, weigh] using split

theorem contract_between (a b : Nat) (kind : EdgeKind) :
    contract vs (.between a b kind :: es) legs =
      ∑ bits : Bool × Bool, kind.weight bits * contract vs es ({(a, bits.1), (b, bits.2)} + legs) := by
  simp only [contract, Edge.ends, Edge.between]
  rcases Nat.le_total a b with order | order
  · rw [Nat.min_eq_left order, Nat.max_eq_right order]
  · rw [Nat.min_eq_right order, Nat.max_eq_left order, ← (Equiv.prodComm Bool Bool).sum_comp]
    refine Finset.sum_congr rfl fun bits _ => ?_
    rw [Equiv.prodComm_apply, kind.weight_swap, Prod.fst_swap, Prod.snd_swap, Multiset.pair_comm]

end Meaning

end ToffoliBench
