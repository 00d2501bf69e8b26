import ToffoliBench.Proofs.Diagram.Growth
import ToffoliBench.Proofs.Meaning.Diagram

namespace ToffoliBench

namespace Meaning

variable {vs : List (Nat × Vertex)} {es : List Edge} {legs : Legs} {v w : Nat} {i : Bool}

theorem between_comm (a b : Nat) (kind : EdgeKind) : Edge.between a b kind = .between b a kind := by
  simp only [Edge.between, Nat.min_comm, Nat.max_comm]

theorem contract_simple (a b : Nat) :
    contract vs (.between a b .simple :: es) legs = ∑ c : Bool, contract vs es ({(a, c), (b, c)} + legs) := by
  rw [contract_between, Fintype.sum_prod_type]
  simp [EdgeKind.weight]

-- A leg at a vertex that is not listed does not count.
theorem contract_foreign {b c : Bool} (absent : v ∉ vs.map Prod.fst) :
    contract vs es ({(v, b), (w, c)} + legs) = contract vs es ({(w, c)} + legs) := by
  refine contract_same fun entry present e => ?_
  have away : v ≠ entry.1 := fun same => absent (same ▸ List.mem_map_of_mem present)
  rw [count_pair, count_one, if_neg (fun met => away met.1), zero_add]

-- One leg stands at the vertex.
def Holds (legs : Legs) (v : Nat) (i : Bool) : Prop := ∀ b, legs.count (v, b) = if i = b then 1 else 0

theorem holds_of_mem {pairs : List (Nat × Bool)} (once : (pairs.map Prod.fst).Nodup) (present : (v, i) ∈ pairs) :
    Holds ↑pairs v i := by
  intro b
  split
  · rename_i same
    exact Multiset.count_eq_one_of_mem (Multiset.coe_nodup.mpr once.of_map) (same ▸ present)
  · rename_i other
    refine Multiset.count_eq_zero.mpr fun again => other ?_
    exact congrArg Prod.snd (List.inj_on_of_nodup_map once present again rfl)

theorem Holds.foreign {c : Bool} (holds : Holds legs v i) (different : w ≠ v) : Holds ({(w, c)} + legs) v i := by
  intro b
  rw [count_one, if_neg (fun met => different met.1), zero_add, holds b]

theorem Holds.foreign_pair {u : Nat} {b c : Bool} (holds : Holds legs v i) (one : u ≠ v) (two : w ≠ v) :
    Holds ({(u, b), (w, c)} + legs) v i := by
  intro e
  rw [count_pair, if_neg (fun met => one met.1), if_neg (fun met => two met.1), zero_add, zero_add, holds e]

theorem Holds.beside {more : Legs} (holds : Holds legs v i) (bare : Diagram.Bare more v) : Holds (more + legs) v i := by
  intro b
  rw [Multiset.count_add, bare b, zero_add, holds b]

theorem apart_nil {x : Vertex} : Apart [(v, x)] [] := nofun

theorem apart_between {x : Vertex} {a b : Nat} {kind : EdgeKind} (left : v ≠ a) (right : v ≠ b) (rest : Apart [(v, x)] es) :
    Apart [(v, x)] (.between a b kind :: es) := by
  intro e present entry listed
  obtain rfl := List.mem_singleton.mp listed
  rcases List.mem_cons.mp present with rfl | later
  · simp only [Edge.between]
    omega
  · exact rest e later _ List.mem_cons_self

theorem contract_boundary {x : Vertex} (bound : x.kind = .boundary) (holds : Holds legs v i) (different : v ≠ w)
    (apart : Apart [(v, x)] es) (once : v ∉ vs.map Prod.fst) :
    contract ((v, x) :: vs) (.between v w .simple :: es) legs = contract vs es ({(w, i)} + legs) := by
  have pinned : ∀ c, contract ((v, x) :: vs) es ({(v, c), (w, c)} + legs) =
      if c = i then contract vs es ({(w, i)} + legs) else 0 := by
    intro c
    rw [contract_cons apart]
    simp only [count_pair, different.symm, holds _, true_and, false_and, if_false, add_zero]
    rw [Diagram.boundary_weight bound]
    split
    · rename_i same
      rw [one_mul, contract_foreign once, same]
    · rw [zero_mul]
  rw [contract_simple]
  simp only [pinned, Finset.sum_ite_eq', Finset.mem_univ, if_true]

end Meaning

namespace Diagram
open Meaning

variable {d after : Diagram} {new : List (Nat × Vertex)} {es : List Edge} {legs : Legs} {v w : Nat} {i : Bool}

theorem openLegs_bare {out inp : List Bool} (outside : v ∉ d.inputs ++ d.outputs) : Bare (d.openLegs out inp) v := by
  rw [openLegs, ← Multiset.coe_add]
  rw [List.mem_append, not_or] at outside
  exact bare_add (bare_zip outside.1) (bare_zip outside.2)

theorem WellFormed.bare (formed : d.WellFormed) {out inp : List Bool} (inside : ¬d.IsBoundary v) : Bare (d.openLegs out inp) v :=
  openLegs_bare fun listed => inside ((formed.covered v).mp listed)

theorem WellFormed.holds (formed : d.WellFormed) {out inp : List Bool} (ins : inp.length = d.inputs.length)
    (outs : out.length = d.outputs.length) (present : (v, i) ∈ d.inputs.zip inp ++ d.outputs.zip out) :
    Holds (d.openLegs out inp) v i := by
  refine holds_of_mem ?_ present
  rw [List.map_append, List.map_fst_zip (Nat.le_of_eq ins.symm), List.map_fst_zip (Nat.le_of_eq outs.symm)]
  exact formed.distinct

-- The wires join listed vertices.
def Own (new : List (Nat × Vertex)) (es : List Edge) : Prop := ∀ e ∈ es, e.low ∈ new.map Prod.fst ∧ e.high ∈ new.map Prod.fst

theorem own_nil : Own new [] := nofun

theorem own_between {a b : Nat} {kind : EdgeKind} (left : a ∈ new.map Prod.fst) (right : b ∈ new.map Prod.fst)
    (rest : Own new es) : Own new (.between a b kind :: es) := by
  intro e present
  rcases List.mem_cons.mp present with rfl | later
  · exact Edge.between_both left right kind
  · exact rest e later

theorem Own.apart {vs : List (Nat × Vertex)} (own : Own new es) (away : ∀ v ∈ vs.map Prod.fst, v ∉ new.map Prod.fst) :
    Meaning.Apart vs es := by
  intro e present entry listed
  obtain ⟨low, high⟩ := own e present
  have outside := away entry.1 (List.mem_map_of_mem listed)
  constructor
  · intro same
    exact outside (same ▸ low)
  · intro same
    exact outside (same ▸ high)

section

variable (grown : Grown d after new es)
include grown

theorem Grown.contract_all : contract after.vertices after.edges legs = contract (d.vertices ++ new) (d.edges ++ es) legs :=
  contract_perm grown.vertices grown.edges

theorem Grown.old_apart (sound : d.Sound) : Meaning.Apart new d.edges := by
  intro e present entry fresh
  obtain ⟨low, high⟩ := sound.live e present
  have held := List.mem_map_of_mem (f := Prod.fst) fresh
  constructor
  · intro same
    exact grown.apart low (same ▸ held)
  · intro same
    exact grown.apart high (same ▸ held)

theorem Grown.own_apart {fs : List Edge} (own : Own new fs) : Meaning.Apart d.vertices fs :=
  own.apart fun _ old => grown.apart old

end

-- A part that hangs on one vertex of the diagram by one wire.
theorem Grown.hung (grown : Grown d after new (es ++ [.between v w .simple])) (sound : d.Sound) (own : Own new es)
    (old : v ∈ d.ids) (fresh : w ∈ new.map Prod.fst) : contract after.vertices after.edges legs =
      ∑ c : Bool, contract d.vertices d.edges ({(v, c)} + legs) * contract new es ({(w, c)} + legs) := by
  have front : (d.edges ++ (es ++ [Edge.between v w .simple])).Perm (.between v w .simple :: (d.edges ++ es)) := by
    rw [← List.append_assoc]
    exact List.perm_append_singleton _ _
  rw [grown.contract_all, contract_edges_perm front, contract_simple]
  refine Finset.sum_congr rfl fun c _ => ?_
  rw [contract_append (grown.old_apart sound) (grown.own_apart own)]
  rw [contract_foreign (grown.apart old), Multiset.pair_comm, contract_foreign fun held => grown.apart held fresh]

end Diagram

end ToffoliBench
