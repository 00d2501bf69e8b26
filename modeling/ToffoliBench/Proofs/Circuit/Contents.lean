import ToffoliBench.Proofs.Circuit.Calls
import ToffoliBench.Proofs.Diagram.Stock

namespace ToffoliBench

open Diagram Outcome

namespace Column

-- The vertices that a gate puts between the ends of its lines.
def spiders : Column → Nat
  | .not _ => 1
  | .cnot _ _ => 2
  | .toffoli controls _ => 4 * (controls.length + 1) + 2

-- The wires of a gate beyond one on each line.
def wires : Column → Nat
  | .not _ => 1
  | .cnot _ _ => 3
  | .toffoli controls _ => 5 * (controls.length + 1) + 1

def controlCount? : Column → Option Nat
  | .toffoli controls _ => some controls.length
  | _ => none

end Column

namespace Fragment

variable {n k t c : Nat} {length : Float} {spiderOn : Nat → Option Vertex} {d after : Diagram} {lines : List Line} {qs : List Nat}
  {controls : List Nat}

-- No part of a gadget, and none that has been resolved.
def Bare (x : Vertex) : Prop := x.marker ≠ some .starHelper ∧ x.kind ≠ .hBox ∧ x.phase ≠ .third

instance (x : Vertex) : Decidable (Bare x) := inferInstanceAs (Decidable (_ ∧ _ ∧ _))

-- One more element that passes.
theorem countP_or_eq {p : Nat → Bool} (once : qs.Nodup) (inside : t ∈ qs) (out : p t = false) :
    qs.countP (fun q => p q || q == t) = qs.countP p + 1 := by
  have split := List.perm_cons_erase inside
  have same : (qs.erase t).countP (fun q => p q || q == t) = (qs.erase t).countP p := by
    refine List.countP_congr fun q held => ?_
    have other : q ≠ t := (once.mem_erase_iff.mp held).1
    simp [other]
  rw [split.countP_eq, split.countP_eq p, List.countP_cons, List.countP_cons, same, out]
  simp

section

variable (laid : Laid length spiderOn empty d qs lines)
include laid

theorem Laid.bare (bare : ∀ q x, spiderOn q = some x → Bare x) :
    (∀ entry ∈ d.vertices, Bare entry.2) ∧ ∀ e ∈ d.edges, e.kind = .simple := by
  constructor
  · intro entry held
    obtain ⟨line, _, own⟩ := List.mem_flatMap.mp (laid.grown.vertices.mem_iff.mp held)
    have boundary : Bare .boundary := by decide
    unfold Line.vertices at own
    split at own
    · rename_i s x _ asked
      simp only [List.mem_cons, List.not_mem_nil, or_false] at own
      rcases own with rfl | rfl | rfl
      · exact boundary
      · exact boundary
      · exact bare _ x asked
    · simp only [List.mem_cons, List.not_mem_nil, or_false] at own
      rcases own with rfl | rfl <;> exact boundary
  · intro e held
    obtain ⟨line, _, own⟩ := List.mem_flatMap.mp (laid.grown.edges.mem_iff.mp held)
    unfold Line.wires at own
    split at own
    · obtain rfl := List.mem_singleton.mp own
      rfl
    · simp only [List.mem_cons, List.not_mem_nil, or_false] at own
      rcases own with rfl | rfl <;> rfl

theorem Laid.sizes : d.vertices.length = 2 * qs.length + qs.countP (fun q => (spiderOn q).isSome) ∧
    d.edges.length = qs.length + qs.countP fun q => (spiderOn q).isSome := by
  have some_ : qs.countP (fun q => (spiderOn q).isSome) = lines.countP (·.spider.isSome) := by
    rw [← laid.qubits, List.countP_map]
    exact List.countP_congr fun line known => by rw [Function.comp_apply, ← laid.fits line known]
  have each : ∀ ls : List Line, (∀ line ∈ ls, line.Fits spiderOn) →
      (ls.flatMap (·.vertices length spiderOn)).length = 2 * ls.length + ls.countP (·.spider.isSome) ∧
        (ls.flatMap (·.wires)).length = ls.length + ls.countP (·.spider.isSome) := by
    intro ls fits
    induction ls with
    | nil => exact ⟨rfl, rfl⟩
    | cons line rest ih =>
      obtain ⟨first, others⟩ := List.forall_mem_cons.mp fits
      obtain ⟨vertices, wires⟩ := ih others
      have own : (line.vertices length spiderOn).length = 2 + (if line.spider.isSome then 1 else 0) ∧
          line.wires.length = 1 + if line.spider.isSome then 1 else 0 := by
        unfold Line.Fits at first
        unfold Line.vertices Line.wires
        cases spider : line.spider with
        | none => exact ⟨rfl, rfl⟩
        | some s =>
          rw [spider] at first
          obtain ⟨x, asked⟩ := Option.isSome_iff_exists.mp first.symm
          simp [asked]
      rw [List.flatMap_cons, List.flatMap_cons, List.length_append, List.length_append, vertices, wires, own.1, own.2,
        List.countP_cons, List.length_cons]
      omega
  have size : lines.length = qs.length := by rw [← laid.qubits, List.length_map]
  obtain ⟨vertices, wires⟩ := each lines laid.fits
  rw [laid.grown.vertices.length_eq, laid.grown.edges.length_eq, some_, ← size]
  exact ⟨vertices, wires⟩

theorem Laid.stocked (bare : ∀ q x, spiderOn q = some x → Bare x) {spiders : Nat}
    (many : qs.countP (fun q => (spiderOn q).isSome) = spiders) : Stocked d (2 * qs.length + spiders) 0 (qs.length + spiders) := by
  obtain ⟨plain, simple⟩ := laid.bare bare
  obtain ⟨vertices, wires⟩ := laid.sizes
  have stock := Stock.bare plain simple
  rwa [vertices, wires, many] at stock

end

theorem identity_stocked (n : Nat) : Stocked (Diagram.identity n) (2 * n) 0 n := by
  have inner : ∀ (q : Nat) (x : Vertex), (none : Option Vertex) = some x → x.kind ≠ .boundary := by nofun
  have laid := register_laid inner n 1
  have zero : (List.range n).countP (fun _ => (none : Option Vertex).isSome) = 0 := List.countP_eq_zero.mpr fun _ _ => by simp
  have stocked := laid.stocked nofun zero
  rw [List.length_range] at stocked
  rw [identity_register]
  exact stocked

theorem count_range (inside : t < n) : (List.range n).countP (· == t) = 1 :=
  List.count_eq_one_of_mem List.nodup_range (List.mem_range.mpr inside)

theorem not_stocked (inside : t < n) : Stocked (not n t) (2 * n + 1) 0 (n + 1) := by
  have known : ∀ q x, notSpider t q = some x → x = Vertex.x.withPhase .pi := by
    intro q x asked
    unfold notSpider at asked
    split at asked <;> cases asked
    rfl
  have inner : ∀ q x, notSpider t q = some x → x.kind ≠ .boundary := fun q x asked => known q x asked ▸ by decide
  have laid := register_laid inner n 2
  have one : (List.range n).countP (fun q => (notSpider t q).isSome) = 1 :=
    (List.countP_congr fun q _ => by simp [notSpider]).trans (count_range inside)
  have stocked := laid.stocked (fun q x asked => known q x asked ▸ by decide) one
  rw [List.length_range] at stocked
  exact stocked

theorem cnot_stocked (controlInside : c < n) (targetInside : t < n) (different : c ≠ t) :
    Stocked (cnot n c t) (2 * n + 2) 0 (n + 3) := by
  have laid := register_laid (cnotSpider_inner c t) n 2
  have spiders : (fun q => if q = c then some Vertex.z else if q = t then some .x else none) = cnotSpider c t := rfl
  unfold cnot
  rw [spiders]
  generalize register n 2 (cnotSpider c t) = result at laid
  obtain ⟨d, lines⟩ := result
  dsimp only at laid ⊢
  rw [if_neg different]
  obtain ⟨_, _, _, z, _, zFound⟩ := cnot_spiders laid controlInside (.inl rfl)
  obtain ⟨_, _, _, x, _, xFound⟩ := cnot_spiders laid targetInside (.inr rfl)
  simp only [zFound, xFound]
  have bare : ∀ q x, cnotSpider c t q = some x → Bare x := by
    intro q x asked
    unfold cnotSpider at asked
    split at asked
    · cases asked
      decide
    · split at asked <;> cases asked
      decide
  have two : (List.range n).countP (fun q => (cnotSpider c t q).isSome) = 2 := by
    have target : (t == c) = false := by simpa using Ne.symm different
    have both := countP_or_eq (p := (· == c)) List.nodup_range (List.mem_range.mpr targetInside) target
    rw [count_range controlInside] at both
    refine (List.countP_congr fun q _ => ?_).trans both
    by_cases control : q = c <;> simp [cnotSpider, control]
  obtain ⟨plain, simple⟩ := laid.bare bare
  obtain ⟨vertices, wires⟩ := laid.sizes
  have linked : ∀ e ∈ (d.link z x .simple).edges, e.kind = .simple := by
    intro e held
    rcases List.mem_cons.mp ((link_edges ..).mem_iff.mp held) with rfl | old
    · rfl
    · exact simple e old
  have stock := Stock.bare plain linked
  rw [(link_edges ..).length_eq, List.length_cons, vertices, wires, two, List.length_range] at stock
  exact stock

-- The collector has no gadgets, and every input brings one vertex and one wire.
theorem addInputs_contents (count master last : Nat) (is : List Nat) (bare : ∀ entry ∈ d.vertices, Bare entry.2)
    (simple : ∀ e ∈ d.edges, e.kind = .simple) :
    (∀ entry ∈ (addInputs count master last d is).vertices, Bare entry.2) ∧
      (∀ e ∈ (addInputs count master last d is).edges, e.kind = .simple) ∧
      (addInputs count master last d is).vertices.length = d.vertices.length + is.length ∧
      (addInputs count master last d is).edges.length = d.edges.length + is.length := by
  induction is generalizing d with
  | nil => exact ⟨bare, simple, rfl, rfl⟩
  | cons i rest ih =>
    obtain ⟨x, kind, feed, step⟩ : ∃ x : Vertex, Bare x ∧ ∃ feed, addInputs count master last d (i :: rest) =
        addInputs count master last (((d.add x).link d.fresh feed .simple).within (d.inputs ++ [d.fresh]) d.outputs) rest :=
      ⟨Vertex.boundary.placed (i.toFloat - count.toFloat) 0, (by decide : Bare .boundary), _, rfl⟩
    have vertices := add_vertices d x
    have edges := link_edges (d.add x) d.fresh feed .simple
    obtain ⟨bares, simples, size, wires⟩ := ih (d := ((d.add x).link d.fresh feed .simple).within (d.inputs ++ [d.fresh]) d.outputs)
      (fun entry held => (List.mem_cons.mp (vertices.mem_iff.mp held)).elim (fun new => new ▸ kind) (bare entry))
      fun e held => (List.mem_cons.mp (edges.mem_iff.mp held)).elim (fun new => new ▸ rfl) (simple e)
    rw [step]
    refine ⟨bares, simples, size.trans ?_, wires.trans ?_⟩
    · rw [within_vertices, show ((d.add x).link d.fresh feed .simple).vertices = (d.add x).vertices from rfl, vertices.length_eq,
        List.length_cons, List.length_cons, Nat.add_right_comm, Nat.add_assoc]
    · rw [within_edges, edges.length_eq, List.length_cons, List.length_cons, Nat.add_right_comm, Nat.add_assoc]
      rfl

theorem collector_stocked (k : Nat) : Stocked (collector k) (2 + (k + 1)) 0 (1 + (k + 1)) := by
  obtain ⟨x, y, bare, made⟩ : ∃ x y : Vertex, (Bare x ∧ Bare y) ∧ collector k =
      addInputs (k + 1) 0 1 (((empty.add x).add y).link 1 0 .simple) (List.range (k + 1)) :=
    ⟨((Vertex.z.withPhase .pi).placed (-masterRow (k + 1)) 1).mark .potentialMaster, (Vertex.x.withPhase .pi).placed (-1) 1,
      (by decide : Bare ((Vertex.z.withPhase .pi).mark .potentialMaster) ∧ Bare (Vertex.x.withPhase .pi)), rfl⟩
  have vertices : (((empty.add x).add y).link 1 0 .simple).vertices.Perm [((empty.add x).fresh, y), (empty.fresh, x)] :=
    (add_vertices _ y).trans ((add_vertices empty x).cons _)
  have edges : (((empty.add x).add y).link 1 0 .simple).edges.Perm [.between 1 0 .simple] := link_edges ..
  have core : ∀ entry ∈ (((empty.add x).add y).link 1 0 .simple).vertices, Bare entry.2 := by
    intro entry held
    have listed := vertices.mem_iff.mp held
    simp only [List.mem_cons, List.not_mem_nil, or_false] at listed
    rcases listed with rfl | rfl
    · exact bare.2
    · exact bare.1
  have joined : ∀ e ∈ (((empty.add x).add y).link 1 0 .simple).edges, e.kind = .simple := fun e held =>
    List.mem_singleton.mp (edges.mem_iff.mp held) ▸ rfl
  obtain ⟨bares, simples, size, wires⟩ := addInputs_contents (k + 1) 0 1 (List.range (k + 1)) core joined
  rw [made]
  have stock := Stock.bare bares simples
  rwa [size, wires, vertices.length_eq, edges.length_eq, List.length_range] at stock

theorem closing_stocked {n k : Nat} (done : closing n k = .ok d) : Stocked d (2 + (k + 1) + 2 * n) 0 (1 + (k + 1) + n) := by
  have shape : closing n k = (collector k).tensor (Diagram.identity n) := rfl
  exact (collector_stocked k).tensor (collector_tidy k).1.toWellFormed (identity_realizes n).tidy.toWellFormed (identity_stocked n)
    (shape ▸ done)

theorem toffoliSpider_bare (controls : List Nat) (t : Nat) : ∀ q x, toffoliSpider controls t q = some x → Bare x := by
  intro q x asked
  unfold toffoliSpider at asked
  split at asked
  · cases asked
    decide
  · split at asked <;> cases asked
    decide

-- The register has no gadgets yet, and each leg brings one.
theorem Legged.stocked {stops : List Nat} {stop x : Nat} (legged : Legged controls n t d after lines stops stop x) (inside : t < n)
    (outside : t ∉ controls) : Stocked (legDiagram after lines stops stop) (2 * n + 5 * ((present controls n).length + 1))
      ((present controls n).length + 1) (n + 5 * ((present controls n).length + 1)) := by
  obtain ⟨laid, ⟨line, known, spider, _⟩, ⟨middle, legs, leg, rfl⟩, _⟩ := legged
  have bare := toffoliSpider_bare controls t
  have many : (List.range n).countP (fun q => (toffoliSpider controls t q).isSome) = (present controls n).length + 1 := by
    have all := countP_or_eq (p := (controls.contains ·)) List.nodup_range (List.mem_range.mpr inside) (by simpa using outside)
    rw [present, ← List.countP_eq_length_filter, ← all]
    refine List.countP_congr fun q _ => ?_
    by_cases control : q ∈ controls <;> simp [toffoliSpider, control]
  have register_ := laid.stocked bare many
  rw [List.length_range] at register_
  have plain : ∀ v, ¬(Helper d.vertices v ∨ Box d.vertices v) := by
    rintro v (⟨y, held, marked⟩ | ⟨y, held, box⟩)
    · exact ((laid.bare bare).1 _ held).1 marked
    · exact ((laid.bare bare).1 _ held).2.1 box
  have hung := legs.stock _ _ _ register_ fun s _ => plain s
  rw [controlSpiders_length laid] at hung
  obtain ⟨new, es, more⟩ := legs.more
  have live := laid.spider_live known spider
  have still : ¬(Helper middle.vertices x ∨ Box middle.vertices x) := by
    rw [show Helper middle.vertices x ↔ Helper d.vertices x from more.stands live,
      show Box middle.vertices x ↔ Box d.vertices x from more.stands live]
    exact plain x
  have whole := leg.stocked more.sound (more.mem_ids.mpr (.inl live)) (by decide) still hung
  change Stocked after _ _ _
  convert whole using 1 <;> omega

-- Legs and collector share one wire for every leg and every line.
theorem controlledNot_stocked (inside : t < n) (outside : t ∉ controls) (done : controlledNot n controls t = .ok d) :
    Stocked d (2 * n + (4 * ((present controls n).length + 1) + 2)) ((present controls n).length + 1)
      (n + (5 * ((present controls n).length + 1) + 1)) := by
  obtain ⟨_, after, lines, stops, stop, _, closed, legged, size, _, closing, composed⟩ := controlledNot_parts inside outside done
  obtain ⟨_, total, tidy, _⟩ := closing_total n (present controls n).length
  obtain rfl := Except.ok.inj (total.symm.trans closing)
  have outputs : (legDiagram after lines stops stop).outputs.length = (present controls n).length + 1 + n := by
    simp [legDiagram, legged.laid.lines_length, size, Nat.add_right_comm, Nat.add_assoc]
  exact (legged.stocked inside outside).compose legged.tidy.toWellFormed tidy.toWellFormed (closing_stocked closing) composed
    (by omega) (by omega)

theorem ofColumn_stocked {column : Column} (done : ofColumn n column = .ok d) :
    Stocked d (2 * n + column.spiders) column.boxes (n + column.wires) := by
  obtain ⟨valid, made⟩ := check_ok.mp done
  have sits := Column.validate_ok.mp valid
  cases column with
  | not q =>
    obtain rfl := pure_ok.mp made
    exact not_stocked sits
  | cnot c t =>
    obtain rfl := pure_ok.mp made
    obtain ⟨control, target, different⟩ := sits
    exact cnot_stocked control target different
  | toffoli controls t =>
    obtain ⟨target, _, each, once⟩ := sits
    have stocked := controlledNot_stocked target (fun held => (each t held).2 rfl) (mapError_ok.mp made)
    rwa [present_length (fun c held => (each c held).1) once] at stocked

end Fragment

namespace Builder
open Fragment

variable {n boxes missing size stars count : Nat} {U : Matrix (Fin n → Bool) (Fin n → Bool) ℂ} {d after : Diagram}

theorem apply_stocked (before : Realizes d n boxes missing U) (stocked : Stocked d (2 * n + size) stars (n + count)) {column : Column}
    (done : apply ⟨n, d⟩ column = .ok ⟨n, after⟩) :
    Stocked after (2 * n + (size + column.spiders)) (stars + column.boxes) (n + (count + column.wires)) := by
  obtain ⟨fragment, made, composed⟩ := apply_ok.mp done
  have part : Stocked fragment (2 * n + column.spiders) column.boxes (n + column.wires) := ofColumn_stocked made
  have outputs := before.outputs
  exact stocked.compose before.tidy.toWellFormed (ofColumn_wellFormed made) part composed (by omega) (by omega)

theorem applyAll_stocked {columns : List Column} (before : Realizes d n boxes missing U)
    (stocked : Stocked d (2 * n + size) stars (n + count)) (valid : ∀ column ∈ columns, column.validate n = .ok ())
    (few : boxes + (columns.map Column.boxes).sum ≤ 1073741824) (done : applyAll ⟨n, d⟩ columns = .ok ⟨n, after⟩) :
    Stocked after (2 * n + (size + (columns.map Column.spiders).sum)) (stars + (columns.map Column.boxes).sum)
      (n + (count + (columns.map Column.wires).sum)) := by
  induction columns generalizing d boxes missing U size stars count with
  | nil =>
    obtain ⟨_, rfl⟩ := Builder.mk.inj (Except.ok.inj done)
    exact stocked
  | cons column rest ih =>
    obtain ⟨first, others⟩ := List.forall_mem_cons.mp valid
    rw [List.map_cons, List.sum_cons, ← Nat.add_assoc] at few
    obtain ⟨middle, stepped, realizes⟩ := apply_realizes before first (by omega)
    obtain ⟨_, again, later⟩ := bind_ok.mp done
    obtain rfl := Except.ok.inj (stepped.symm.trans again)
    have whole := ih realizes (apply_stocked before stocked stepped) others few later
    simp only [List.map_cons, List.sum_cons, ← Nat.add_assoc] at whole ⊢
    exact whole

end Builder

namespace Sequence

variable {s : Sequence} {d : Diagram}

theorem Pushed.stocked (pushed : s.Pushed) (few : s.boxes ≤ 1073741824) (made : s.diagram = .ok d) :
    Stocked d (2 * s.qubits + (s.columns.map Column.spiders).sum) s.boxes (s.qubits + (s.columns.map Column.wires).sum) := by
  have valid := pushed_iff.mp pushed
  have room : 0 + (s.columns.map Column.boxes).sum ≤ 1073741824 := by simpa [boxes] using few
  obtain ⟨after, ran, _⟩ := Builder.applyAll_realizes (Fragment.identity_realizes s.qubits) valid room
  have start : Stocked (Diagram.identity s.qubits) (2 * s.qubits + 0) 0 (s.qubits + 0) := Fragment.identity_stocked s.qubits
  have whole := Builder.applyAll_stocked (Fragment.identity_realizes s.qubits) start valid room ran
  rw [diagram, Builder.start, ran] at made
  obtain rfl := Except.ok.inj made
  rwa [Nat.zero_add, Nat.zero_add, Nat.zero_add] at whole

-- How many controls the Toffoli gates have, in order.
def controlCounts (s : Sequence) : List Nat := s.columns.filterMap Column.controlCount?

-- Summed up by kind; one vertex and one wire of each gadget are gone when it is resolved.
theorem contents_sum (s : Sequence) : s.boxes = (s.controlCounts.map (· + 1)).sum ∧
    (s.columns.map Column.spiders).sum =
      s.count .not + 2 * s.count .cnot + (s.controlCounts.map fun n => 3 * (n + 1) + 2).sum + s.boxes ∧
    (s.columns.map Column.wires).sum =
      s.count .not + 3 * s.count .cnot + (s.controlCounts.map fun n => 4 * (n + 1) + 1).sum + s.boxes := by
  obtain ⟨qubits, columns⟩ := s
  simp only [boxes, controlCounts, count]
  induction columns with
  | nil => exact ⟨rfl, rfl, rfl⟩
  | cons column rest ih =>
    obtain ⟨boxes, spiders, wires⟩ := ih
    have not_ : ∀ q, (Column.not q).kind = .not := fun _ => rfl
    have cnot_ : ∀ c t, (Column.cnot c t).kind = .cnot := fun _ _ => rfl
    have toffoli_ : ∀ controls t, (Column.toffoli controls t).kind = .toffoli := fun _ _ => rfl
    cases column <;>
      simp only [List.map_cons, List.sum_cons, List.filterMap_cons, List.countP_cons, Column.boxes, Column.spiders, Column.wires,
        Column.controlCount?, not_, cnot_, toffoli_, beq_iff_eq, reduceCtorEq, if_true, if_false] <;> omega

end Sequence

end ToffoliBench
