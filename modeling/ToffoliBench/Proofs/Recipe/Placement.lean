import ToffoliBench.Proofs.Circuit.Validity
import ToffoliBench.Proofs.Random.Subsets
import ToffoliBench.Recipe.Benchmark

namespace ToffoliBench

open Outcome

namespace CircuitDraw

variable {α β : Type} {P : α → Prop} {Q : β → Prop}

-- Every source makes the draw succeed, with something of this kind.
def Delivers (m : CircuitDraw α) (P : α → Prop) : Prop := Draw.Always m.run fun r => ∃ a, r = .ok a ∧ P a

theorem Delivers.pure {a : α} (holds : P a) : Delivers (pure a) P := fun _ => ⟨a, rfl, holds⟩

theorem Delivers.bind {m : CircuitDraw α} {f : α → CircuitDraw β} (first : Delivers m P)
    (rest : ∀ a, P a → Delivers (f a) Q) : Delivers (m >>= f) Q := by
  unfold Delivers
  rw [ExceptT.run_bind]
  refine Draw.Always.bind first fun r found => ?_
  obtain ⟨a, rfl, holds⟩ := found
  exact rest a holds

theorem Delivers.draw {m : Draw α} (always : Draw.Always m P) : Delivers (liftM m) P :=
  Draw.Always.bind always fun a holds => .pure ⟨a, rfl, holds⟩

theorem Delivers.settled {x : Except CircuitError α} {a : α} (done : x = .ok a) (holds : P a) : Delivers (liftM x) P := by
  subst done
  exact fun _ => ⟨a, rfl, holds⟩

end CircuitDraw

namespace Recipe

open CircuitDraw

variable {r : Recipe} {q t : Nat} {s : Sequence}

theorem mem_register : q ∈ r.register ↔ q < r.qubits := List.mem_range

theorem mem_outside : q ∈ r.outside ↔ q < r.qubits ∧ r.targetRange.contains q = false := by
  simp [outside, List.mem_filter, mem_register]

theorem mem_notPool : q ∈ r.notPool ↔ q < r.qubits ∧ (r.allowNotInTargetRange = false → r.targetRange.contains q = false) := by
  unfold notPool
  split
  · simp_all [mem_register]
  · simp_all [mem_outside]

theorem mem_cnotPool : q ∈ r.cnotPool ↔ q < r.qubits ∧ (r.allowCnotInTargetRange = false → r.targetRange.contains q = false) := by
  unfold cnotPool
  split
  · simp_all [mem_register]
  · simp_all [mem_outside]

theorem mem_targets : t ∈ r.targetRange.toList ↔ r.targetRange.contains t = true := by
  simp only [QubitRange.toList, QubitRange.contains, List.mem_range'_1, Bool.and_eq_true, decide_eq_true_iff]
  omega

-- Without the flag the controls miss the target because they miss its whole range.
theorem mem_controlPool (target : r.targetRange.contains t = true) : q ∈ r.controlPool t ↔
    q < r.qubits ∧ q ≠ t ∧ (r.allowControlInTargetRange = false → r.targetRange.contains q = false) := by
  unfold controlPool
  split
  · rename_i allowed
    simp [List.mem_filter, mem_register, allowed]
  · rename_i refused
    rw [mem_outside]
    constructor
    · rintro ⟨inside, out⟩
      refine ⟨inside, ?_, fun _ => out⟩
      rintro rfl
      rw [target] at out
      cases out
    · rintro ⟨inside, _, out⟩
      exact ⟨inside, out (by simpa using refused)⟩

theorem register_nodup (r : Recipe) : r.register.Nodup := List.nodup_range

theorem cnotPool_nodup (r : Recipe) : r.cnotPool.Nodup := by
  unfold cnotPool
  split
  · exact r.register_nodup
  · exact r.register_nodup.filter _

theorem controlPool_nodup (r : Recipe) (t : Nat) : (r.controlPool t).Nodup := by
  unfold controlPool
  split
  · exact r.register_nodup.filter _
  · exact r.register_nodup.filter _

-- Taking one element out leaves one less.
theorem length_filter_ne {xs : List Nat} (once : xs.Nodup) (held : q ∈ xs) : (xs.filter (· != q)).length = xs.length - 1 := by
  rw [← once.erase_eq_filter, List.length_erase_of_mem held]

-- Where a recipe lets a gate sit.
def Allows (r : Recipe) : Column → Prop
  | .not q => r.allowNotInTargetRange = false → r.targetRange.contains q = false
  | .cnot c t => c ≠ t ∧
      (r.allowCnotInTargetRange = false → r.targetRange.contains c = false ∧ r.targetRange.contains t = false)
  | .toffoli controls t => r.targetRange.contains t = true ∧ controls.Pairwise (· < ·) ∧ 2 ≤ controls.length ∧ t ∉ controls ∧
      (r.allowControlInTargetRange = false → ∀ c ∈ controls, r.targetRange.contains c = false)

-- What a recipe asks of its circuits.
structure Follows (r : Recipe) (s : Sequence) : Prop where
  qubits : s.qubits = r.qubits
  nots : s.count .not = r.nots
  cnots : s.count .cnot = r.cnots
  toffolis : s.count .toffoli = r.toffolis
  size : s.columns.length = r.nots + r.cnots + r.toffolis
  valid : ∀ column ∈ s.columns, column.validate r.qubits = .ok ()
  placed : ∀ column ∈ s.columns, r.Allows column

-- There are qubits for every kind of gate that is asked for.
structure Feasible (r : Recipe) : Prop where
  range : r.targetRange.start ≤ r.targetRange.stop ∧ r.targetRange.stop ≤ r.qubits
  nots : 0 < r.nots → 1 ≤ r.notPool.length
  cnots : 0 < r.cnots → 2 ≤ r.cnotPool.length
  targets : 0 < r.toffolis → 1 ≤ r.targetRange.stop - r.targetRange.start
  controls : 0 < r.toffolis → 2 ≤ r.controlsLeft

theorem checkPool_ok {gate : GateKind} {use : PoolUse} {needed available : Nat} :
    checkPool gate use needed available = .ok () ↔ needed ≤ available := by
  unfold checkPool
  split
  · rename_i short
    simp [Nat.not_le.mpr short]
  · rename_i enough
    simp [Nat.not_lt.mp enough]

-- A check that is made only where it is asked for.
theorem guarded_ok {p : Prop} [Decidable p] {x : Except CircuitError Unit} {rest : Unit → Except CircuitError Unit} :
    (if p then x >>= rest else rest ()) = .ok () ↔ (p → x = .ok ()) ∧ rest () = .ok () := by
  by_cases asked : p
  · simp [asked, check_ok (x := x) (y := rest ())]
  · simp [asked]

theorem validate_ok : r.validate = .ok () ↔ r.Feasible := by
  unfold validate
  by_cases bad : r.targetRange.stop < r.targetRange.start ∨ r.qubits < r.targetRange.stop
  · rw [if_pos bad]
    constructor
    · nofun
    · intro feasible
      have range := feasible.range
      omega
  · rw [if_neg bad]
    dsimp only
    rw [guarded_ok, guarded_ok, checkPool_ok, checkPool_ok]
    by_cases some_ : 0 < r.toffolis
    · rw [if_pos some_, check_ok, checkPool_ok, checkPool_ok]
      constructor
      · rintro ⟨nots, cnots, targets, controls⟩
        exact ⟨by omega, nots, cnots, fun _ => targets, fun _ => controls⟩
      · intro feasible
        exact ⟨feasible.nots, feasible.cnots, feasible.targets some_, feasible.controls some_⟩
    · rw [if_neg some_]
      constructor
      · rintro ⟨nots, cnots, _⟩
        exact ⟨by omega, nots, cnots, fun asked => absurd asked some_, fun asked => absurd asked some_⟩
      · intro feasible
        exact ⟨feasible.nots, feasible.cnots, rfl⟩

theorem controlPool_size (inside : r.targetRange.stop ≤ r.qubits) (target : r.targetRange.contains t = true) :
    (r.controlPool t).length = if r.allowControlInTargetRange then r.qubits - 1 else r.outside.length := by
  simp only [QubitRange.contains, Bool.and_eq_true, decide_eq_true_iff] at target
  unfold controlPool
  split
  · rw [length_filter_ne r.register_nodup (mem_register.mpr (by omega)), register, List.length_range]
  · rfl

-- All targets leave as many controls as the one that was checked.
theorem controlPool_length (inside : r.targetRange.stop ≤ r.qubits) (target : r.targetRange.contains t = true) :
    (r.controlPool t).length = r.controlsLeft := by
  unfold controlsLeft
  cases listed : r.targetRange.toList with
  | nil => exact absurd (mem_targets.mpr target) (by simp [listed])
  | cons first rest =>
    have held : r.targetRange.contains first = true := mem_targets.mp (by simp [listed])
    dsimp only
    rw [controlPool_size inside target, controlPool_size inside held]

theorem pick_mem {pool : List Nat} (some_ : pool ≠ []) (gate : GateKind) (use : PoolUse) : Delivers (pick pool gate use) (· ∈ pool) := by
  refine .bind (.draw (Draw.choose_mem some_)) fun chosen found => ?_
  obtain ⟨q, held, rfl⟩ := found
  exact .pure held

-- One drawn gate fits the recipe and the register.
def Fits (r : Recipe) (kind : GateKind) (column : Column) : Prop :=
  column.kind = kind ∧ column.Sits r.qubits ∧ r.Allows column

theorem randomNot_fits (enough : 1 ≤ r.notPool.length) : Delivers r.randomNot (r.Fits .not) := by
  refine .bind (pick_mem (List.ne_nil_of_length_pos enough) _ _) fun q held => .pure ?_
  obtain ⟨inside, out⟩ := mem_notPool.mp held
  exact ⟨rfl, inside, out⟩

theorem randomCnot_fits (enough : 2 ≤ r.cnotPool.length) : Delivers r.randomCnot (r.Fits .cnot) := by
  have first : r.cnotPool ≠ [] := List.ne_nil_of_length_pos (by omega)
  refine .bind (pick_mem first _ _) fun c control => ?_
  have left := length_filter_ne r.cnotPool_nodup control
  have second : r.cnotPool.filter (· != c) ≠ [] := List.ne_nil_of_length_pos (by omega)
  refine .bind (pick_mem second _ _) fun t target => .pure ?_
  obtain ⟨held, other⟩ := List.mem_filter.mp target
  have different : c ≠ t := fun same => by simp [same] at other
  obtain ⟨controlInside, controlOut⟩ := mem_cnotPool.mp control
  obtain ⟨targetInside, targetOut⟩ := mem_cnotPool.mp held
  exact ⟨rfl, ⟨controlInside, targetInside, different⟩, different, fun refused => ⟨controlOut refused, targetOut refused⟩⟩

theorem sorted_strictly {controls : List Nat} (once : controls.Nodup) :
    (controls.mergeSort fun a b => a ≤ b).Pairwise (· < ·) := by
  have ordered := @List.pairwise_mergeSort Nat (fun a b => decide (a ≤ b)) (by simp; omega) (by simp; omega) controls
  have apart := (List.mergeSort_perm controls fun a b => decide (a ≤ b)).nodup_iff.mpr once
  refine (ordered.and apart).imp fun {a b} both => ?_
  have order : a ≤ b := by simpa using both.1
  exact Nat.lt_of_le_of_ne order both.2

theorem randomToffoli_fits (feasible : r.Feasible) (asked : 0 < r.toffolis) : Delivers r.randomToffoli (r.Fits .toffoli) := by
  have some_ : r.targetRange.toList ≠ [] := by
    refine List.ne_nil_of_length_pos ?_
    rw [QubitRange.toList, List.length_range']
    exact feasible.targets asked
  refine .bind (pick_mem some_ _ _) fun t listed => ?_
  have target := mem_targets.mp listed
  have enough : 2 ≤ (r.controlPool t).length := controlPool_length feasible.range.2 target ▸ feasible.controls asked
  rw [if_neg (Nat.not_lt.mpr enough)]
  refine .bind (.draw (Draw.between_range _ enough)) fun count bounds => ?_
  refine .bind (.draw (Draw.subset_drawn (r.controlPool_nodup t) bounds.2)) fun controls drawn => .pure ?_
  obtain ⟨once, fromPool, size⟩ := drawn
  have same := List.mergeSort_perm controls fun a b => decide (a ≤ b)
  have each : ∀ c ∈ controls.mergeSort fun a b => decide (a ≤ b), c < r.qubits ∧ c ≠ t ∧
      (r.allowControlInTargetRange = false → r.targetRange.contains c = false) := fun c held =>
    (mem_controlPool target).mp (fromPool c (same.mem_iff.mp held))
  have many : 2 ≤ (controls.mergeSort fun a b => decide (a ≤ b)).length := by rw [same.length_eq, size]; exact bounds.1
  have inside : t < r.qubits := by
    have range := feasible.range
    simp only [QubitRange.contains, Bool.and_eq_true, decide_eq_true_iff] at target
    omega
  refine ⟨rfl, ⟨inside, many, fun c held => ⟨(each c held).1, (each c held).2.1⟩, same.nodup_iff.mpr once⟩, target,
    sorted_strictly once, many, fun held => (each t held).2.1 rfl, fun refused c held => (each c held).2.2 refused⟩

theorem mem_kinds {kind : GateKind} : kind ∈ r.kinds ↔
    match kind with
    | .not => 0 < r.nots
    | .cnot => 0 < r.cnots
    | .toffoli => 0 < r.toffolis := by
  cases kind <;> simp [kinds, List.mem_replicate, Nat.pos_iff_ne_zero]

theorem randomColumn_fits (feasible : r.Feasible) {kind : GateKind} (asked : kind ∈ r.kinds) :
    Delivers (r.randomColumn kind) (r.Fits kind) := by
  have some_ := mem_kinds.mp asked
  cases kind with
  | not => exact randomNot_fits (feasible.nots some_)
  | cnot => exact randomCnot_fits (feasible.cnots some_)
  | toffoli => exact randomToffoli_fits feasible some_

theorem randomColumns_fit (feasible : r.Feasible) {kinds : List GateKind} (asked : ∀ kind ∈ kinds, kind ∈ r.kinds)
    (qubits : s.qubits = r.qubits) : Delivers (r.randomColumns s kinds) fun after =>
      after.qubits = r.qubits ∧ ∃ columns, after.columns = s.columns ++ columns ∧ List.Forall₂ r.Fits kinds columns := by
  induction kinds generalizing s with
  | nil => exact .pure ⟨qubits, [], (List.append_nil _).symm, .nil⟩
  | cons kind rest ih =>
    obtain ⟨first, others⟩ := List.forall_mem_cons.mp asked
    refine .bind (randomColumn_fits feasible first) fun column fits => ?_
    have pushed : s.push column = .ok { s with columns := s.columns ++ [column] } :=
      check_ok.mpr ⟨Column.validate_ok.mpr (qubits ▸ fits.2.1), rfl⟩
    refine .bind (.settled pushed rfl) fun middle same => ?_
    subst same
    refine Draw.Always.mono (ih others qubits) fun outcome found => ?_
    obtain ⟨after, done, kept, columns, list, all⟩ := found
    exact ⟨after, done, kept, column :: columns, by simp [list], .cons fits all⟩

theorem kinds_count (r : Recipe) : r.kinds.count .not = r.nots ∧ r.kinds.count .cnot = r.cnots ∧
    r.kinds.count .toffoli = r.toffolis := by
  simp [kinds, List.count_replicate]

theorem fits_kinds {kinds : List GateKind} {columns : List Column} (all : List.Forall₂ r.Fits kinds columns) :
    columns.map (·.kind) = kinds := by
  induction all with
  | nil => rfl
  | cons fits _ ih => rw [List.map_cons, fits.1, ih]

theorem fits_each {kinds : List GateKind} {columns : List Column} (all : List.Forall₂ r.Fits kinds columns) :
    ∀ column ∈ columns, column.Sits r.qubits ∧ r.Allows column := by
  induction all with
  | nil => nofun
  | cons fits _ ih => exact List.forall_mem_cons.mpr ⟨fits.2, ih⟩

theorem follows_of_fits {kinds : List GateKind} {columns : List Column} (same : kinds.Perm r.kinds)
    (all : List.Forall₂ r.Fits kinds columns) : r.Follows ⟨r.qubits, columns⟩ := by
  have kind : columns.map (·.kind) = kinds := fits_kinds all
  have counts : ∀ gate, Sequence.count ⟨r.qubits, columns⟩ gate = r.kinds.count gate := by
    intro gate
    rw [← same.count_eq, ← kind, List.count, List.countP_map]
    rfl
  obtain ⟨nots, cnots, toffolis⟩ := r.kinds_count
  refine ⟨rfl, (counts _).trans nots, (counts _).trans cnots, (counts _).trans toffolis, ?_, ?_, ?_⟩
  · rw [← all.length_eq, same.length_eq]
    simp [Recipe.kinds, Nat.add_assoc]
  · exact fun column held => Column.validate_ok.mpr (fits_each all column held).1
  · exact fun column held => (fits_each all column held).2

-- A recipe's circuit is there exactly when the recipe validates, and then follows it.
structure Drawn (r : Recipe) (outcome : Except CircuitError Sequence) : Prop where
  accepted : (∃ s, outcome = .ok s) ↔ r.validate = .ok ()
  refused : ∀ e, r.validate = .error e → outcome = .error e
  follows : ∀ s, outcome = .ok s → r.Follows s

theorem generateFrom_drawn (r : Recipe) (source : Source) : r.Drawn (r.generateFrom source) := by
  cases checked : r.validate with
  | error e =>
    have stopped : r.generateFrom source = .error e := by
      rw [generateFrom, checked]
      rfl
    refine ⟨?_, fun _ same => ?_, ?_⟩
    · simp [stopped, checked]
    · exact stopped.trans (congrArg Except.error (Except.error.inj (checked.symm.trans same)))
    · simp [stopped]
  | ok _ =>
    have feasible := validate_ok.mp checked
    have drawn : Delivers (do r.randomColumns { qubits := r.qubits } (← Draw.shuffle r.kinds)) r.Follows := by
      refine .bind (.draw (Draw.shuffle_perm r.kinds)) fun shuffled same => ?_
      refine Draw.Always.mono (randomColumns_fit feasible (fun kind held => same.mem_iff.mp held) rfl) fun outcome found => ?_
      obtain ⟨⟨qubits, columns⟩, done, rfl, drawn, list, all⟩ := found
      obtain rfl : columns = drawn := list
      exact ⟨_, done, follows_of_fits same all⟩
    obtain ⟨s, done, follows⟩ := drawn source
    have made : r.generateFrom source = .ok s := by
      rw [generateFrom, checked]
      exact done
    refine ⟨?_, ?_, fun other same => ?_⟩
    · simp [made, checked]
    · simp [checked]
    · obtain rfl := Except.ok.inj (made.symm.trans same)
      exact follows

theorem generate_drawn (r : Recipe) : (∀ entropy, r.Drawn (r.generate entropy)) ∧ ∀ source, r.Drawn (r.generateFrom source) :=
  ⟨fun _ => r.generateFrom_drawn _, r.generateFrom_drawn⟩

end Recipe

end ToffoliBench
