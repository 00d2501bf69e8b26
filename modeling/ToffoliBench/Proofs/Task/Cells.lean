import ToffoliBench.Proofs.Task.Grid

namespace ToffoliBench.Task
open Outcome

variable {s : Settings} {entropy count i : Nat} {tasks : List Task} {t : Task}

section

variable {α β : Type} {xs : List α} {f : α → List β} {a k m n : Nat}

theorem length_flatMap_even (even : ∀ x, (f x).length = m) : (xs.flatMap f).length = xs.length * m := by
  rw [List.length_flatMap, List.map_congr_left fun x _ => even x, List.map_const', List.sum_replicate_nat]

theorem getElem?_flatMap_even (even : ∀ x, (f x).length = m) (small : k < m) :
    (xs.flatMap f)[a * m + k]? = xs[a]?.bind fun x => (f x)[k]? := by
  induction xs generalizing a with
  | nil => simp
  | cons x rest ih =>
    rw [List.flatMap_cons]
    cases a with
    | zero =>
      rw [Nat.zero_mul, Nat.zero_add, List.getElem?_append_left (by rwa [even])]
      rfl
    | succ a =>
      have later : (a + 1) * m + k = (f x).length + (a * m + k) := by rw [even, Nat.add_mul]; omega
      rw [later, List.getElem?_append_right (Nat.le_add_right ..), Nat.add_sub_cancel_left, ih]
      rfl

theorem digits_lt (first : a < n) (second : k < m) : a * m + k < n * m := by
  have whole : (a + 1) * m ≤ n * m := Nat.mul_le_mul_right m first
  rw [Nat.add_mul, Nat.one_mul] at whole
  omega

theorem last_digit_iff : (k < m ∧ a * m + k = i) ↔ 0 < m ∧ k = i % m ∧ a = i / m := by
  constructor
  · rintro ⟨small, rfl⟩
    have positive : 0 < m := by omega
    have composed : k + m * a = a * m + k := by rw [Nat.mul_comm, Nat.add_comm]
    obtain ⟨quotient, remainder⟩ := (Nat.div_mod_unique positive).mpr ⟨composed, small⟩
    exact ⟨positive, remainder.symm, quotient.symm⟩
  · rintro ⟨positive, rfl, rfl⟩
    exact ⟨Nat.mod_lt i positive, Nat.div_add_mod' i m⟩

end

-- A cell of the grid: one digit for each list of sizes, and one for the sample.
structure Cell where
  qubits : Nat
  nots : Nat
  cnots : Nat
  toffolis : Nat
  sample : Nat

namespace Cell

variable {p : Cell}

structure In (p : Cell) (s : Settings) : Prop where
  qubits : p.qubits < s.qubits.length
  nots : p.nots < s.nots.length
  cnots : p.cnots < s.cnots.length
  toffolis : p.toffolis < s.toffolis.length
  sample : p.sample < s.samples

-- The cell as a number in mixed radix, the samples least significant.
def number (p : Cell) (s : Settings) : Nat :=
  (((p.qubits * s.nots.length + p.nots) * s.cnots.length + p.cnots) * s.toffolis.length + p.toffolis) * s.samples + p.sample

-- The sizes its digits point at.
structure Sized (p : Cell) (s : Settings) (t : Task) : Prop where
  qubits : s.qubits[p.qubits]? = some t.qubits
  nots : s.nots[p.nots]? = some t.nots
  cnots : s.cnots[p.cnots]? = some t.cnots
  toffolis : s.toffolis[p.toffolis]? = some t.toffolis

-- The digits of a number, by division and remainder.
def ofNumber (s : Settings) (i : Nat) : Cell where
  qubits := i / s.samples / s.toffolis.length / s.cnots.length / s.nots.length
  nots := i / s.samples / s.toffolis.length / s.cnots.length % s.nots.length
  cnots := i / s.samples / s.toffolis.length % s.cnots.length
  toffolis := i / s.samples % s.toffolis.length
  sample := i % s.samples

theorem in_number_iff : p.In s ∧ p.number s = i ↔ (ofNumber s i).In s ∧ p = ofNumber s i := by
  obtain ⟨q, n, c, t, k⟩ := p
  constructor
  · rintro ⟨inside, same⟩
    obtain ⟨_, sample, same⟩ := last_digit_iff.mp ⟨inside.sample, same⟩
    obtain ⟨_, toffolis, same⟩ := last_digit_iff.mp ⟨inside.toffolis, same⟩
    obtain ⟨_, cnots, same⟩ := last_digit_iff.mp ⟨inside.cnots, same⟩
    obtain ⟨_, nots, same⟩ := last_digit_iff.mp ⟨inside.nots, same⟩
    have digits : (⟨q, n, c, t, k⟩ : Cell) = ofNumber s i := by
      rw [ofNumber]
      exact Cell.mk.injEq .. ▸ ⟨same, nots, cnots, toffolis, sample⟩
    exact ⟨digits ▸ inside, digits⟩
  · rintro ⟨inside, same⟩
    refine ⟨same ▸ inside, ?_⟩
    rw [same]
    simp only [number, ofNumber, Nat.div_add_mod']

theorem existsUnique_number (small : i < s.qubits.length * s.nots.length * s.cnots.length * s.toffolis.length * s.samples) :
    ∃! p : Cell, p.In s ∧ p.number s = i := by
  have samples : 0 < s.samples := Nat.pos_of_lt_mul_left small
  have toffolis := Nat.div_lt_of_lt_mul (Nat.mul_comm _ s.samples ▸ small)
  have cnots := Nat.div_lt_of_lt_mul (Nat.mul_comm _ s.toffolis.length ▸ toffolis)
  have nots := Nat.div_lt_of_lt_mul (Nat.mul_comm _ s.cnots.length ▸ cnots)
  have qubits := Nat.div_lt_of_lt_mul (Nat.mul_comm _ s.nots.length ▸ nots)
  have inside : (ofNumber s i).In s := ⟨qubits, Nat.mod_lt _ (Nat.pos_of_lt_mul_left nots), Nat.mod_lt _ (Nat.pos_of_lt_mul_left cnots),
    Nat.mod_lt _ (Nat.pos_of_lt_mul_left toffolis), Nat.mod_lt _ samples⟩
  exact ⟨ofNumber s i, in_number_iff.mpr ⟨inside, rfl⟩, fun p found => (in_number_iff.mp found).2⟩

theorem sizes_at (inside : p.In s) : ∃ size, (Task.sizes s)[p.number s]? = some size ∧ ∀ seed, p.Sized s (size seed) := by
  obtain ⟨qubits, one⟩ : ∃ n, s.qubits[p.qubits]? = some n := ⟨_, List.getElem?_eq_getElem inside.qubits⟩
  obtain ⟨nots, two⟩ : ∃ n, s.nots[p.nots]? = some n := ⟨_, List.getElem?_eq_getElem inside.nots⟩
  obtain ⟨cnots, three⟩ : ∃ n, s.cnots[p.cnots]? = some n := ⟨_, List.getElem?_eq_getElem inside.cnots⟩
  obtain ⟨toffolis, four⟩ : ∃ n, s.toffolis[p.toffolis]? = some n := ⟨_, List.getElem?_eq_getElem inside.toffolis⟩
  refine ⟨fun seed => ⟨qubits, nots, cnots, toffolis, seed⟩, ?_, fun seed => ⟨one, two, three, four⟩⟩
  have weighed : p.number s = p.qubits * (s.nots.length * (s.cnots.length * (s.toffolis.length * s.samples))) +
      (p.nots * (s.cnots.length * (s.toffolis.length * s.samples)) +
        (p.cnots * (s.toffolis.length * s.samples) + (p.toffolis * s.samples + p.sample))) := by
    simp only [number, Nat.add_mul, Nat.mul_assoc, Nat.add_assoc]
  have fourth := digits_lt inside.toffolis inside.sample
  have third := digits_lt inside.cnots fourth
  have second := digits_lt inside.nots third
  rw [weighed, Task.sizes,
    getElem?_flatMap_even (fun _ => length_flatMap_even fun _ => length_flatMap_even fun _ => length_flatMap_even fun _ =>
      List.length_replicate) second, one, Option.bind_some,
    getElem?_flatMap_even (fun _ => length_flatMap_even fun _ => length_flatMap_even fun _ => List.length_replicate) third, two,
    Option.bind_some, getElem?_flatMap_even (fun _ => length_flatMap_even fun _ => List.length_replicate) fourth, three,
    Option.bind_some, getElem?_flatMap_even (fun _ => List.length_replicate) inside.sample, four, Option.bind_some,
    List.getElem?_replicate, if_pos inside.sample]

end Cell

theorem sizes_length (s : Settings) : (Task.sizes s).length =
    s.qubits.length * s.nots.length * s.cnots.length * s.toffolis.length * s.samples := by
  rw [Task.sizes, length_flatMap_even fun _ => length_flatMap_even fun _ => length_flatMap_even fun _ => length_flatMap_even fun _ =>
    List.length_replicate]
  simp only [Nat.mul_assoc]

theorem taskCount_ok (counted : s.taskCount = .ok count) :
    count = s.qubits.length * s.nots.length * s.cnots.length * s.toffolis.length * s.samples := by
  obtain ⟨_, one, counted⟩ := bind_ok.mp counted
  obtain ⟨_, two, counted⟩ := bind_ok.mp counted
  obtain ⟨_, three, four⟩ := bind_ok.mp counted
  obtain ⟨rfl, _⟩ := within_ok.mp one
  obtain ⟨rfl, _⟩ := within_ok.mp two
  obtain ⟨rfl, _⟩ := within_ok.mp three
  exact (within_ok.mp four).1

def seedAt (master i : Nat) : Nat := (Draw.between .w64 1 maxSeed).nth (.ofSeed master.toUInt64) i

theorem seedAt_range (master i : Nat) : 1 ≤ seedAt master i ∧ seedAt master i ≤ maxSeed :=
  (Draw.between_range .w64 (by decide)).nth _ i

theorem seeded_cons (size : Nat → Task) (rest : List (Nat → Task)) (source : Source) : (seeded (size :: rest) source).1 =
    size (Draw.between .w64 1 maxSeed source).1 :: (seeded rest (Draw.between .w64 1 maxSeed source).2).1 := by
  rw [seeded, Draw.bind_run, Draw.bind_run]
  rfl

theorem seeded_nth (sizes : List (Nat → Task)) (source : Source) (i : Nat) :
    (seeded sizes source).1[i]? = sizes[i]?.map fun size => size ((Draw.between .w64 1 maxSeed).nth source i) := by
  induction sizes generalizing source i with
  | nil => rfl
  | cons size rest ih =>
    rw [seeded_cons]
    cases i with
    | zero => rw [List.getElem?_cons_zero, List.getElem?_cons_zero, Option.map_some, Draw.nth]
    | succ i => rw [List.getElem?_cons_succ, List.getElem?_cons_succ, Draw.nth, ih]

theorem grid_at (drawn : grid s entropy = .ok tasks) (i : Nat) :
    tasks[i]? = (Task.sizes s)[i]?.map fun size => size (seedAt (s.masterSeed.getD entropy) i) := by
  obtain ⟨count, _, drawn⟩ := bind_ok.mp drawn
  split at drawn
  · cases drawn
  · rw [← Except.ok.inj drawn]
    exact seeded_nth _ _ i

theorem grid_sized {p : Cell} (drawn : grid s entropy = .ok tasks) (inside : p.In s) : ∃ t, tasks[p.number s]? = some t ∧ p.Sized s t := by
  obtain ⟨size, listed, sized⟩ := p.sizes_at inside
  exact ⟨size (seedAt (s.masterSeed.getD entropy) (p.number s)), by rw [grid_at drawn, listed, Option.map_some], sized _⟩

theorem sizes_seed : ∀ size ∈ Task.sizes s, ∀ seed, (size seed).seed = seed := by
  intro size listed seed
  simp only [Task.sizes, List.mem_flatMap, List.mem_replicate] at listed
  obtain ⟨_, _, _, _, _, _, _, _, _, rfl⟩ := listed
  rfl

theorem grid_seed (drawn : grid s entropy = .ok tasks) (held : tasks[i]? = some t) : t.seed = seedAt (s.masterSeed.getD entropy) i := by
  rw [grid_at drawn] at held
  obtain ⟨size, listed, rfl⟩ := Option.map_eq_some_iff.mp held
  exact sizes_seed size (List.mem_of_getElem? listed) _

-- The grid goes through all its cells in the order of their numbers, and every cell gets the draw of its
-- number. What else is in a grid with the same master seed makes no difference to the seeds.
theorem grid_lexicographic (counted : s.taskCount = .ok count) (fits : count * taskBytes ≤ Range.addressLimit) (entropy : Nat) :
    (∀ i < count, ∃! p : Cell, p.In s ∧ p.number s = i) ∧
    ∃ tasks, grid s entropy = .ok tasks ∧ tasks.length = count ∧
      (∀ p : Cell, p.In s → ∃ t, tasks[p.number s]? = some t ∧ p.Sized s t ∧
        t.seed = seedAt (s.masterSeed.getD entropy) (p.number s) ∧ 1 ≤ t.seed ∧ t.seed ≤ maxSeed) ∧
      ∀ other entropy' tasks', grid other entropy' = .ok tasks' → other.masterSeed.getD entropy' = s.masterSeed.getD entropy →
        ∀ (i : Nat) (t u : Task), tasks[i]? = some t → tasks'[i]? = some u → t.seed = u.seed := by
  have product := taskCount_ok counted
  obtain ⟨tasks, drawn⟩ := grid_exists counted fits entropy
  refine ⟨fun i small => Cell.existsUnique_number (by rwa [← product]), tasks, drawn, ?_, fun p inside => ?_, ?_⟩
  · rw [← (grid_each drawn).length_eq, sizes_length, product]
  · obtain ⟨t, held, sized⟩ := grid_sized drawn inside
    have seed := grid_seed drawn held
    exact ⟨t, held, sized, seed, seed ▸ seedAt_range _ _⟩
  · intro other entropy' tasks' drawn' same i t u held held'
    rw [grid_seed drawn held, grid_seed drawn' held', same]

-- Sizes that are named twice or alone, and three samples of each.
def unevenSettings : Settings :=
  { qubits := [5, 8, 5], nots := [0], cnots := [1, 2], toffolis := [3], samples := 3, masterSeed := some 9 }

theorem grid_lexicographic_uneven : unevenSettings.taskCount = .ok 18 ∧ 18 * taskBytes ≤ Range.addressLimit ∧
    ∃ tasks, grid unevenSettings 0 = .ok tasks ∧ tasks.length = 18 ∧
      ∃ t, tasks[10]? = some t ∧ t.size = [8, 0, 2, 3] ∧ t.seed = seedAt 9 10 ∧ 1 ≤ t.seed ∧ t.seed ≤ maxSeed := by
  have counted : unevenSettings.taskCount = .ok 18 := rfl
  have fits : 18 * taskBytes ≤ Range.addressLimit := by decide
  obtain ⟨_, tasks, drawn, length, each, _⟩ := grid_lexicographic counted fits 0
  have inside : (⟨1, 0, 1, 0, 1⟩ : Cell).In unevenSettings := ⟨by decide, by decide, by decide, by decide, by decide⟩
  obtain ⟨t, listed, sized, seed⟩ := each ⟨1, 0, 1, 0, 1⟩ inside
  have qubits : 8 = t.qubits := Option.some.inj sized.qubits
  have nots : 0 = t.nots := Option.some.inj sized.nots
  have cnots : 2 = t.cnots := Option.some.inj sized.cnots
  have toffolis : 3 = t.toffolis := Option.some.inj sized.toffolis
  exact ⟨counted, fits, tasks, drawn, length, t, listed, by rw [Task.size, ← qubits, ← nots, ← cnots, ← toffolis], seed⟩

theorem grid_unheld (counted : s.taskCount = .ok count) (many : Range.addressLimit < count * taskBytes) (entropy : Nat) :
    grid s entropy = .error .overflow :=
  bind_error.mpr (.inr ⟨count, counted, if_pos many⟩)

def vastSettings : Settings :=
  { qubits := [1], nots := [0], cnots := [0], toffolis := [0], samples := 18446744073709551615, masterSeed := some 7 }

theorem vast_unheld : vastSettings.taskCount = .ok 18446744073709551615 ∧ ∀ entropy, grid vastSettings entropy = .error .overflow :=
  have counted : vastSettings.taskCount = .ok 18446744073709551615 := rfl
  ⟨counted, fun _ => grid_unheld counted (by decide) _⟩

end ToffoliBench.Task
