import Mathlib.Data.List.Sort
import ToffoliBench.Proofs.Circuit.Validity

namespace ToffoliBench.Column

open Outcome

variable {role : Role} {roles others : List (Option Role)} {column : Column} {n q start : Nat} {as : List (Nat × Role)}

theorem holders_eq : holders role start roles = roles.idxsOf (some role) start := by
  induction roles generalizing start with
  | nil => rfl
  | cons r rest ih =>
    rw [holders, List.idxsOf_cons, ih]
    simp only [beq_iff_eq]

theorem mem_holders : q ∈ holders role 0 roles ↔ roles[q]? = some (some role) := by
  rw [holders_eq, List.mem_idxsOf_iff_exists_getElem_pos, List.getElem?_eq_some_iff]
  simp only [beq_iff_eq]

theorem holders_ascending (role : Role) (roles : List (Option Role)) : (holders role 0 roles).Pairwise (· < ·) :=
  holders_eq ▸ List.pairwise_idxsOf

theorem holders_length (role : Role) (roles : List (Option Role)) : (holders role 0 roles).length = roles.count (some role) := by
  rw [holders_eq, List.length_idxsOf]

-- Who holds which role is all there is to a list of roles but for its length.
theorem eq_of_holders (lengths : roles.length = others.length) (same : ∀ role, holders role 0 roles = holders role 0 others) :
    roles = others := by
  have alike : ∀ q role, roles[q]? = some (some role) ↔ others[q]? = some (some role) := fun q role => by
    rw [← mem_holders, ← mem_holders, same]
  refine List.ext_getElem lengths fun q left right => Option.ext fun role => ?_
  have both := alike q role
  rwa [List.getElem?_eq_getElem left, List.getElem?_eq_getElem right, Option.some.injEq, Option.some.injEq] at both

-- The qubits of a role, as the column names them.
def players : Column → Role → List Nat
  | .not q, .not => [q]
  | .cnot c _, .zControl => [c]
  | .cnot _ t, .xControl => [t]
  | .toffoli controls _, .control => controls
  | .toffoli _ t, .target => [t]
  | _, _ => []

-- Only a Toffoli column names more than one qubit of a role.
def Ascending : Column → Prop
  | .toffoli controls _ => controls.Pairwise (· < ·)
  | _ => True

theorem mem_assignments : (q, role) ∈ column.assignments ↔ q ∈ column.players role := by
  cases column <;> cases role <;> simp [assignments, players]

theorem Ascending.players (ascending : column.Ascending) (role : Role) : (column.players role).Pairwise (· < ·) := by
  cases column with
  | not q => cases role <;> simp [Column.players]
  | cnot c t => cases role <;> simp [Column.players]
  | toffoli controls t =>
    cases role with
    | control => exact ascending
    | _ => simp [Column.players]

theorem Sits.once (sits : column.Sits n) : (column.assignments.map Prod.fst).Nodup := by
  cases column with
  | not q => simp [assignments]
  | cnot c t => simpa [assignments] using sits.2.2
  | toffoli controls t =>
    obtain ⟨_, _, each, once⟩ := sits
    simpa [assignments, Function.comp_def, List.nodup_append, once] using fun c listed => (each c listed).2

theorem Sits.inside (sits : column.Sits n) : ∀ a ∈ column.assignments, a.1 < n := by
  rintro ⟨q, role⟩ given
  cases column with
  | not p => cases role <;> simp_all [assignments, Sits]
  | cnot c t => cases role <;> simp_all [assignments, Sits]
  | toffoli controls t =>
    obtain ⟨target, _, each, _⟩ := sits
    rcases List.mem_append.mp given with control | last
    · obtain ⟨c, listed, same⟩ := List.mem_map.mp control
      exact (Prod.mk.inj same).1 ▸ (each c listed).1
    · exact (Prod.mk.inj (List.mem_singleton.mp last)).1 ▸ target

theorem ascending_of_holders (held : ∀ role, holders role 0 roles = column.players role) : column.Ascending := by
  cases column with
  | not q => trivial
  | cnot c t => trivial
  | toffoli controls t => exact (held .control).subst (motive := List.Pairwise (· < ·)) (holders_ascending .control roles)

theorem foldl_set (once : (as.map Prod.fst).Nodup) (inside : ∀ a ∈ as, a.1 < roles.length) :
    (as.foldl (fun roles a => roles.set a.1 (some a.2)) roles)[q]? = some (some role) ↔
      (q, role) ∈ as ∨ q ∉ as.map Prod.fst ∧ roles[q]? = some (some role) := by
  induction as generalizing roles with
  | nil => simp
  | cons a rest ih =>
    obtain ⟨p, given⟩ := a
    obtain ⟨new, once⟩ := List.nodup_cons.mp once
    obtain ⟨first, later⟩ := List.forall_mem_cons.mp inside
    rw [List.foldl_cons, ih once (by simpa using later), List.getElem?_set]
    by_cases here : p = q
    · subst here
      have away : (p, role) ∉ rest := fun again => new (List.mem_map.mpr ⟨_, again, rfl⟩)
      simp [away, first, eq_comm, show p ∉ rest.map Prod.fst from new]
    · simp [here, Ne.symm here]

theorem roles_length (column : Column) (n : Nat) : (column.roles n).length = n := by
  have kept : ∀ (as : List (Nat × Role)) (roles : List (Option Role)),
      (as.foldl (fun roles a => roles.set a.1 (some a.2)) roles).length = roles.length := by
    intro as
    induction as with
    | nil => exact fun _ => rfl
    | cons a rest ih => exact fun roles => (ih _).trans List.length_set
  exact (kept _ _).trans List.length_replicate

theorem Sits.holders (sits : column.Sits n) (ascending : column.Ascending) (role : Role) :
    Column.holders role 0 (column.roles n) = column.players role := by
  have named : ∀ q, q ∈ Column.holders role 0 (column.roles n) ↔ q ∈ column.players role := by
    intro q
    have bounds : ∀ a ∈ column.assignments, a.1 < (List.replicate n (none : Option Role)).length := by simpa using sits.inside
    rw [mem_holders, roles, foldl_set sits.once bounds, mem_assignments]
    simp [List.getElem?_replicate]
  exact (holders_ascending role _).eq_of_mem_iff (ascending.players role) named

theorem checked_ok {read : Column} :
    (do let c ← (pure read : Except CircuitError Column); c.validate n; pure c) = .ok column ↔
      read = column ∧ column.validate n = .ok () := by
  rw [pure_bind, check_ok, pure_ok]
  constructor
  · rintro ⟨valid, rfl⟩
    exact ⟨rfl, valid⟩
  · rintro ⟨rfl, valid⟩
    exact ⟨valid, rfl⟩

theorem ofRoles_ok : ofRoles roles = .ok column ↔
    (∀ role, holders role 0 roles = column.players role) ∧ column.validate roles.length = .ok () := by
  unfold ofRoles
  dsimp only
  constructor
  · intro done
    split at done
    case h_4 => cases done
    all_goals
      obtain ⟨rfl, valid⟩ := checked_ok.mp done
      refine ⟨fun role => ?_, valid⟩
      cases role <;> first | assumption | rfl
  · rintro ⟨held, valid⟩
    simp only [held]
    cases column <;> exact checked_ok.mpr ⟨rfl, valid⟩

theorem sits_of_holders (held : ∀ role, holders role 0 roles = column.players role)
    (enough : ∀ controls t, column = .toffoli controls t → 2 ≤ controls.length) : column.Sits roles.length := by
  have found : ∀ {q role}, q ∈ column.players role → roles[q]? = some (some role) := fun {q role} listed =>
    mem_holders.mp (held role ▸ listed)
  have inside : ∀ {q role}, q ∈ column.players role → q < roles.length := fun listed =>
    (List.getElem?_eq_some_iff.mp (found listed)).1
  have apart : ∀ {p q} first second, first ≠ second → p ∈ column.players first → q ∈ column.players second → p ≠ q := by
    rintro p q first second different one two rfl
    exact different (Option.some.inj (Option.some.inj ((found one).symm.trans (found two))))
  cases column with
  | not q => exact inside (show q ∈ (Column.not q).players .not from List.mem_singleton_self q)
  | cnot c t =>
    have control : c ∈ (Column.cnot c t).players .zControl := List.mem_singleton_self c
    have target : t ∈ (Column.cnot c t).players .xControl := List.mem_singleton_self t
    exact ⟨inside control, inside target, apart _ _ (by decide) control target⟩
  | toffoli controls t =>
    have target : t ∈ (Column.toffoli controls t).players .target := List.mem_singleton_self t
    have ascending : controls.Pairwise (· < ·) := ascending_of_holders held
    refine ⟨inside target, enough controls t rfl, fun c listed => ?_, ascending.imp Nat.ne_of_lt⟩
    have control : c ∈ (Column.toffoli controls t).players .control := listed
    exact ⟨inside control, apart _ _ (by decide) control target⟩

-- The roles of one gate, and no others.
def OneGate (roles : List (Option Role)) : Prop :=
  (∀ role, roles.count (some role) = if role = .not then 1 else 0) ∨
  (∀ role, roles.count (some role) = if role = .zControl ∨ role = .xControl then 1 else 0) ∨
  roles.count (some .target) = 1 ∧ 2 ≤ roles.count (some .control) ∧
    ∀ role, role ≠ .target → role ≠ .control → roles.count (some role) = 0

theorem oneGate_of_holders (held : ∀ role, holders role 0 roles = column.players role) (sits : column.Sits roles.length) :
    OneGate roles := by
  have counts : ∀ role, roles.count (some role) = (column.players role).length := fun role => by rw [← holders_length, held]
  cases column with
  | not q => exact .inl fun role => (counts role).trans (by cases role <;> rfl)
  | cnot c t => exact .inr (.inl fun role => (counts role).trans (by cases role <;> rfl))
  | toffoli controls t =>
    have enough : 2 ≤ controls.length := sits.2.1
    refine .inr (.inr ⟨counts .target, by rwa [counts], fun role target control => (counts role).trans ?_⟩)
    cases role with
    | target => exact absurd rfl target
    | control => exact absurd rfl control
    | _ => rfl

theorem exists_holders (gate : OneGate roles) :
    ∃ column : Column, (∀ role, holders role 0 roles = column.players role) ∧ column.Sits roles.length := by
  have nobody : ∀ {role}, roles.count (some role) = 0 → holders role 0 roles = [] := fun none =>
    List.length_eq_zero_iff.mp ((holders_length _ _).trans none)
  have single : ∀ {role}, roles.count (some role) = 1 → ∃ q, holders role 0 roles = [q] := fun one =>
    List.length_eq_one_iff.mp ((holders_length _ _).trans one)
  rcases gate with not | cnot | ⟨one, two, others⟩
  · obtain ⟨q, held⟩ := single (not .not)
    have all : ∀ role, holders role 0 roles = (Column.not q).players role := by
      intro role
      cases role with
      | not => exact held
      | _ => exact nobody (not _)
    exact ⟨_, all, sits_of_holders all nofun⟩
  · obtain ⟨c, control⟩ := single (cnot .zControl)
    obtain ⟨t, target⟩ := single (cnot .xControl)
    have all : ∀ role, holders role 0 roles = (Column.cnot c t).players role := by
      intro role
      cases role with
      | zControl => exact control
      | xControl => exact target
      | _ => exact nobody (cnot _)
    exact ⟨_, all, sits_of_holders all nofun⟩
  · obtain ⟨t, target⟩ := single one
    have all : ∀ role, holders role 0 roles = (Column.toffoli (holders .control 0 roles) t).players role := by
      intro role
      cases role with
      | target => exact target
      | control => rfl
      | _ => exact nobody (others _ (by decide) (by decide))
    refine ⟨_, all, sits_of_holders all fun controls u same => ?_⟩
    rw [← (toffoli.inj same).1, holders_length]
    exact two

-- Reading the roles of a column and giving out the roles that were read undo each other, and what can be
-- read are just the roles of one gate.
theorem roles_determine :
    (∀ n column, column.validate n = .ok () → column.Ascending → ofRoles (column.roles n) = .ok column) ∧
    (∀ roles, (∃ column, ofRoles roles = .ok column) ↔ OneGate roles) ∧
    ∀ roles column, ofRoles roles = .ok column →
      column.validate roles.length = .ok () ∧ column.Ascending ∧ column.roles roles.length = roles := by
  refine ⟨fun n column valid ascending => ?_, fun roles => ⟨?_, fun gate => ?_⟩, fun roles column done => ?_⟩
  · have sits := validate_ok.mp valid
    exact ofRoles_ok.mpr ⟨sits.holders ascending, (column.roles_length n).symm ▸ valid⟩
  · rintro ⟨column, done⟩
    obtain ⟨held, valid⟩ := ofRoles_ok.mp done
    exact oneGate_of_holders held (validate_ok.mp valid)
  · obtain ⟨column, held, sits⟩ := exists_holders gate
    exact ⟨column, ofRoles_ok.mpr ⟨held, validate_ok.mpr sits⟩⟩
  · obtain ⟨held, valid⟩ := ofRoles_ok.mp done
    have ascending : column.Ascending := ascending_of_holders held
    refine ⟨valid, ascending, eq_of_holders (column.roles_length _) fun role => ?_⟩
    exact ((validate_ok.mp valid).holders ascending role).trans (held role).symm

-- Two controls on either side of the target, one qubit idle.
theorem roles_determine_toffoli :
    (Column.toffoli [0, 3] 2).validate 4 = .ok () ∧ (Column.toffoli [0, 3] 2).Ascending ∧
    ofRoles ((Column.toffoli [0, 3] 2).roles 4) = .ok (.toffoli [0, 3] 2) ∧
    OneGate [some .control, none, some .target, some .control] ∧
    ¬OneGate [some .control, some .not, some .target, some .control] := by
  obtain ⟨read, gates, _⟩ := roles_determine
  have ascending : (Column.toffoli [0, 3] 2).Ascending := by simp [Ascending]
  refine ⟨rfl, ascending, read 4 _ rfl ascending, (gates _).mp ⟨.toffoli [0, 3] 2, rfl⟩, fun gate => ?_⟩
  obtain ⟨column, done⟩ := (gates _).mpr gate
  cases done

end ToffoliBench.Column
