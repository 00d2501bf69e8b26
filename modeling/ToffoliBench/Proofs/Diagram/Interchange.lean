import ToffoliBench.Proofs.Diagram.Category

namespace ToffoliBench

open Wiring

namespace Net

variable {α β : Type} {A B C D P Q M N : Net α}

-- Two nets with no wire between them.
def stack (P Q : Net α) : Net α :=
  ⟨fun t l => P.holds t l ∨ Q.holds t l, P.wires.beside Q.wires, P.inputs ++ Q.inputs, P.outputs ++ Q.outputs⟩

theorem stack_live {t : α} : (P.stack Q).Live t ↔ P.Live t ∨ Q.Live t := exists_or

theorem stack_assoc (P Q N : Net α) : (P.stack Q).stack N = P.stack (Q.stack N) := by
  refine Net.ext ?_ (beside_assoc ..) (List.append_assoc ..) (List.append_assoc ..)
  funext t l
  exact propext or_assoc

theorem stack_moved (f : α → β) (P Q : Net α) : (P.stack Q).moved f = (P.moved f).stack (Q.moved f) := by
  refine Net.ext ?_ (moved_beside ..) List.map_append List.map_append
  funext v l
  simp only [moved, stack, and_or_left, exists_or]

theorem Proper.stack (p : P.Proper) (q : Q.Proper) (apart : ∀ t, P.Live t → ¬Q.Live t) : (P.stack Q).Proper := by
  have rearranged : (P.inputs ++ Q.inputs ++ (P.outputs ++ Q.outputs)).Perm (P.inputs ++ P.outputs ++ (Q.inputs ++ Q.outputs)) := by
    rw [List.append_assoc, List.append_assoc, ← List.append_assoc Q.inputs, ← List.append_assoc P.outputs]
    exact (List.perm_append_comm.append_right _).append_left _
  refine ⟨p.symm.beside q.symm, fun t u m near => ?_, fun t listed => ?_, rearranged.nodup_iff.mpr ?_⟩
  · exact (p.within_beside q t u m near).imp stack_live.mpr stack_live.mpr
  · exact stack_live.mpr ((List.mem_append.mp (rearranged.mem_iff.mp listed)).imp (p.live t) (q.live t))
  · exact List.nodup_append'.mpr ⟨p.distinct, q.distinct, fun t mine theirs => apart t (p.live t mine) (q.live t theirs)⟩

section

variable (a : A.Proper) (b : B.Proper) (c : C.Proper) (d : D.Proper)
  (ab : ∀ t, A.Live t → ¬B.Live t) (ad : ∀ t, A.Live t → ¬D.Live t) (bc : ∀ t, B.Live t → ¬C.Live t) (cd : ∀ t, C.Live t → ¬D.Live t)
include a b c d ab ad bc cd

-- What is fused above has nothing to do with what is fused below.
theorem stack_fuseAll (lengths : A.outputs.length = C.inputs.length) {U : Wiring α} :
    FuseAll ((A.stack B).wires.beside (C.stack D).wires) ((A.stack B).outputs.zip (C.stack D).inputs) U ↔
      ∃ W V, FuseAll (A.wires.beside C.wires) (A.outputs.zip C.inputs) W ∧
        FuseAll (B.wires.beside D.wires) (B.outputs.zip D.inputs) V ∧ U = W.beside V := by
  have apart : ∀ t, A.Live t ∨ C.Live t → ¬(B.Live t ∨ D.Live t) := fun t above below =>
    above.elim (fun here => below.elim (ab t here) (ad t here)) fun here => below.elim (fun far => bc t far here) (cd t here)
  have regrouped : (A.stack B).wires.beside (C.stack D).wires = (A.wires.beside C.wires).beside (B.wires.beside D.wires) := by
    funext t u m
    exact propext or_or_or_comm
  have upper := fun U => beside_fuseAll (U := U) (a.within_beside c) (b.within_beside d) apart
    fun pair held => (a.seam_live c held).imp .inl .inr
  have lower := fun W (steps : FuseAll (A.wires.beside C.wires) (A.outputs.zip C.inputs) W) U =>
    beside_fuseAll (U := U) (b.within_beside d)
      (fun t u m near => (steps.cleared (a.within_beside c) t u m near).imp And.left And.left)
      (fun t below above => apart t above below) fun pair held => (b.seam_live d held).imp .inl .inr
  rw [regrouped, show (A.stack B).outputs.zip (C.stack D).inputs = A.outputs.zip C.inputs ++ B.outputs.zip D.inputs from
    List.zip_append lengths, fuseAll_append]
  constructor
  · rintro ⟨_, early, late⟩
    obtain ⟨W, above, rfl⟩ := (upper _).mp early
    rw [beside_comm] at late
    obtain ⟨V, below, rfl⟩ := (lower W above _).mp late
    exact ⟨W, V, above, below, beside_comm V W⟩
  · rintro ⟨W, V, above, below, rfl⟩
    refine ⟨_, (upper _).mpr ⟨W, above, rfl⟩, ?_⟩
    rw [beside_comm W, beside_comm W]
    exact (lower W above _).mpr ⟨V, below, rfl⟩

theorem stack_joins (lengths : A.outputs.length = C.inputs.length) :
    Joins (A.stack B) (C.stack D) N ↔ ∃ P Q, Joins A C P ∧ Joins B D Q ∧ N = P.stack Q := by
  have outA : ∀ t ∈ A.outputs, A.Live t := fun t listed => a.live t (List.mem_append_right _ listed)
  have outB : ∀ t ∈ B.outputs, B.Live t := fun t listed => b.live t (List.mem_append_right _ listed)
  have inC : ∀ t ∈ C.inputs, C.Live t := fun t listed => c.live t (List.mem_append_left _ listed)
  have inD : ∀ t ∈ D.inputs, D.Live t := fun t listed => d.live t (List.mem_append_left _ listed)
  -- A seam takes nothing from the nets above or below it.
  have members : ∀ t l, ((A.holds t l ∨ B.holds t l) ∨ C.holds t l ∨ D.holds t l) ∧ t ∉ A.outputs ++ B.outputs ∧ t ∉ C.inputs ++ D.inputs ↔
      ((A.holds t l ∨ C.holds t l) ∧ t ∉ A.outputs ∧ t ∉ C.inputs) ∨ ((B.holds t l ∨ D.holds t l) ∧ t ∉ B.outputs ∧ t ∉ D.inputs) := by
    intro t l
    have above : A.holds t l ∨ C.holds t l → t ∉ B.outputs ∧ t ∉ D.inputs := by
      rintro (held | held)
      · exact ⟨fun listed => ab t ⟨l, held⟩ (outB t listed), fun listed => ad t ⟨l, held⟩ (inD t listed)⟩
      · exact ⟨fun listed => bc t (outB t listed) ⟨l, held⟩, fun listed => cd t ⟨l, held⟩ (inD t listed)⟩
    have below : B.holds t l ∨ D.holds t l → t ∉ A.outputs ∧ t ∉ C.inputs := by
      rintro (held | held)
      · exact ⟨fun listed => ab t (outA t listed) ⟨l, held⟩, fun listed => bc t ⟨l, held⟩ (inC t listed)⟩
      · exact ⟨fun listed => ad t (outA t listed) ⟨l, held⟩, fun listed => cd t (inC t listed) ⟨l, held⟩⟩
    rw [List.mem_append, List.mem_append, not_or, not_or, or_or_or_comm]
    tauto
  constructor
  · intro joins
    obtain ⟨W, V, above, below, wires⟩ := (stack_fuseAll a b c d ab ad bc cd lengths).mp joins.fused
    have total : (A.outputs ++ B.outputs).length = (C.inputs ++ D.inputs).length := joins.lengths
    rw [List.length_append, List.length_append] at total
    refine ⟨⟨_, W, A.inputs, C.outputs⟩, ⟨_, V, B.inputs, D.outputs⟩, ⟨lengths, above, rfl, rfl, rfl⟩, ⟨by omega, below, rfl, rfl, rfl⟩, ?_⟩
    refine Net.ext (joins.holds.trans ?_) wires joins.inputs joins.outputs
    funext t l
    exact propext (members t l)
  · rintro ⟨P, Q, above, below, rfl⟩
    refine ⟨?_, (stack_fuseAll a b c d ab ad bc cd lengths).mpr ⟨_, _, above.fused, below.fused, rfl⟩, ?_, ?_, ?_⟩
    · simp only [stack, List.length_append, above.lengths, below.lengths]
    · funext t l
      simp only [stack, above.holds, below.holds]
      exact propext (members t l).symm
    · simp only [stack, above.inputs, below.inputs]
    · simp only [stack, above.outputs, below.outputs]

end

end Net

namespace Diagram
open Outcome

variable {α : Type} {P Q : Net α} {f g : α → Nat} {a b c d other : Diagram}

-- Diagrams go below each other as the nets they show do.
theorem Shows.tensor (left : d.Shows P f) (right : other.Shows Q g) (apart : ∀ t, P.Live t → ¬Q.Live t) {scalar : Scalar}
    (product : d.scalar.mul other.scalar = .ok scalar) :
    ∃ after h, d.tensor other = .ok after ∧ after.Shows (P.stack Q) h ∧ after.scalar = scalar := by
  obtain ⟨inputs, outputs⟩ := listed_live right.net_proper
  have all := append_appended left.sound right.sound d.qubitCount 0
  obtain ⟨h, names, mine, theirs⟩ := left.together right apart all
  refine ⟨_, h, (tensor_exact left.sound right.sound inputs outputs).mpr ⟨scalar, product, rfl⟩, ⟨?_, ?_, ?_, ?_⟩, rfl⟩
  · exact all.sound.congr rfl rfl rfl rfl
  · exact left.proper.stack right.proper apart
  · exact fun t u here there => names t u (Net.stack_live.mp here) (Net.stack_live.mp there)
  · rw [Net.stack_moved, ← mine, ← theirs]
    refine Net.ext ?_ all.wired rfl rfl
    funext v l
    exact propext all.holds

-- Three diagrams go below each other in either order.
theorem tensor_assoc (first : a.Ended) (second : b.Ended) (third : c.Ended) {ab bc left right : Scalar}
    (one : a.scalar.mul b.scalar = .ok ab) (two : ab.mul c.scalar = .ok left)
    (three : b.scalar.mul c.scalar = .ok bc) (four : a.scalar.mul bc = .ok right) :
    ∃ upper lower d e, a.tensor b = .ok upper ∧ upper.tensor c = .ok d ∧ b.tensor c = .ok lower ∧ a.tensor lower = .ok e ∧ Alike d e := by
  obtain rfl := Scalar.mul_regroup one two three four
  have shownA := first.shows 0
  have shownB := second.shows 1
  have shownC := third.shows 2
  have ab := tagged_apart (show 0 ≠ 1 by decide) a.net b.net
  have ac := tagged_apart (show 0 ≠ 2 by decide) a.net c.net
  have bc := tagged_apart (show 1 ≠ 2 by decide) b.net c.net
  obtain ⟨upper, f, made, shownUpper, rfl⟩ := shownA.tensor shownB ab one
  obtain ⟨lower, g, made', shownLower, rfl⟩ := shownB.tensor shownC bc three
  obtain ⟨d, h, done, shownD, scalar⟩ := shownUpper.tensor shownC (fun t live => (Net.stack_live.mp live).elim (ac t) (bc t)) two
  obtain ⟨e, k, done', shownE, scalar'⟩ := shownA.tensor shownLower
    (fun t here live => (Net.stack_live.mp live).elim (ab t here) (ac t here)) four
  rw [Net.stack_assoc] at shownD
  exact ⟨upper, lower, d, e, made, done, made', done', shownD.alike shownE (scalar'.trans scalar.symm)⟩

-- Two pairs of diagrams, each pair one after the other, below each other.
theorem compose_tensor (first : a.Ended) (second : b.Ended) (third : c.Ended) (fourth : d.Ended)
    (lengths : a.outputs.length = c.inputs.length) {ab cd ac bd left right : Scalar}
    (one : a.scalar.mul b.scalar = .ok ab) (two : c.scalar.mul d.scalar = .ok cd) (whole : ab.mul cd = .ok left)
    (three : a.scalar.mul c.scalar = .ok ac) (four : b.scalar.mul d.scalar = .ok bd) (whole' : ac.mul bd = .ok right) :
    ∃ early late, a.tensor b = .ok early ∧ c.tensor d = .ok late ∧
      ((∃ e, early.compose late = .ok e) ↔ (∃ x, a.compose c = .ok x) ∧ ∃ y, b.compose d = .ok y) ∧
      ∀ e x y, early.compose late = .ok e → a.compose c = .ok x → b.compose d = .ok y → ∃ xy, x.tensor y = .ok xy ∧ Alike e xy := by
  obtain rfl := Scalar.mul_interchange one two whole three four whole'
  have shownA := first.shows 0
  have shownB := second.shows 1
  have shownC := third.shows 2
  have shownD := fourth.shows 3
  have ab := tagged_apart (show 0 ≠ 1 by decide) a.net b.net
  have ac := tagged_apart (show 0 ≠ 2 by decide) a.net c.net
  have ad := tagged_apart (show 0 ≠ 3 by decide) a.net d.net
  have bc := tagged_apart (show 1 ≠ 2 by decide) b.net c.net
  have bd := tagged_apart (show 1 ≠ 3 by decide) b.net d.net
  have cd := tagged_apart (show 2 ≠ 3 by decide) c.net d.net
  have lengths' : (a.net.moved (Prod.mk 0)).outputs.length = (c.net.moved (Prod.mk 2)).inputs.length := by
    simpa [Net.moved, net] using lengths
  obtain ⟨early, f, made, shownEarly, rfl⟩ := shownA.tensor shownB ab one
  obtain ⟨late, g, made', shownLate, rfl⟩ := shownC.tensor shownD cd two
  have apart : ∀ t, (Net.stack _ _).Live t → ¬(Net.stack _ _).Live t := fun t here there =>
    (Net.stack_live.mp here).elim (fun mine => (Net.stack_live.mp there).elim (ac t mine) (ad t mine))
      fun mine => (Net.stack_live.mp there).elim (bc t mine) (bd t mine)
  have joint := shownEarly.compose shownLate apart whole
  have upper := shownA.compose shownC ac three
  have lower := shownB.compose shownD bd four
  have split := fun N => Net.stack_joins (N := N) shownA.proper shownB.proper shownC.proper shownD.proper ab ad bc cd lengths'
  refine ⟨early, late, made, made', ⟨?_, ?_⟩, ?_⟩
  · rintro ⟨e, done⟩
    obtain ⟨N, h, joins, _⟩ := joint.1 e done
    obtain ⟨P, Q, above, below, rfl⟩ := (split N).mp joins
    obtain ⟨x, _, doneX, _⟩ := upper.2 P above
    obtain ⟨y, _, doneY, _⟩ := lower.2 Q below
    exact ⟨⟨x, doneX⟩, y, doneY⟩
  · rintro ⟨⟨x, doneX⟩, y, doneY⟩
    obtain ⟨P, _, above, _⟩ := upper.1 x doneX
    obtain ⟨Q, _, below, _⟩ := lower.1 y doneY
    obtain ⟨e, _, done, _⟩ := joint.2 _ ((split _).mpr ⟨P, Q, above, below, rfl⟩)
    exact ⟨e, done⟩
  · intro e x y done doneX doneY
    obtain ⟨P, p, above, shownX, rfl⟩ := upper.1 x doneX
    obtain ⟨Q, q, below, shownY, rfl⟩ := lower.1 y doneY
    have disjoint : ∀ t, P.Live t → ¬Q.Live t := fun t here there => by
      obtain ⟨mine | mine, _⟩ := above.kept here <;> obtain ⟨theirs | theirs, _⟩ := below.kept there
      · exact ab t mine theirs
      · exact ad t mine theirs
      · exact bc t theirs mine
      · exact cd t mine theirs
    obtain ⟨xy, r, doneXY, shownXY, scalar⟩ := shownX.tensor shownY disjoint whole'
    obtain ⟨e', s, done', shownE, scalar'⟩ := joint.2 _ ((split _).mpr ⟨P, Q, above, below, rfl⟩)
    obtain rfl := Except.ok.inj (done.symm.trans done')
    exact ⟨xy, doneXY, shownE.alike shownXY (scalar.trans scalar'.symm)⟩

-- The laws of both ways to put diagrams together.
theorem tensor_laws :
    (∀ a b c d : Diagram, a.Ended → b.Ended → c.Ended → d.Ended →
      a.outputs.length = c.inputs.length → b.outputs.length = d.inputs.length → ∀ ab cd ac bd left right,
      a.scalar.mul b.scalar = .ok ab → c.scalar.mul d.scalar = .ok cd → ab.mul cd = .ok left →
      a.scalar.mul c.scalar = .ok ac → b.scalar.mul d.scalar = .ok bd → ac.mul bd = .ok right →
      ∃ early late, a.tensor b = .ok early ∧ c.tensor d = .ok late ∧
        ((∃ e, early.compose late = .ok e) ↔ (∃ x, a.compose c = .ok x) ∧ ∃ y, b.compose d = .ok y) ∧
        ∀ e x y, early.compose late = .ok e → a.compose c = .ok x → b.compose d = .ok y → ∃ xy, x.tensor y = .ok xy ∧ Alike e xy) ∧
    ∀ a b c : Diagram, a.Ended → b.Ended → c.Ended → ∀ ab bc left right,
      a.scalar.mul b.scalar = .ok ab → ab.mul c.scalar = .ok left → b.scalar.mul c.scalar = .ok bc → a.scalar.mul bc = .ok right →
      ∃ upper lower d e, a.tensor b = .ok upper ∧ upper.tensor c = .ok d ∧ b.tensor c = .ok lower ∧ a.tensor lower = .ok e ∧ Alike d e := by
  refine ⟨?_, ?_⟩
  · intro a b c d first second third fourth lengths _ ab cd ac bd left right one two whole three four whole'
    exact compose_tensor first second third fourth lengths one two whole three four whole'
  · intro a b c first second third ab bc left right one two three four
    exact tensor_assoc first second third one two three four

theorem tensor_laws_noted :
    (∃ early late, notedWire.tensor (identity 2) = .ok early ∧ (identity 1).tensor (identity 2) = .ok late ∧
      ((∃ e, early.compose late = .ok e) ↔ (∃ x, notedWire.compose (identity 1) = .ok x) ∧ ∃ y, (identity 2).compose (identity 2) = .ok y) ∧
      ∀ e x y, early.compose late = .ok e → notedWire.compose (identity 1) = .ok x → (identity 2).compose (identity 2) = .ok y →
        ∃ xy, x.tensor y = .ok xy ∧ Alike e xy) ∧
    ∃ upper lower d e, notedWire.tensor (identity 1) = .ok upper ∧ upper.tensor (identity 2) = .ok d ∧
      (identity 1).tensor (identity 2) = .ok lower ∧ notedWire.tensor lower = .ok e ∧ Alike d e := by
  have unit : Scalar.one.mul .one = .ok .one := rfl
  obtain ⟨_, _, _, one, _⟩ := identity_bare 1
  obtain ⟨_, _, _, two, _⟩ := identity_bare 2
  exact ⟨tensor_laws.1 notedWire (identity 2) (identity 1) (identity 2) notedWire_ended two one two rfl rfl
      .one .one .one .one .one .one unit unit unit unit unit unit,
    tensor_laws.2 notedWire (identity 1) (identity 2) notedWire_ended one two .one .one .one .one unit unit unit unit⟩

end Diagram

end ToffoliBench
