import ToffoliBench.Proofs.Diagram.Net

namespace ToffoliBench.Wiring

variable {α : Type} {W V : Wiring α} {o i a b c t u v x y : α} {k l m n : EdgeKind} {pairs rest : List (α × α)}
  {wires others : List (α × α × EdgeKind)}

def Met (pairs : List (α × α)) (x y : α) : Prop := (x, y) ∈ pairs ∨ (y, x) ∈ pairs

def Sewn (pairs : List (α × α)) (t : α) : Prop := t ∈ pairs.map Prod.fst ++ pairs.map Prod.snd

instance [DecidableEq α] (pairs : List (α × α)) (t : α) : Decidable (Sewn pairs t) :=
  inferInstanceAs (Decidable (t ∈ pairs.map Prod.fst ++ pairs.map Prod.snd))

-- Wire after wire, each from where the end of the one before is sewn on.
inductive Trail (W : Wiring α) (pairs : List (α × α)) : α → List (α × α × EdgeKind) → α → Prop
  | last {u v : α} {k : EdgeKind} : W u v k → Trail W pairs u [(u, v, k)] v
  | next {u x y v : α} {k : EdgeKind} {wires : List (α × α × EdgeKind)} :
      W u x k → Met pairs x y → Trail W pairs y wires v → Trail W pairs u ((u, x, k) :: wires) v

-- Hadamard when an odd number of the wires is.
def twist (wires : List (α × α × EdgeKind)) : EdgeKind :=
  if (wires.countP fun wire => wire.2.2 = .hadamard) % 2 = 1 then .hadamard else .simple

-- Every trail between unsewn places as one wire.
def contracted (W : Wiring α) (pairs : List (α × α)) : Wiring α := fun u v m =>
  ¬Sewn pairs u ∧ ¬Sewn pairs v ∧ ∃ wires, Trail W pairs u wires v ∧ twist wires = m

-- No trail leads back to where it began, no two join the same places, and none is closed.
structure Contractible (W : Wiring α) (pairs : List (α × α)) : Prop where
  loopless : ∀ u wires, ¬Sewn pairs u → ¬Trail W pairs u wires u
  single : ∀ u v wires others, ¬Sewn pairs u → ¬Sewn pairs v → Trail W pairs u wires v → Trail W pairs u others v → wires = others
  unclosed : ∀ x y wires, Met pairs x y → ¬Trail W pairs y wires x

-- At most one wire between two places, and one at each place that is sewn, once.
structure Seamed (W : Wiring α) (pairs : List (α × α)) : Prop where
  symm : W.Symm
  loopless : ∀ u m, ¬W u u m
  single : ∀ u v m n, W u v m → W u v n → m = n
  once : (pairs.map Prod.fst ++ pairs.map Prod.snd).Nodup
  sole : ∀ t, Sewn pairs t → ∃ a k, W.Sole t a k

theorem Met.symm (met : Met pairs x y) : Met pairs y x := Or.symm met

theorem Met.left (met : Met pairs x y) : Sewn pairs x :=
  List.mem_append.mpr (met.imp (List.mem_map_of_mem (f := Prod.fst)) (List.mem_map_of_mem (f := Prod.snd)))

theorem met_cons : Met ((o, i) :: rest) x y ↔ (x = o ∧ y = i) ∨ (x = i ∧ y = o) ∨ Met rest x y := by
  simp only [Met, List.mem_cons, Prod.mk.injEq]
  tauto

theorem sewn_cons : Sewn ((o, i) :: rest) t ↔ t = o ∨ t = i ∨ Sewn rest t := by
  simp only [Sewn, List.map_cons, List.mem_append, List.mem_cons]
  tauto

theorem unsewn_cons : ¬Sewn ((o, i) :: rest) t ↔ ¬Sewn rest t ∧ t ≠ o ∧ t ≠ i := by
  rw [sewn_cons]
  tauto

theorem Trail.append (trail : Trail W pairs u wires x) (met : Met pairs x y) (more : Trail W pairs y others v) :
    Trail W pairs u (wires ++ others) v := by
  induction trail with
  | last wire => exact .next wire met more
  | next wire here _ ih => exact .next wire here (ih met)

theorem unsewn_trail : Trail W [] u wires v ↔ ∃ k, W u v k ∧ wires = [(u, v, k)] := by
  constructor
  · intro trail
    cases trail with
    | last wire => exact ⟨_, wire, rfl⟩
    | next _ met _ => exact absurd met (by simp [Met])
  · rintro ⟨k, wire, rfl⟩
    exact .last wire

theorem Trail.starts (trail : Trail W pairs u wires v) : ∃ x k, W u x k := by
  cases trail with
  | last wire => exact ⟨_, _, wire⟩
  | next wire _ _ => exact ⟨_, _, wire⟩

theorem Trail.arrives (trail : Trail W pairs u wires v) : ∃ x k, W x v k := by
  induction trail with
  | last wire => exact ⟨_, _, wire⟩
  | next _ _ _ ih => exact ih

theorem Trail.wired (trail : Trail W pairs u wires v) : ∀ wire ∈ wires, W wire.1 wire.2.1 wire.2.2 := by
  induction trail with
  | last wire => exact List.forall_mem_singleton.mpr wire
  | next wire _ _ ih => exact List.forall_mem_cons.mpr ⟨wire, ih⟩

theorem Fits.fused_away (fits : W.Fits o i a b k l) (wire : W.fused o i a b m u v n) : (u ≠ o ∧ u ≠ i) ∧ v ≠ o ∧ v ≠ i := by
  rcases wire with ⟨_, left, right⟩ | ⟨_, ⟨rfl, rfl⟩ | ⟨rfl, rfl⟩⟩
  · exact ⟨left, right⟩
  · exact ⟨fits.left, fits.right⟩
  · exact ⟨fits.right, fits.left⟩

theorem fused_sole (symm : W.Symm) (outer : W.Sole o a k) (left : a ≠ o ∧ a ≠ i) (different : a ≠ b) (sole : W.Sole a c n) :
    (W.fused o i a b m).Sole a b m := by
  have gone : c = o := ((sole o k).mp (symm _ _ _ ((outer a k).mpr ⟨rfl, rfl⟩))).1.symm
  intro v n'
  have only := sole v n'
  simp only [fused]
  grind

theorem Trail.turned (sole : W.Sole y b k) (met : Met pairs x y) (far : b ≠ x) (closed : Trail W pairs y wires x) :
    ∃ z others, Met pairs b z ∧ Trail W pairs z others b := by
  have wire := (sole b k).mpr ⟨rfl, rfl⟩
  cases closed with
  | last direct => exact absurd ((sole x _).mp direct).1.symm far
  | next first here trail =>
    obtain ⟨rfl, _⟩ := (sole _ _).mp first
    exact ⟨_, _, here, trail.append met (.last wire)⟩

theorem twist_single : twist [(u, v, k)] = k := by cases k <;> rfl

theorem twist_append (wires others : List (α × α × EdgeKind)) : twist (wires ++ others) = (twist wires).merge (twist others) := by
  simp only [twist, List.countP_append]
  split <;> split <;> split <;> first | rfl | omega

theorem twist_cons : twist ((u, v, k) :: wires) = k.merge (twist wires) := by
  rw [← List.singleton_append, twist_append, twist_single]

theorem Seamed.contracted_nil (seamed : W.Seamed []) : W.Contractible [] ∧ W.contracted [] = W := by
  refine ⟨⟨fun u wires _ trail => ?_, fun u v wires others _ _ one two => ?_, fun x y wires met => ?_⟩, ?_⟩
  · obtain ⟨k, wire, _⟩ := unsewn_trail.mp trail
    exact seamed.loopless u k wire
  · obtain ⟨k, wire, rfl⟩ := unsewn_trail.mp one
    obtain ⟨l, wire', rfl⟩ := unsewn_trail.mp two
    rw [seamed.single u v k l wire wire']
  · exact absurd met (by simp [Met])
  · funext u v m
    simp only [contracted, unsewn_trail, eq_iff_iff]
    constructor
    · rintro ⟨_, _, _, ⟨k, wire, rfl⟩, rfl⟩
      exact twist_single ▸ wire
    · exact fun wire => ⟨nofun, nofun, _, ⟨m, wire, rfl⟩, twist_single⟩

namespace Seamed

variable (seamed : W.Seamed ((o, i) :: rest))
include seamed

theorem later (sewn : Sewn rest t) : t ≠ o ∧ t ≠ i := (ends_once seamed.once).2.1 t sewn

theorem meets (met : Met ((o, i) :: rest) x y) :
    (x = o → y = i) ∧ (x = i → y = o) ∧ (x ≠ o ∧ x ≠ i → Met rest x y ∧ y ≠ o ∧ y ≠ i) := by
  have apart := (ends_once seamed.once).1
  rcases met_cons.mp met with ⟨rfl, rfl⟩ | ⟨rfl, rfl⟩ | more
  · exact ⟨fun _ => rfl, fun same => absurd same apart, fun other => absurd rfl other.1⟩
  · exact ⟨fun same => absurd same.symm apart, fun _ => rfl, fun other => absurd rfl other.2⟩
  · have away := seamed.later more.left
    exact ⟨fun same => absurd same away.1, fun same => absurd same away.2, fun _ => ⟨more, seamed.later more.symm.left⟩⟩

-- In a contractible wiring nothing stands in the way of the first pair.
theorem fits (contractible : W.Contractible ((o, i) :: rest)) : ∃ a b k l, W.Fits o i a b k l := by
  obtain ⟨a, k, outer⟩ := seamed.sole o (sewn_cons.mpr (.inl rfl))
  obtain ⟨b, l, inner⟩ := seamed.sole i (sewn_cons.mpr (.inr (.inl rfl)))
  have first := (outer a k).mpr ⟨rfl, rfl⟩
  have second := (inner b l).mpr ⟨rfl, rfl⟩
  have met : Met ((o, i) :: rest) o i := .inl List.mem_cons_self
  have apart := (ends_once seamed.once).1
  have left : a ≠ o ∧ a ≠ i := by
    refine ⟨?_, ?_⟩ <;> rintro rfl
    · exact seamed.loopless a k first
    · exact contractible.unclosed _ _ _ met.symm (.last first)
  have right : b ≠ o ∧ b ≠ i := by
    refine ⟨?_, ?_⟩ <;> rintro rfl
    · exact contractible.unclosed _ _ _ met (.last second)
    · exact seamed.loopless b l second
  -- The two wires, one after the other.
  have through : Trail W ((o, i) :: rest) a [(a, o, k), (i, b, l)] b := .next (seamed.symm _ _ _ first) met (.last second)
  -- A sewn far end has no other wire.
  have alone : ∀ {p q r x y}, W p q x → W p r y → q ≠ r → ¬Sewn ((o, i) :: rest) p := by
    intro p q r x y one two different sewn
    obtain ⟨c, z, sole⟩ := seamed.sole p sewn
    exact different (((sole q x).mp one).1.trans ((sole r y).mp two).1.symm)
  refine ⟨a, b, k, l, outer, inner, left, right, ?_, ?_⟩
  · rintro rfl
    exact contractible.loopless a _ (alone (seamed.symm _ _ _ first) (seamed.symm _ _ _ second) apart) through
  · intro n near
    have unsewn := alone (seamed.symm _ _ _ first) near right.1.symm
    have unsewn' := alone (seamed.symm _ _ _ second) (seamed.symm _ _ _ near) left.2.symm
    cases contractible.single a b _ _ unsewn unsewn' through (.last near)

theorem fused (fits : W.Fits o i a b k l) : (W.fused o i a b m).Seamed rest := by
  refine ⟨seamed.symm.fused, ?_, ?_, (ends_once seamed.once).2.2, fun t sewn => ?_⟩
  · rintro u n (⟨old, _⟩ | ⟨_, ⟨rfl, same⟩ | ⟨rfl, same⟩⟩)
    · exact seamed.loopless u n old
    · exact fits.different same
    · exact fits.different same.symm
  · have new : ∀ u v n, (u = a ∧ v = b) ∨ (u = b ∧ v = a) → ¬W u v n := by
      rintro u v n (⟨rfl, rfl⟩ | ⟨rfl, rfl⟩) near
      · exact fits.new n near
      · exact fits.new n (seamed.symm _ _ _ near)
    rintro u v n n' (⟨old, _⟩ | ⟨rfl, ends⟩) (⟨old', _⟩ | ⟨rfl, ends'⟩)
    · exact seamed.single u v n n' old old'
    · exact absurd old (new u v n ends')
    · exact absurd old' (new u v n' ends)
    · rfl
  · have other := seamed.later sewn
    obtain ⟨c, n, sole⟩ := seamed.sole t (sewn_cons.mpr (.inr (.inr sewn)))
    by_cases left : t = a
    · subst left
      exact ⟨b, m, fused_sole seamed.symm fits.outer fits.left fits.different sole⟩
    by_cases right : t = b
    · subst right
      exact ⟨a, m, fused_swap ▸ fused_sole seamed.symm fits.inner fits.right.symm fits.different.symm sole⟩
    · exact ⟨c, n, fun v n' => (fits.elsewhere seamed.symm other ⟨left, right⟩).trans (sole v n')⟩

end Seamed

section

variable [DecidableEq α]

-- The two wires that one fused wire stands for.
def reopened (o i a b : α) (k l : EdgeKind) (wire : α × α × EdgeKind) : List (α × α × EdgeKind) :=
  if wire = (a, b, k.merge l) then [(a, o, k), (i, b, l)]
  else if wire = (b, a, k.merge l) then [(b, i, l), (o, a, k)]
  else [wire]

theorem reopened_twist (wire : α × α × EdgeKind) : twist (reopened o i a b k l wire) = wire.2.2 := by
  obtain ⟨u, v, n⟩ := wire
  unfold reopened
  split
  · rename_i same
    cases same
    rw [twist_cons, twist_single]
  split
  · rename_i same
    cases same
    rw [twist_cons, twist_single, EdgeKind.merge_comm]
  · exact twist_single

theorem twist_reopened : twist (wires.flatMap (reopened o i a b k l)) = twist wires := by
  induction wires with
  | nil => rfl
  | cons wire rest ih => rw [List.flatMap_cons, twist_append, ih, reopened_twist, ← twist_cons]

theorem Fits.fused_reopened (fits : W.Fits o i a b k l) : reopened o i a b k l (a, b, k.merge l) = [(a, o, k), (i, b, l)] ∧
    reopened o i a b k l (b, a, k.merge l) = [(b, i, l), (o, a, k)] := by
  have different : (b, a, k.merge l) ≠ (a, b, k.merge l) := fun same => fits.different (Prod.mk.inj same).1.symm
  exact ⟨if_pos rfl, by rw [reopened, if_neg different, if_pos rfl]⟩

theorem Fits.reopened_inj (fits : W.Fits o i a b k l) (fused : ∀ wire ∈ wires, W.fused o i a b (k.merge l) wire.1 wire.2.1 wire.2.2)
    (fused' : ∀ wire ∈ others, W.fused o i a b (k.merge l) wire.1 wire.2.1 wire.2.2)
    (same : wires.flatMap (reopened o i a b k l) = others.flatMap (reopened o i a b k l)) : wires = others := by
  have nonempty : ∀ wire, reopened o i a b k l wire ≠ [] := by
    intro wire
    unfold reopened
    split
    · exact List.cons_ne_nil _ _
    · split <;> exact List.cons_ne_nil _ _
  induction wires generalizing others with
  | nil =>
    cases others with
    | nil => rfl
    | cons wire _ => exact absurd (List.append_eq_nil_iff.mp same.symm).1 (nonempty wire)
  | cons wire rest ih =>
    cases others with
    | nil => exact absurd (List.append_eq_nil_iff.mp same).1 (nonempty wire)
    | cons wire' rest' =>
      obtain ⟨here, later⟩ := List.forall_mem_cons.mp fused
      obtain ⟨here', later'⟩ := List.forall_mem_cons.mp fused'
      have away := fits.fused_away here
      have away' := fits.fused_away here'
      have different := fits.different
      have apart := fits.apart
      rw [List.flatMap_cons, List.flatMap_cons] at same
      have first : wire = wire' ∧ rest.flatMap (reopened o i a b k l) = rest'.flatMap (reopened o i a b k l) := by
        unfold reopened at same ⊢
        grind
      rw [first.1, ih later later' first.2]

namespace Seamed

variable (seamed : W.Seamed ((o, i) :: rest)) (fits : W.Fits o i a b k l)
include seamed fits

theorem old_reopened (old : W u v n) : reopened o i a b k l (u, v, n) = [(u, v, n)] := by
  have forth : (u, v, n) ≠ (a, b, k.merge l) := by
    rintro same
    cases same
    exact fits.new _ old
  have back : (u, v, n) ≠ (b, a, k.merge l) := by
    rintro same
    cases same
    exact fits.new _ (seamed.symm _ _ _ old)
  rw [reopened, if_neg forth, if_neg back]

theorem reopened_trail (wire : W.fused o i a b (k.merge l) u v n) : Trail W ((o, i) :: rest) u (reopened o i a b k l (u, v, n)) v := by
  have first := (fits.outer a k).mpr ⟨rfl, rfl⟩
  have second := (fits.inner b l).mpr ⟨rfl, rfl⟩
  have met : Met ((o, i) :: rest) o i := .inl List.mem_cons_self
  rcases wire with ⟨old, _⟩ | ⟨rfl, ⟨rfl, rfl⟩ | ⟨rfl, rfl⟩⟩
  · rw [seamed.old_reopened fits old]
    exact .last old
  · rw [fits.fused_reopened.1]
    exact .next (seamed.symm _ _ _ first) met (.last second)
  · rw [fits.fused_reopened.2]
    exact .next (seamed.symm _ _ _ second) met.symm (.last first)

theorem opens (trail : Trail (W.fused o i a b (k.merge l)) rest u wires v) :
    Trail W ((o, i) :: rest) u (wires.flatMap (reopened o i a b k l)) v := by
  induction trail with
  | last wire =>
    rw [List.flatMap_singleton]
    exact seamed.reopened_trail fits wire
  | next wire met _ ih => exact (seamed.reopened_trail fits wire).append (met_cons.mpr (.inr (.inr met))) ih

-- A trail that starts at the pair itself is the rest of one that starts at the far end. The induction
-- goes through the pair, so the three starts are taken together.
theorem closes (trail : Trail W ((o, i) :: rest) u wires v) (away : v ≠ o ∧ v ≠ i) :
    (u ≠ o ∧ u ≠ i → ∃ fused, Trail (W.fused o i a b (k.merge l)) rest u fused v ∧ wires = fused.flatMap (reopened o i a b k l)) ∧
    (u = i → ∃ fused, Trail (W.fused o i a b (k.merge l)) rest a fused v ∧
      (a, o, k) :: wires = fused.flatMap (reopened o i a b k l)) ∧
    (u = o → ∃ fused, Trail (W.fused o i a b (k.merge l)) rest b fused v ∧
      (b, i, l) :: wires = fused.flatMap (reopened o i a b k l)) := by
  obtain ⟨forth, back⟩ := fits.fused_reopened
  have there : W.fused o i a b (k.merge l) a b (k.merge l) := .inr ⟨rfl, .inl ⟨rfl, rfl⟩⟩
  have here : W.fused o i a b (k.merge l) b a (k.merge l) := .inr ⟨rfl, .inr ⟨rfl, rfl⟩⟩
  induction trail with
  | @last u v n wire =>
    refine ⟨fun other => ⟨[(u, v, n)], .last (.inl ⟨wire, other, away⟩), ?_⟩, ?_, ?_⟩
    · rw [List.flatMap_singleton, seamed.old_reopened fits wire]
    · rintro rfl
      obtain ⟨rfl, rfl⟩ := (fits.inner v n).mp wire
      exact ⟨_, .last there, by rw [List.flatMap_singleton, forth]⟩
    · rintro rfl
      obtain ⟨rfl, rfl⟩ := (fits.outer v n).mp wire
      exact ⟨_, .last here, by rw [List.flatMap_singleton, back]⟩
  | @next u x y v n wires wire met _ ih =>
    obtain ⟨plain, inner, outer⟩ := ih away
    obtain ⟨atOuter, atInner, elsewhere⟩ := seamed.meets met
    refine ⟨fun other => ?_, ?_, ?_⟩
    · by_cases toOuter : x = o
      · subst toOuter
        obtain ⟨rfl, rfl⟩ := (fits.outer u n).mp (seamed.symm _ _ _ wire)
        exact inner (atOuter rfl)
      by_cases toInner : x = i
      · subst toInner
        obtain ⟨rfl, rfl⟩ := (fits.inner u n).mp (seamed.symm _ _ _ wire)
        exact outer (atInner rfl)
      obtain ⟨later, next⟩ := elsewhere ⟨toOuter, toInner⟩
      obtain ⟨fused, trail, rfl⟩ := plain next
      refine ⟨_, .next (.inl ⟨wire, other, toOuter, toInner⟩) later trail, ?_⟩
      rw [List.flatMap_cons, seamed.old_reopened fits wire]
      rfl
    · rintro rfl
      obtain ⟨rfl, rfl⟩ := (fits.inner x n).mp wire
      obtain ⟨later, next⟩ := elsewhere fits.right
      obtain ⟨fused, trail, rfl⟩ := plain next
      exact ⟨_, .next there later trail, by rw [List.flatMap_cons, forth]; rfl⟩
    · rintro rfl
      obtain ⟨rfl, rfl⟩ := (fits.outer x n).mp wire
      obtain ⟨later, next⟩ := elsewhere fits.left
      obtain ⟨fused, trail, rfl⟩ := plain next
      exact ⟨_, .next here later trail, by rw [List.flatMap_cons, back]; rfl⟩

theorem trail_iff (left : u ≠ o ∧ u ≠ i) (right : v ≠ o ∧ v ≠ i) : Trail W ((o, i) :: rest) u wires v ↔
    ∃ fused, Trail (W.fused o i a b (k.merge l)) rest u fused v ∧ wires = fused.flatMap (reopened o i a b k l) := by
  constructor
  · exact fun trail => (seamed.closes fits trail right).1 left
  · rintro ⟨fused, trail, rfl⟩
    exact seamed.opens fits trail

theorem opens_between (trail : Trail (W.fused o i a b (k.merge l)) rest u wires v) :
    ((u ≠ o ∧ u ≠ i) ∧ v ≠ o ∧ v ≠ i) ∧ Trail W ((o, i) :: rest) u (wires.flatMap (reopened o i a b k l)) v := by
  obtain ⟨_, _, first⟩ := trail.starts
  obtain ⟨_, _, last⟩ := trail.arrives
  exact ⟨⟨(fits.fused_away first).1, (fits.fused_away last).2⟩, seamed.opens fits trail⟩

theorem fused_contractible (contractible : W.Contractible ((o, i) :: rest)) : (W.fused o i a b (k.merge l)).Contractible rest := by
  refine ⟨fun u wires absent trail => ?_, fun u v wires others left right one two => ?_, fun x y wires met trail => ?_⟩
  · obtain ⟨away, opened⟩ := seamed.opens_between fits trail
    exact contractible.loopless u _ (unsewn_cons.mpr ⟨absent, away.1⟩) opened
  · obtain ⟨away, opened⟩ := seamed.opens_between fits one
    have same := contractible.single u v _ _ (unsewn_cons.mpr ⟨left, away.1⟩) (unsewn_cons.mpr ⟨right, away.2⟩) opened
      (seamed.opens fits two)
    exact fits.reopened_inj one.wired two.wired same
  · exact contractible.unclosed x y _ (met_cons.mpr (.inr (.inr met))) (seamed.opens fits trail)

theorem contractible_of_fused (contractible : (W.fused o i a b (k.merge l)).Contractible rest) : W.Contractible ((o, i) :: rest) := by
  have plain : ∀ {x y wires}, Met rest x y → ¬Trail W ((o, i) :: rest) y wires x := by
    intro x y wires met trail
    obtain ⟨fused, trail, _⟩ := (seamed.trail_iff fits (seamed.later met.symm.left) (seamed.later met.left)).mp trail
    exact contractible.unclosed x y fused met trail
  refine ⟨fun u wires absent trail => ?_, fun u v wires others left right one two => ?_, fun x y wires met trail => ?_⟩
  · obtain ⟨absent, away⟩ := unsewn_cons.mp absent
    obtain ⟨fused, trail, _⟩ := (seamed.trail_iff fits away away).mp trail
    exact contractible.loopless u fused absent trail
  · obtain ⟨left, here⟩ := unsewn_cons.mp left
    obtain ⟨right, there⟩ := unsewn_cons.mp right
    obtain ⟨fused, first, rfl⟩ := (seamed.trail_iff fits here there).mp one
    obtain ⟨fused', second, rfl⟩ := (seamed.trail_iff fits here there).mp two
    rw [contractible.single u v fused fused' left right first second]
  · -- A trail that the pair closes is closed at a far end of the pair too.
    rcases met_cons.mp met with ⟨rfl, rfl⟩ | ⟨rfl, rfl⟩ | later
    · obtain ⟨z, others, met, trail⟩ := trail.turned fits.inner met fits.right.1
      exact plain ((seamed.meets met).2.2 fits.right).1 trail
    · obtain ⟨z, others, met, trail⟩ := trail.turned fits.outer met fits.left.2
      exact plain ((seamed.meets met).2.2 fits.left).1 trail
    · exact plain later trail

theorem contracted_eq : W.contracted ((o, i) :: rest) = (W.fused o i a b (k.merge l)).contracted rest := by
  funext u v n
  simp only [contracted, unsewn_cons, eq_iff_iff]
  constructor
  · rintro ⟨⟨left, here⟩, ⟨right, there⟩, wires, trail, twisted⟩
    obtain ⟨fused, shorter, rfl⟩ := (seamed.trail_iff fits here there).mp trail
    exact ⟨left, right, fused, shorter, twist_reopened.symm.trans twisted⟩
  · rintro ⟨left, right, fused, trail, twisted⟩
    obtain ⟨away, opened⟩ := seamed.opens_between fits trail
    exact ⟨⟨left, away.1⟩, ⟨right, away.2⟩, _, opened, twist_reopened.trans twisted⟩

end Seamed

-- Fusing pair after pair is sewing them all at once, and it stops just when that would leave
-- something other than a simple graph.
theorem Seamed.fuseAll_iff (seamed : W.Seamed pairs) : FuseAll W pairs V ↔ W.Contractible pairs ∧ V = W.contracted pairs := by
  induction pairs generalizing W with
  | nil =>
    obtain ⟨contractible, same⟩ := seamed.contracted_nil
    constructor
    · intro steps
      cases steps
      exact ⟨contractible, same.symm⟩
    · rintro ⟨_, rfl⟩
      exact same.symm ▸ .nil
  | cons pair rest ih =>
    obtain ⟨o, i⟩ := pair
    constructor
    · intro steps
      cases steps with
      | cons first steps =>
        obtain ⟨a, b, k, l, fits, rfl⟩ := first
        obtain ⟨contractible, rfl⟩ := (ih (seamed.fused fits)).mp steps
        exact ⟨seamed.contractible_of_fused fits contractible, (seamed.contracted_eq fits).symm⟩
    · rintro ⟨contractible, rfl⟩
      obtain ⟨a, b, k, l, fits⟩ := seamed.fits contractible
      have later := (ih (seamed.fused fits)).mpr ⟨seamed.fused_contractible fits contractible, seamed.contracted_eq fits⟩
      exact .cons ⟨a, b, k, l, fits, rfl⟩ later

end

end ToffoliBench.Wiring
