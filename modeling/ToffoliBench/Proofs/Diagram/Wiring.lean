import Mathlib.Data.List.Nodup
import Mathlib.Data.List.Perm.Basic
import ToffoliBench.Diagram.Vertex

namespace ToffoliBench

namespace EdgeKind

theorem merge_comm (k l : EdgeKind) : k.merge l = l.merge k := by cases k <;> cases l <;> rfl

theorem merge_right_comm (k l m : EdgeKind) : (k.merge l).merge m = (k.merge m).merge l := by
  cases k <;> cases l <;> cases m <;> rfl

theorem merge_simple (k : EdgeKind) : k.merge .simple = k := by cases k <;> rfl

end EdgeKind

-- Which two places a wire of a kind joins.
abbrev Wiring (α : Type) := α → α → EdgeKind → Prop

namespace Wiring

variable {α : Type} {W V U : Wiring α} {o i p j a b c e u v : α} {k l m n : EdgeKind} {pairs others : List (α × α)}

-- The ends of pairs, those of the first pair in front.
theorem ends_cons (o i : α) (rest : List (α × α)) : (((o, i) :: rest).map Prod.fst ++ ((o, i) :: rest).map Prod.snd).Perm
    (o :: i :: (rest.map Prod.fst ++ rest.map Prod.snd)) :=
  List.perm_middle.cons o

theorem ends_outside : v ∉ ((o, i) :: pairs).map Prod.fst ++ ((o, i) :: pairs).map Prod.snd ↔
    (v ≠ o ∧ v ≠ i) ∧ v ∉ pairs.map Prod.fst ++ pairs.map Prod.snd := by
  rw [(ends_cons o i pairs).mem_iff, List.mem_cons, List.mem_cons, not_or, not_or, and_assoc]

theorem ends_once (once : (((o, i) :: pairs).map Prod.fst ++ ((o, i) :: pairs).map Prod.snd).Nodup) :
    o ≠ i ∧ (∀ v ∈ pairs.map Prod.fst ++ pairs.map Prod.snd, v ≠ o ∧ v ≠ i) ∧ (pairs.map Prod.fst ++ pairs.map Prod.snd).Nodup := by
  obtain ⟨outer, once⟩ := List.nodup_cons.mp ((ends_cons o i pairs).nodup_iff.mp once)
  obtain ⟨inner, once⟩ := List.nodup_cons.mp once
  rw [List.mem_cons, not_or] at outer
  exact ⟨outer.1, fun v held => ⟨fun same => outer.2 (same ▸ held), fun same => inner (same ▸ held)⟩, once⟩

theorem ends_all {p : α → Prop} (all : ∀ v ∈ ((o, i) :: pairs).map Prod.fst ++ ((o, i) :: pairs).map Prod.snd, p v) :
    p o ∧ p i ∧ ∀ v ∈ pairs.map Prod.fst ++ pairs.map Prod.snd, p v := by
  obtain ⟨outer, all⟩ := List.forall_mem_cons.mp fun v held => all v ((ends_cons o i pairs).mem_iff.mpr held)
  exact ⟨outer, List.forall_mem_cons.mp all⟩

def Symm (W : Wiring α) : Prop := ∀ u v m, W u v m → W v u m

-- The one wire of a place.
def Sole (W : Wiring α) (o a : α) (k : EdgeKind) : Prop := ∀ v m, W o v m ↔ v = a ∧ m = k

structure Fits (W : Wiring α) (o i a b : α) (k l : EdgeKind) : Prop where
  outer : W.Sole o a k
  inner : W.Sole i b l
  left : a ≠ o ∧ a ≠ i
  right : b ≠ o ∧ b ≠ i
  different : a ≠ b
  new : ∀ m, ¬W a b m

def fused (W : Wiring α) (o i a b : α) (m : EdgeKind) : Wiring α := fun u v n =>
  (W u v n ∧ (u ≠ o ∧ u ≠ i) ∧ v ≠ o ∧ v ≠ i) ∨ (n = m ∧ ((u = a ∧ v = b) ∨ (u = b ∧ v = a)))

-- The two places of a pair are fused.
def Fuse (W : Wiring α) (pair : α × α) (V : Wiring α) : Prop :=
  ∃ a b k l, W.Fits pair.1 pair.2 a b k l ∧ V = W.fused pair.1 pair.2 a b (k.merge l)

theorem Symm.fused (symm : W.Symm) : (W.fused o i a b m).Symm := by
  rintro u v n (⟨old, left, right⟩ | ⟨kind, ends⟩)
  · exact .inl ⟨symm u v n old, right, left⟩
  · exact .inr ⟨kind, ends.symm.imp And.symm And.symm⟩

theorem Fuse.symm {pair : α × α} (fuse : W.Fuse pair V) (symm : W.Symm) : V.Symm := by
  obtain ⟨a, b, k, l, _, rfl⟩ := fuse
  exact symm.fused

theorem fused_swap : W.fused o i a b m = W.fused i o b a m := by
  funext u v n
  simp only [fused]
  grind

theorem Fuse.swap (fuse : W.Fuse (o, i) V) (symm : W.Symm) : W.Fuse (i, o) V := by
  obtain ⟨a, b, k, l, fits, rfl⟩ := fuse
  refine ⟨b, a, l, k, ⟨fits.inner, fits.outer, fits.right.symm, fits.left.symm, fits.different.symm, fun m near => ?_⟩, ?_⟩
  · exact fits.new m (symm b a m near)
  · rw [fused_swap, EdgeKind.merge_comm]

theorem Fits.apart (fits : W.Fits o i a b k l) : o ≠ i := by
  rintro rfl
  exact fits.different ((fits.inner a k).mp ((fits.outer a k).mpr ⟨rfl, rfl⟩)).1

-- Away from the fused places and their far ends nothing changes.
theorem Fits.elsewhere (fits : W.Fits o i a b k l) (symm : W.Symm) {q : α} (outer : q ≠ o ∧ q ≠ i) (far : q ≠ a ∧ q ≠ b) :
    W.fused o i a b m q v n ↔ W q v n := by
  constructor
  · rintro (⟨old, _⟩ | ⟨_, ⟨same, _⟩ | ⟨same, _⟩⟩)
    · exact old
    · exact absurd same far.1
    · exact absurd same far.2
  · intro old
    refine .inl ⟨old, outer, ?_, ?_⟩
    · rintro rfl
      exact far.1 ((fits.outer q n).mp (symm q v n old)).1
    · rintro rfl
      exact far.2 ((fits.inner q n).mp (symm q v n old)).1

theorem Fits.unmet (fits : W.Fits o i a b k l) (symm : W.Symm) {q : α} (far : q ≠ a ∧ q ≠ b) : ¬W q o n ∧ ¬W q i n :=
  ⟨fun near => far.1 ((fits.outer q n).mp (symm q o n near)).1, fun near => far.2 ((fits.inner q n).mp (symm q i n near)).1⟩

section

variable (symm : W.Symm) (first : W.Fits o i a b k l) (second : (W.fused o i a b (k.merge l)).Fits p j c e m n)
  (apart : (p ≠ o ∧ p ≠ i) ∧ j ≠ o ∧ j ≠ i)
include symm first second apart

theorem commute_apart (outer : p ≠ a ∧ p ≠ b) (inner : j ≠ a ∧ j ≠ b) :
    ∃ V, W.Fuse (p, j) V ∧ V.Fuse (o, i) ((W.fused o i a b (k.merge l)).fused p j c e (m.merge n)) := by
  have outerSole : W.Sole p c m := fun v x => (first.elsewhere symm apart.1 outer).symm.trans (second.outer v x)
  have innerSole : W.Sole j e n := fun v x => (first.elsewhere symm apart.2 inner).symm.trans (second.inner v x)
  have farOuter : c ≠ o ∧ c ≠ i :=
    ⟨fun same => (first.unmet symm outer).1 (same ▸ (outerSole c m).mpr ⟨rfl, rfl⟩),
      fun same => (first.unmet symm outer).2 (same ▸ (outerSole c m).mpr ⟨rfl, rfl⟩)⟩
  have farInner : e ≠ o ∧ e ≠ i :=
    ⟨fun same => (first.unmet symm inner).1 (same ▸ (innerSole e n).mpr ⟨rfl, rfl⟩),
      fun same => (first.unmet symm inner).2 (same ▸ (innerSole e n).mpr ⟨rfl, rfl⟩)⟩
  have fits : W.Fits p j c e m n := ⟨outerSole, innerSole, second.left, second.right, second.different,
    fun x near => second.new x (.inl ⟨near, farOuter, farInner⟩)⟩
  refine ⟨_, ⟨c, e, m, n, fits, rfl⟩, a, b, k, l, ⟨fun v x => ?_, fun v x => ?_, first.left, first.right, first.different, fun x near => ?_⟩, ?_⟩
  · exact (fits.elsewhere symm ⟨apart.1.1.symm, apart.2.1.symm⟩ ⟨farOuter.1.symm, farInner.1.symm⟩).trans (first.outer v x)
  · exact (fits.elsewhere symm ⟨apart.1.2.symm, apart.2.2.symm⟩ ⟨farOuter.2.symm, farInner.2.symm⟩).trans (first.inner v x)
  · -- A wire between the far ends of the first pair would be one between those of the second.
    rcases near with ⟨old, _⟩ | ⟨_, ends⟩
    · exact first.new x old
    · exact second.new _ (.inr ⟨rfl, by grind⟩)
  · funext u v x
    simp only [fused]
    grind

-- The second pair begins where the first one ends.
theorem commute_chained (chained : p = a) :
    ∃ V, W.Fuse (p, j) V ∧ V.Fuse (o, i) ((W.fused o i a b (k.merge l)).fused p j c e (m.merge n)) := by
  subst chained
  have next : b = c ∧ k.merge l = m := (second.outer b (k.merge l)).mp (.inr ⟨rfl, .inl ⟨rfl, rfl⟩⟩)
  obtain ⟨rfl, rfl⟩ := next
  have inner : j ≠ p ∧ j ≠ b := ⟨second.apart.symm, second.left.2.symm⟩
  have innerSole : W.Sole j e n := fun v x => (first.elsewhere symm apart.2 inner).symm.trans (second.inner v x)
  have farInner : e ≠ o ∧ e ≠ i :=
    ⟨fun same => (first.unmet symm inner).1 (same ▸ (innerSole e n).mpr ⟨rfl, rfl⟩),
      fun same => (first.unmet symm inner).2 (same ▸ (innerSole e n).mpr ⟨rfl, rfl⟩)⟩
  -- Before anything is fused the one wire of the second pair's place leads back.
  have outerSole : W.Sole p o k := by
    intro v x
    constructor
    · intro near
      by_cases back : v = o
      · subst back
        exact ⟨rfl, ((first.outer p x).mp (symm p v x near)).2⟩
      · have other : v ≠ i := by
          rintro rfl
          exact first.different ((first.inner p x).mp (symm p v x near)).1
        have kept := (second.outer v x).mp (.inl ⟨near, apart.1, back, other⟩)
        exact absurd (kept.1 ▸ near) (first.new x)
    · rintro ⟨rfl, rfl⟩
      exact symm v p x ((first.outer p x).mpr ⟨rfl, rfl⟩)
  have fits : W.Fits p j o e k n := by
    refine ⟨outerSole, innerSole, ⟨apart.1.1.symm, apart.2.1.symm⟩, second.right, farInner.1.symm, fun x near => ?_⟩
    exact second.right.1 ((first.outer e x).mp near).1
  refine ⟨_, ⟨o, e, k, n, fits, rfl⟩, e, b, k.merge n, l, ⟨fun v x => ?_, fun v x => ?_, farInner, first.right,
    second.different.symm, fun x near => ?_⟩, ?_⟩
  · have start := first.outer v x
    have back := fits.left
    simp only [fused]
    grind
  · exact (fits.elsewhere symm ⟨apart.1.2.symm, apart.2.2.symm⟩ ⟨first.apart.symm, farInner.2.symm⟩).trans (first.inner v x)
  · rcases near with ⟨old, _⟩ | ⟨_, ⟨same, _⟩ | ⟨_, same⟩⟩
    · exact second.new x (.inl ⟨symm e b x old, first.right, farInner⟩)
    · exact farInner.1 same
    · exact first.right.1 same
  · rw [EdgeKind.merge_right_comm k n l]
    funext u v x
    have one := first.outer
    have two := first.inner
    have three := second.right
    have four := second.left
    have five := first.right
    simp only [fused]
    grind

end

-- Pairs that share no place.
def Apart (x y : α × α) : Prop := (y.1 ≠ x.1 ∧ y.1 ≠ x.2) ∧ y.2 ≠ x.1 ∧ y.2 ≠ x.2

theorem Fuse.commute_at (symm : W.Symm) (first : W.Fuse (o, i) V) (second : V.Fuse (p, j) U) (apart : Apart (o, i) (p, j))
    (met : W.Sole o p k) : ∃ V, W.Fuse (p, j) V ∧ V.Fuse (o, i) U := by
  obtain ⟨a, b, k', l, fits, rfl⟩ := first
  obtain ⟨c, e, m, n, fits', rfl⟩ := second
  have here : p = a := ((fits.outer p k).mp ((met p k).mpr ⟨rfl, rfl⟩)).1
  exact commute_chained symm fits fits' apart here

theorem Fuse.commute (symm : W.Symm) (first : W.Fuse (o, i) V) (second : V.Fuse (p, j) U) (apart : Apart (o, i) (p, j)) :
    ∃ V, W.Fuse (p, j) V ∧ V.Fuse (o, i) U := by
  -- Either end of the second pair may be at either far end of the first.
  have outer : ∀ {q r}, V.Fuse (q, r) U → Apart (o, i) (q, r) → (∃ k, W.Sole o q k ∨ W.Sole i q k) →
      ∃ V, W.Fuse (q, r) V ∧ V.Fuse (o, i) U := by
    rintro q r fuse away ⟨k, met | met⟩
    · exact first.commute_at symm fuse away met
    · obtain ⟨V', one, two⟩ := (first.swap symm).commute_at symm fuse ⟨away.1.symm, away.2.symm⟩ met
      exact ⟨V', one, two.swap (one.symm symm)⟩
  by_cases left : ∃ k, W.Sole o p k ∨ W.Sole i p k
  · exact outer second apart left
  by_cases right : ∃ k, W.Sole o j k ∨ W.Sole i j k
  · obtain ⟨V', one, two⟩ := outer (second.swap (first.symm symm)) ⟨apart.2, apart.1⟩ right
    exact ⟨V', one.swap symm, two⟩
  obtain ⟨a, b, k, l, fits, rfl⟩ := first
  obtain ⟨c, e, m, n, fits', rfl⟩ := second
  have away : ∀ q, (¬∃ k, W.Sole o q k ∨ W.Sole i q k) → q ≠ a ∧ q ≠ b := fun q none =>
    ⟨fun same => none ⟨k, .inl (same ▸ fits.outer)⟩, fun same => none ⟨l, .inr (same ▸ fits.inner)⟩⟩
  exact commute_apart symm fits fits' apart (away p left) (away j right)

-- Pair after pair.
inductive FuseAll : Wiring α → List (α × α) → Wiring α → Prop
  | nil {W : Wiring α} : FuseAll W [] W
  | cons {W V U : Wiring α} {pair : α × α} {rest : List (α × α)} (first : W.Fuse pair V) (others : FuseAll V rest U) :
      FuseAll W (pair :: rest) U

theorem FuseAll.symm (steps : FuseAll W pairs V) (symm : W.Symm) : V.Symm := by
  induction steps with
  | nil => exact symm
  | cons first _ ih => exact ih (first.symm symm)

theorem fuseAll_append : FuseAll W (pairs ++ others) U ↔ ∃ V, FuseAll W pairs V ∧ FuseAll V others U := by
  induction pairs generalizing W with
  | nil =>
    constructor
    · exact fun steps => ⟨W, .nil, steps⟩
    · rintro ⟨V, steps, rest⟩
      cases steps
      exact rest
  | cons pair rest ih =>
    constructor
    · intro steps
      cases steps with
      | cons first steps =>
        obtain ⟨V, early, late⟩ := ih.mp steps
        exact ⟨V, .cons first early, late⟩
    · rintro ⟨V, steps, late⟩
      cases steps with
      | cons first early => exact .cons first (ih.mpr ⟨V, early, late⟩)

theorem Apart.symm {x y : α × α} (apart : Apart x y) : Apart y x :=
  ⟨⟨apart.1.1.symm, apart.2.1.symm⟩, apart.1.2.symm, apart.2.2.symm⟩

theorem FuseAll.perm (same : pairs.Perm others) (symm : W.Symm) (apart : pairs.Pairwise Apart) (steps : FuseAll W pairs V) :
    FuseAll W others V := by
  induction same generalizing W with
  | nil => exact steps
  | cons pair _ ih =>
    cases steps with
    | cons first rest => exact .cons first (ih (first.symm symm) apart.of_cons rest)
  | swap x y rest =>
    cases steps with
    | cons first steps =>
      cases steps with
      | cons second late =>
        obtain ⟨U, one, two⟩ := first.commute symm second ((List.pairwise_cons.mp apart).1 x List.mem_cons_self)
        exact .cons one (.cons two late)
  | trans one _ ihOne ihTwo =>
    exact ihTwo symm (one.pairwise apart Apart.symm) (ihOne symm apart steps)

-- Two wirings beside each other.
def beside (W V : Wiring α) : Wiring α := fun u v m => W u v m ∨ V u v m

def Within (W : Wiring α) (S : α → Prop) : Prop := ∀ u v m, W u v m → S u ∧ S v

theorem Symm.beside (symm : W.Symm) (symm' : V.Symm) : (W.beside V).Symm :=
  fun u v m => Or.imp (symm u v m) (symm' u v m)

theorem beside_comm (W V : Wiring α) : W.beside V = V.beside W := by
  funext u v m
  exact propext or_comm

theorem beside_assoc (W V U : Wiring α) : (W.beside V).beside U = W.beside (V.beside U) := by
  funext u v m
  exact propext or_assoc

theorem beside_sole {S T : α → Prop} (withinOther : V.Within T) (disjoint : ∀ u, S u → ¬T u) (inside : S o) : (W.beside V).Sole o a k ↔ W.Sole o a k := by
  have only : ∀ v m, (W.beside V) o v m ↔ W o v m := fun v m =>
    ⟨fun near => near.resolve_right fun far => disjoint o inside (withinOther o v m far).1, .inl⟩
  exact forall₂_congr fun v m => by rw [only]

section

variable {S T : α → Prop} (within : W.Within S) (withinOther : V.Within T) (disjoint : ∀ u, S u → ¬T u)
include within withinOther disjoint

theorem beside_fuse (outer : S o) (inner : S i) :
    (W.beside V).Fuse (o, i) U ↔ ∃ W', W.Fuse (o, i) W' ∧ U = W'.beside V := by
  have far : ∀ {o a k}, W.Sole o a k → S a := fun {o a k} sole => (within o a k ((sole a k).mpr ⟨rfl, rfl⟩)).2
  have split : ∀ a b m, S a → S b → (W.beside V).fused o i a b m = (W.fused o i a b m).beside V := by
    intro a b m left right
    funext u v n
    have away := withinOther u v n
    have notOuter := disjoint o outer
    have notInner := disjoint i inner
    simp only [fused, beside]
    grind
  constructor
  · rintro ⟨a, b, k, l, fits, rfl⟩
    have outerSole := (beside_sole withinOther disjoint outer).mp fits.outer
    have innerSole := (beside_sole withinOther disjoint inner).mp fits.inner
    exact ⟨_, ⟨a, b, k, l, ⟨outerSole, innerSole, fits.left, fits.right, fits.different, fun m near => fits.new m (.inl near)⟩, rfl⟩,
      split a b _ (far outerSole) (far innerSole)⟩
  · rintro ⟨_, ⟨a, b, k, l, fits, rfl⟩, rfl⟩
    refine ⟨a, b, k, l, ⟨(beside_sole withinOther disjoint outer).mpr fits.outer,
      (beside_sole withinOther disjoint inner).mpr fits.inner, fits.left, fits.right, fits.different, ?_⟩,
      (split a b _ (far fits.outer) (far fits.inner)).symm⟩
    rintro m (near | near)
    · exact fits.new m near
    · exact disjoint a (far fits.outer) (withinOther a b m near).1

end

-- No wire is left at a fused place, and none leads outside.
theorem Fuse.cleared {S : α → Prop} {pair : α × α} (fuse : W.Fuse pair V) (within : W.Within S) :
    V.Within fun t => S t ∧ t ≠ pair.1 ∧ t ≠ pair.2 := by
  obtain ⟨a, b, k, l, fits, rfl⟩ := fuse
  have left := (within _ _ _ ((fits.outer a k).mpr ⟨rfl, rfl⟩)).2
  have right := (within _ _ _ ((fits.inner b l).mpr ⟨rfl, rfl⟩)).2
  rintro u v m (⟨old, near, far⟩ | ⟨_, ⟨rfl, rfl⟩ | ⟨rfl, rfl⟩⟩)
  · obtain ⟨one, two⟩ := within u v m old
    exact ⟨⟨one, near⟩, two, far⟩
  · exact ⟨⟨left, fits.left⟩, right, fits.right⟩
  · exact ⟨⟨right, fits.right⟩, left, fits.left⟩

theorem Fuse.within {S : α → Prop} {pair : α × α} (fuse : W.Fuse pair V) (within : W.Within S) : V.Within S :=
  fun u v m near => (fuse.cleared within u v m near).imp And.left And.left

theorem FuseAll.cleared {S : α → Prop} (steps : FuseAll W pairs V) (within : W.Within S) :
    V.Within fun t => S t ∧ t ∉ pairs.map Prod.fst ∧ t ∉ pairs.map Prod.snd := by
  induction steps generalizing S with
  | nil => simpa using within
  | cons first _ ih =>
    intro u v m near
    obtain ⟨left, right⟩ := ih (first.cleared within) u v m near
    simp only [List.map_cons, List.mem_cons, not_or]
    exact ⟨⟨left.1.1, ⟨left.1.2.1, left.2.1⟩, left.1.2.2, left.2.2⟩, right.1.1, ⟨right.1.2.1, right.2.1⟩, right.1.2.2, right.2.2⟩

-- It does not matter on which side of a pair a place stands.
theorem FuseAll.swap (steps : FuseAll W pairs V) (symm : W.Symm) : FuseAll W (pairs.map Prod.swap) V := by
  induction steps with
  | nil => exact .nil
  | cons first _ ih => exact .cons (first.swap symm) (ih (first.symm symm))

theorem beside_fuseAll {S T : α → Prop} (within : W.Within S) (withinOther : V.Within T) (disjoint : ∀ u, S u → ¬T u)
    (inside : ∀ pair ∈ pairs, S pair.1 ∧ S pair.2) :
    FuseAll (W.beside V) pairs U ↔ ∃ W', FuseAll W pairs W' ∧ U = W'.beside V := by
  induction pairs generalizing W with
  | nil =>
    constructor
    · intro steps
      cases steps
      exact ⟨W, .nil, rfl⟩
    · rintro ⟨_, steps, rfl⟩
      cases steps
      exact .nil
  | cons pair rest ih =>
    obtain ⟨here, later⟩ := List.forall_mem_cons.mp inside
    have one := fun U => beside_fuse (U := U) within withinOther disjoint here.1 here.2
    constructor
    · intro steps
      cases steps with
      | cons first others =>
        obtain ⟨W', fuse, rfl⟩ := (one _).mp first
        obtain ⟨W'', more, rfl⟩ := (ih (fuse.within within) later).mp others
        exact ⟨W'', .cons fuse more, rfl⟩
    · rintro ⟨_, steps, rfl⟩
      cases steps with
      | cons fuse more => exact .cons ((one _).mpr ⟨_, fuse, rfl⟩) ((ih (fuse.within within) later).mpr ⟨_, more, rfl⟩)

-- The same wires between places that go by other names.
def moved {β : Type} (f : α → β) (W : Wiring α) : Wiring β := fun v w m => ∃ t u, f t = v ∧ f u = w ∧ W t u m

theorem moved_beside {β : Type} (f : α → β) (W V : Wiring α) : (W.beside V).moved f = (W.moved f).beside (V.moved f) := by
  funext v w m
  refine propext ⟨?_, ?_⟩
  · rintro ⟨t, u, left, right, near | near⟩
    · exact .inl ⟨t, u, left, right, near⟩
    · exact .inr ⟨t, u, left, right, near⟩
  · rintro (⟨t, u, left, right, near⟩ | ⟨t, u, left, right, near⟩)
    · exact ⟨t, u, left, right, .inl near⟩
    · exact ⟨t, u, left, right, .inr near⟩

theorem moved_moved {β γ : Type} (f : α → β) (g : β → γ) (W : Wiring α) : (W.moved f).moved g = W.moved (g ∘ f) := by
  funext v w m
  refine propext ⟨?_, ?_⟩
  · rintro ⟨_, _, rfl, rfl, t, u, rfl, rfl, near⟩
    exact ⟨t, u, rfl, rfl, near⟩
  · rintro ⟨t, u, rfl, rfl, near⟩
    exact ⟨f t, f u, rfl, rfl, t, u, rfl, rfl, near⟩

theorem Symm.moved {β : Type} (symm : W.Symm) (f : α → β) : (W.moved f).Symm := by
  rintro v w m ⟨t, u, left, right, near⟩
  exact ⟨u, t, right, left, symm t u m near⟩

-- Names are as good as the places they stand for.
def Names {β : Type} (f : α → β) (S : α → Prop) : Prop := ∀ t u, S t → S u → f t = f u → t = u

section

variable {β : Type} {f : α → β} {S : α → Prop} {X : Wiring β} (within : W.Within S) (names : Names f S)
include within names

theorem moved_iff {t u : α} (left : S t) (right : S u) : W.moved f (f t) (f u) m ↔ W t u m := by
  constructor
  · rintro ⟨t', u', one, two, near⟩
    obtain ⟨leftLive, rightLive⟩ := within t' u' m near
    obtain rfl := names t' t leftLive left one
    obtain rfl := names u' u rightLive right two
    exact near
  · exact fun near => ⟨t, u, rfl, rfl, near⟩

theorem moved_sole (outer : S o) (far : S a) : (W.moved f).Sole (f o) (f a) k ↔ W.Sole o a k := by
  constructor
  · intro sole v m
    constructor
    · intro near
      have live := (within o v m near).2
      obtain ⟨same, kind⟩ := (sole (f v) m).mp ((moved_iff within names outer live).mpr near)
      exact ⟨names v a live far same, kind⟩
    · rintro ⟨rfl, rfl⟩
      exact (moved_iff within names outer far).mp ((sole (f v) m).mpr ⟨rfl, rfl⟩)
  · intro sole v m
    constructor
    · rintro ⟨t, u, here, rfl, near⟩
      obtain rfl := names t o (within t u m near).1 outer here
      obtain ⟨rfl, rfl⟩ := (sole u m).mp near
      exact ⟨rfl, rfl⟩
    · rintro ⟨rfl, rfl⟩
      exact ⟨o, a, rfl, rfl, (sole a m).mpr ⟨rfl, rfl⟩⟩

theorem moved_fused (outer : S o) (inner : S i) (left : S a) (right : S b) :
    (W.moved f).fused (f o) (f i) (f a) (f b) m = (W.fused o i a b m).moved f := by
  have other : ∀ {t u}, S t → S u → (f t ≠ f u ↔ t ≠ u) := fun {t u} one two =>
    not_congr ⟨names t u one two, congrArg f⟩
  funext v w n
  refine propext ⟨?_, ?_⟩
  · rintro (⟨⟨t, u, rfl, rfl, near⟩, one, two⟩ | ⟨rfl, ⟨rfl, rfl⟩ | ⟨rfl, rfl⟩⟩)
    · obtain ⟨tLive, uLive⟩ := within t u n near
      rw [other tLive outer, other tLive inner] at one
      rw [other uLive outer, other uLive inner] at two
      exact ⟨t, u, rfl, rfl, .inl ⟨near, one, two⟩⟩
    · exact ⟨a, b, rfl, rfl, .inr ⟨rfl, .inl ⟨rfl, rfl⟩⟩⟩
    · exact ⟨b, a, rfl, rfl, .inr ⟨rfl, .inr ⟨rfl, rfl⟩⟩⟩
  · rintro ⟨t, u, rfl, rfl, ⟨near, one, two⟩ | ⟨rfl, ⟨rfl, rfl⟩ | ⟨rfl, rfl⟩⟩⟩
    · obtain ⟨tLive, uLive⟩ := within t u n near
      rw [← other tLive outer, ← other tLive inner] at one
      rw [← other uLive outer, ← other uLive inner] at two
      exact .inl ⟨⟨t, u, rfl, rfl, near⟩, one, two⟩
    · exact .inr ⟨rfl, .inl ⟨rfl, rfl⟩⟩
    · exact .inr ⟨rfl, .inr ⟨rfl, rfl⟩⟩

theorem moved_fits (outer : S o) (inner : S i) (left : S a) (right : S b) :
    (W.moved f).Fits (f o) (f i) (f a) (f b) k l ↔ W.Fits o i a b k l := by
  have other : ∀ {t u}, S t → S u → (f t ≠ f u ↔ t ≠ u) := fun {t u} one two =>
    not_congr ⟨names t u one two, congrArg f⟩
  have near : ∀ m, W.moved f (f a) (f b) m ↔ W a b m := fun m => moved_iff within names left right
  constructor
  · intro fits
    have away := fits.left
    have away' := fits.right
    rw [other left outer, other left inner] at away
    rw [other right outer, other right inner] at away'
    exact ⟨(moved_sole within names outer left).mp fits.outer, (moved_sole within names inner right).mp fits.inner, away, away',
      (other left right).mp fits.different, fun m joined => fits.new m ((near m).mpr joined)⟩
  · intro fits
    exact ⟨(moved_sole within names outer left).mpr fits.outer, (moved_sole within names inner right).mpr fits.inner,
      ⟨(other left outer).mpr fits.left.1, (other left inner).mpr fits.left.2⟩,
      ⟨(other right outer).mpr fits.right.1, (other right inner).mpr fits.right.2⟩,
      (other left right).mpr fits.different, fun m joined => fits.new m ((near m).mp joined)⟩

theorem moved_fuse (outer : S o) (inner : S i) :
    (W.moved f).Fuse (f o, f i) X ↔ ∃ V, W.Fuse (o, i) V ∧ X = V.moved f := by
  constructor
  · rintro ⟨x, y, k, l, fits, rfl⟩
    obtain ⟨t, a, _, rfl, near⟩ := (fits.outer x k).mpr ⟨rfl, rfl⟩
    obtain ⟨u, b, _, rfl, near'⟩ := (fits.inner y l).mpr ⟨rfl, rfl⟩
    have left := (within t a k near).2
    have right := (within u b l near').2
    exact ⟨_, ⟨a, b, k, l, (moved_fits within names outer inner left right).mp fits, rfl⟩,
      moved_fused within names outer inner left right⟩
  · rintro ⟨_, ⟨a, b, k, l, fits, rfl⟩, rfl⟩
    have left := (within o a k ((fits.outer a k).mpr ⟨rfl, rfl⟩)).2
    have right := (within i b l ((fits.inner b l).mpr ⟨rfl, rfl⟩)).2
    exact ⟨f a, f b, k, l, (moved_fits within names outer inner left right).mpr fits,
      (moved_fused within names outer inner left right).symm⟩

theorem moved_fuseAll (inside : ∀ pair ∈ pairs, S pair.1 ∧ S pair.2) :
    FuseAll (W.moved f) (pairs.map (Prod.map f f)) X ↔ ∃ V, FuseAll W pairs V ∧ X = V.moved f := by
  induction pairs generalizing W with
  | nil =>
    constructor
    · intro steps
      cases steps
      exact ⟨W, .nil, rfl⟩
    · rintro ⟨_, steps, rfl⟩
      cases steps
      exact .nil
  | cons pair rest ih =>
    obtain ⟨here, later⟩ := List.forall_mem_cons.mp inside
    have one := fun X => moved_fuse (X := X) within names here.1 here.2
    constructor
    · intro steps
      cases steps with
      | cons first others =>
        obtain ⟨V, fuse, rfl⟩ := (one _).mp first
        obtain ⟨U, more, rfl⟩ := (ih (fuse.within within) later).mp others
        exact ⟨U, .cons fuse more, rfl⟩
    · rintro ⟨_, steps, rfl⟩
      cases steps with
      | cons fuse more => exact .cons ((one _).mpr ⟨_, fuse, rfl⟩) ((ih (fuse.within within) later).mpr ⟨_, more, rfl⟩)

end

end Wiring

end ToffoliBench
