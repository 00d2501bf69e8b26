import ToffoliBench.Proofs.Circuit.Lines
import ToffoliBench.Proofs.Diagram.Depiction
import ToffoliBench.Proofs.Diagram.Strands
import ToffoliBench.Proofs.Numbers.Turn

namespace ToffoliBench

open Wiring

namespace Diagram
open Outcome

variable {d e : Diagram} {f g : Nat → Nat} {vs : List Nat} {v w : Nat}

-- The same diagram under other names.
structure Renamed (f : Nat → Nat) (d e : Diagram) : Prop where
  names : ∀ v ∈ d.ids, ∀ w ∈ d.ids, f v = f w → v = w
  vertices : (e.vertices.map fun entry => (entry.1, entry.2.label)).Perm (d.vertices.map fun entry => (f entry.1, entry.2.label))
  edges : e.edges.Perm (d.edges.map (·.moved f))
  inputs : e.inputs = d.inputs.map f
  outputs : e.outputs = d.outputs.map f
  scalar : e.scalar = d.scalar

def Alike (d e : Diagram) : Prop := ∃ f, Renamed f d e

theorem Sound.edges_once (sound : d.Sound) : d.edges.Nodup := sound.sorted.imp fun {x y} earlier same => by
  rw [same, Edge.before_iff] at earlier
  omega

theorem Sound.vertices_moved_once (sound : d.Sound) (injective : ∀ v ∈ d.ids, ∀ w ∈ d.ids, f v = f w → v = w) :
    (d.vertices.map fun entry => (f entry.1, entry.2.label)).Nodup := by
  refine List.Nodup.of_map Prod.fst ?_
  rw [List.map_map, show Prod.fst ∘ (fun entry : Nat × Vertex => (f entry.1, entry.2.label)) = f ∘ Prod.fst from rfl, ← List.map_map]
  exact sound.nodup.map_on injective

theorem Sound.edges_moved_once (sound : d.Sound) (injective : ∀ v ∈ d.ids, ∀ w ∈ d.ids, f v = f w → v = w) :
    (d.edges.map (·.moved f)).Nodup := by
  refine sound.edges_once.map_on fun x listed y listed' equal => ?_
  obtain ⟨xLow, xHigh⟩ := sound.live x listed
  obtain ⟨yLow, yHigh⟩ := sound.live y listed'
  have orderX := sound.ordered x listed
  have orderY := sound.ordered y listed'
  have ends : (x.moved f).Ends (f y.low) (f y.high) := equal ▸ Edge.between_ends_iff.mpr (.inl ⟨rfl, rfl⟩)
  have kind : (x.moved f).kind = (y.moved f).kind := congrArg Edge.kind equal
  obtain ⟨xl, xh, xk⟩ := x
  obtain ⟨yl, yh, yk⟩ := y
  rcases Edge.between_ends_iff.mp ends with ⟨low, high⟩ | ⟨low, high⟩
  · exact Edge.mk.injEq .. ▸ ⟨injective _ xLow _ yLow low, injective _ xHigh _ yHigh high, kind⟩
  · -- Crosswise the order of the ends would be reversed.
    have crossLow := injective _ xLow _ yHigh low
    have crossHigh := injective _ xHigh _ yLow high
    dsimp only at orderX orderY crossLow crossHigh
    omega

-- The net has all there is to know but the scalar.
theorem renamed_of_net (left : d.Sound) (right : e.Sound) (names : Names f d.net.Live) (same : e.net = d.net.moved f)
    (scalar : e.scalar = d.scalar) : Renamed f d e := by
  have injective : ∀ v ∈ d.ids, ∀ w ∈ d.ids, f v = f w → v = w := fun v here w there =>
    names v w (net_live.mpr here) (net_live.mpr there)
  refine ⟨injective, ?_, ?_, congrArg Net.inputs same, congrArg Net.outputs same, scalar⟩
  · have once : (e.vertices.map fun entry => (entry.1, entry.2.label)).Nodup := right.vertices_moved_once (f := id) fun _ _ _ _ => id
    refine (List.perm_ext_iff_of_nodup once (left.vertices_moved_once injective)).mpr fun ⟨v, l⟩ => ?_
    have held : e.net.holds v l ↔ (d.net.moved f).holds v l := by rw [same]
    simp only [List.mem_map, Prod.mk.injEq, Prod.exists]
    constructor
    · rintro ⟨u, x, listed, rfl, rfl⟩
      obtain ⟨t, rfl, y, there, same⟩ := held.mp ⟨x, listed, rfl⟩
      exact ⟨t, y, there, rfl, same⟩
    · rintro ⟨t, y, there, rfl, rfl⟩
      obtain ⟨x, listed, same⟩ := held.mpr ⟨t, rfl, y, there, rfl⟩
      exact ⟨f t, x, listed, rfl, same⟩
  · have wires : ∀ v w m, e.wired v w m ↔ d.wired.moved f v w m := fun v w m => by
      rw [show e.wired = d.wired.moved f from congrArg Net.wires same]
    refine (List.perm_ext_iff_of_nodup right.edges_once (left.edges_moved_once injective)).mpr fun x => ?_
    rw [List.mem_map]
    constructor
    · intro listed
      obtain ⟨t, u, low, high, y, there, ends, kind⟩ := (wires x.low x.high x.kind).mp ⟨x, listed, .inl ⟨rfl, rfl⟩, rfl⟩
      refine ⟨y, there, ?_⟩
      have moved : x.Ends (f y.low) (f y.high) := by
        rcases ends with ⟨rfl, rfl⟩ | ⟨rfl, rfl⟩
        · exact .inl ⟨low.symm, high.symm⟩
        · exact .inr ⟨low.symm, high.symm⟩
      rw [Edge.moved, kind]
      exact (Edge.eq_between (right.ordered x listed) moved).symm
    · rintro ⟨y, there, rfl⟩
      obtain ⟨x, listed, ends, kind⟩ := (wires _ _ _).mpr ⟨y.low, y.high, rfl, rfl, y, there, .inl ⟨rfl, rfl⟩, rfl⟩
      rw [Edge.moved, ← kind, ← Edge.eq_between (right.ordered x listed) ends]
      exact listed

section

variable {α : Type} {P Q O N : Net α} {p q r : α → Nat} {run again : Except Interrupted Diagram} {sort : Net α → Prop}
  {scalar : Scalar}

theorem Shows.alike (left : d.Shows N p) (right : e.Shows N q) (scalar : e.scalar = d.scalar) : Alike d e := by
  obtain ⟨h, names, same⟩ := Net.exists_renaming left.proper left.names right.names
  rw [← left.same] at names same
  exact ⟨h, renamed_of_net left.sound right.sound names (right.same.trans same.symm) scalar⟩

-- One run after another, where the second looks for nets by what the first has found.
theorem Depicts.bind {next : Diagram → Except Interrupted Diagram} {sort' : Net α → Net α → Prop} {scalar' : Scalar}
    (run_ : Depicts run sort scalar)
    (later : ∀ middle N h, sort N → middle.Shows N h → middle.scalar = scalar → Depicts (next middle) (sort' N) scalar') :
    Depicts (run >>= next) (fun M => ∃ N, sort N ∧ sort' N M) scalar' := by
  constructor
  · intro after done
    obtain ⟨middle, start, done⟩ := bind_ok.mp done
    obtain ⟨N, h, found, shown, same⟩ := run_.1 middle start
    obtain ⟨M, h', found', rest⟩ := (later middle N h found shown same).1 after done
    exact ⟨M, h', ⟨N, found, found'⟩, rest⟩
  · rintro M ⟨N, found, found'⟩
    obtain ⟨middle, h, start, shown, same⟩ := run_.2 N found
    obtain ⟨after, h', done, rest⟩ := (later middle N h found shown same).2 M found'
    exact ⟨after, h', bind_ok.mpr ⟨middle, start, done⟩, rest⟩

theorem Depicts.alike (one : Depicts run sort scalar) (two : Depicts again sort scalar) :
    ((∃ d, run = .ok d) ↔ ∃ e, again = .ok e) ∧ ∀ d e, run = .ok d → again = .ok e → Alike d e := by
  refine ⟨⟨?_, ?_⟩, ?_⟩
  · rintro ⟨d, done⟩
    obtain ⟨N, _, found, _⟩ := one.1 d done
    obtain ⟨e, _, done', _⟩ := two.2 N found
    exact ⟨e, done'⟩
  · rintro ⟨e, done⟩
    obtain ⟨N, _, found, _⟩ := two.1 e done
    obtain ⟨d, _, done', _⟩ := one.2 N found
    exact ⟨d, done'⟩
  · intro d e done done'
    obtain ⟨N, p, found, left, product⟩ := one.1 d done
    obtain ⟨e', q, again, right, product'⟩ := two.2 N found
    obtain rfl := Except.ok.inj (done'.symm.trans again)
    exact left.alike right (product'.trans product.symm)

theorem tagged_apart {tag tag' : Nat} (different : tag ≠ tag') (M N : Net Nat) (t : Nat × Nat) :
    (M.moved (Prod.mk tag)).Live t → ¬(N.moved (Prod.mk tag')).Live t := by
  rintro here there
  obtain ⟨_, rfl, _⟩ := Net.moved_live.mp here
  obtain ⟨_, same, _⟩ := Net.moved_live.mp there
  exact different (congrArg Prod.fst same).symm

variable {a b c : Diagram} {ab bc abc : Scalar}
  (first : a.Shows P p) (second : b.Shows Q q) (third : c.Shows O r)
  (pq : ∀ t, P.Live t → ¬Q.Live t) (po : ∀ t, P.Live t → ¬O.Live t) (qo : ∀ t, Q.Live t → ¬O.Live t)
include first second third pq po qo

theorem compose_left (product : a.scalar.mul b.scalar = .ok ab) (whole : ab.mul c.scalar = .ok abc) :
    Depicts (do (← a.compose b).compose c) (fun M => ∃ N, Net.Joins P Q N ∧ Net.Joins N O M) abc := by
  refine (first.compose second pq product).bind fun middle N h joins shown scalar => ?_
  have apart : ∀ t, N.Live t → ¬O.Live t := fun t live far =>
    (joins.kept live).1.elim (fun here => po t here far) fun here => qo t here far
  exact shown.compose third apart (scalar ▸ whole)

theorem compose_right (product : b.scalar.mul c.scalar = .ok bc) (whole : a.scalar.mul bc = .ok abc) :
    Depicts (do a.compose (← b.compose c)) (fun M => ∃ N, Net.Joins Q O N ∧ Net.Joins P N M) abc := by
  refine (second.compose third qo product).bind fun middle N h joins shown scalar => ?_
  have apart : ∀ t, P.Live t → ¬N.Live t := fun t here live => (joins.kept live).1.elim (pq t here) (po t here)
  exact first.compose shown apart (scalar ▸ whole)

end

-- The order of composition matters neither for success nor for the result.
theorem compose_assoc {a b c : Diagram} {ab bc left right : Scalar} (first : a.Ended) (second : b.Ended) (third : c.Ended)
    (one : a.scalar.mul b.scalar = .ok ab) (two : ab.mul c.scalar = .ok left)
    (three : b.scalar.mul c.scalar = .ok bc) (four : a.scalar.mul bc = .ok right) :
    ((∃ d, (do (← a.compose b).compose c) = .ok d) ↔ ∃ e, (do a.compose (← b.compose c)) = .ok e) ∧
      ∀ d e, (do (← a.compose b).compose c) = .ok d → (do a.compose (← b.compose c)) = .ok e → Alike d e := by
  obtain rfl := Scalar.mul_regroup one two three four
  have shownA := first.shows 0
  have shownB := second.shows 1
  have shownC := third.shows 2
  have ab := tagged_apart (show 0 ≠ 1 by decide) a.net b.net
  have ac := tagged_apart (show 0 ≠ 2 by decide) a.net c.net
  have bc := tagged_apart (show 1 ≠ 2 by decide) b.net c.net
  have lefts := compose_left shownA shownB shownC ab ac bc one two
  have rights := compose_right shownA shownB shownC ab ac bc three four
  refine lefts.alike ⟨fun e done => ?_, fun M found => rights.2 M ?_⟩
  · obtain ⟨M, h, found, rest⟩ := rights.1 e done
    exact ⟨M, h, (Net.joins_assoc shownA.proper shownB.proper shownC.proper ab ac bc).mpr found, rest⟩
  · exact (Net.joins_assoc shownA.proper shownB.proper shownC.proper ab ac bc).mp found

-- Phases and markers taken off the listed vertices.
def plain (d : Diagram) (vs : List Nat) : Diagram :=
  { d with vertices := d.vertices.map fun entry =>
      (entry.1, if entry.1 ∈ vs then { entry.2 with phase := .zero, marker := none } else entry.2) }

theorem plain_ids (d : Diagram) (vs : List Nat) : (d.plain vs).ids = d.ids := by
  simp [plain, ids, Function.comp_def]

theorem plain_sound (sound : d.Sound) (vs : List Nat) : (d.plain vs).Sound :=
  sound.congr (plain_ids d vs) rfl rfl rfl

theorem plain_net (d : Diagram) (vs : List Nat) : (d.plain vs).net = d.net.plain vs := by
  refine Net.ext ?_ rfl rfl rfl
  funext v l
  refine propext ⟨?_, ?_⟩
  · rintro ⟨_, held, rfl⟩
    obtain ⟨⟨u, x⟩, listed, same⟩ := List.mem_map.mp held
    obtain ⟨rfl, rfl⟩ := Prod.mk.inj same
    by_cases chosen : u ∈ vs
    · exact .inr ⟨chosen, x.label, ⟨x, listed, rfl⟩, by rw [if_pos chosen]; rfl⟩
    · exact .inl ⟨chosen, x, listed, by rw [if_neg chosen]⟩
  · rintro (⟨out, x, listed, rfl⟩ | ⟨chosen, _, ⟨x, listed, rfl⟩, rfl⟩)
    · exact ⟨x, List.mem_map.mpr ⟨(v, x), listed, by rw [if_neg out]⟩, rfl⟩
    · exact ⟨_, List.mem_map.mpr ⟨(v, x), listed, rfl⟩, by rw [if_pos chosen]; rfl⟩

-- Where the listed vertices are plain already, nothing comes off.
theorem plain_eq (clear : ∀ entry ∈ d.vertices, entry.1 ∈ vs → entry.2.phase = .zero ∧ entry.2.marker = none) : d.plain vs = d := by
  have same : (d.vertices.map fun entry =>
      (entry.1, if entry.1 ∈ vs then { entry.2 with phase := .zero, marker := none } else entry.2)) = d.vertices := by
    refine (List.map_congr_left fun entry listed => ?_).trans (List.map_id _)
    obtain ⟨v, x⟩ := entry
    by_cases chosen : v ∈ vs
    · obtain ⟨phase, marker⟩ := clear (v, x) listed chosen
      rw [if_pos chosen, ← phase, ← marker]
      rfl
    · rw [if_neg chosen]
      rfl
  rw [plain, same]

theorem Ended.loose (ended : d.Ended) : d.net.Loose (d.inputs ++ d.outputs) := by
  refine ⟨fun u m near => ended.adjacent_ne (wired_adjacent near) rfl, fun v listed => ?_, fun v listed l => ?_⟩
  · obtain ⟨w, k, only⟩ := incident_single (ended.single v listed)
    exact ⟨w, k, ended.sole_iff.mpr only⟩
  · rintro ⟨x, held, rfl⟩
    obtain ⟨y, again, bound⟩ := ended.bound v listed
    obtain rfl := vertex_unique ended.nodup held again
    exact bound

theorem identity_bare (n : Nat) : ∃ ends : List (Nat × Nat), ends.length = n ∧ (identity n).net.Bare ends ∧
    (identity n).Ended ∧ (identity n).scalar = .one := by
  have inner : ∀ q (x : Vertex), (fun _ => none : Nat → Option Vertex) q = some x → x.kind ≠ .boundary := nofun
  have laid := Fragment.register_laid inner n 1
  have tidy := Fragment.register_tidy inner n 1
  rw [Fragment.identity_register]
  generalize Fragment.register n 1 (fun _ => none) = result at laid tidy
  obtain ⟨d, lines⟩ := result
  dsimp only at laid tidy ⊢
  have bare : ∀ line ∈ lines, line.spider = none := fun line listed => by simpa [Line.Fits] using laid.fits line listed
  have edges : ∀ e, e ∈ d.edges ↔ ∃ line ∈ lines, e = .between line.start line.stop .simple := by
    intro e
    rw [laid.grown.edges.mem_iff, show (empty.edges ++ lines.flatMap (·.wires)) = lines.flatMap (·.wires) from rfl, List.mem_flatMap]
    refine exists_congr fun line => and_congr_right fun listed => ?_
    rw [Line.wires, bare line listed, List.mem_singleton]
  have vertices : ∀ v x, (v, x) ∈ d.vertices ↔ ∃ line ∈ lines, (v, x) = (line.start, Vertex.boundary.placed line.qubit.toFloat 0) ∨
      (v, x) = (line.stop, Vertex.boundary.placed line.qubit.toFloat 1) := by
    intro v x
    rw [laid.grown.vertices.mem_iff,
      show (empty.vertices ++ lines.flatMap (·.vertices 1 fun _ => none)) = lines.flatMap (·.vertices 1 fun _ => none) from rfl,
      List.mem_flatMap]
    refine exists_congr fun line => and_congr_right fun listed => ?_
    rw [Line.vertices, bare line listed, List.mem_cons, List.mem_singleton]
  refine ⟨lines.map fun line => (line.start, line.stop), ?_, ⟨?_, ?_, fun u v m => ?_, fun v l => ?_⟩, tidy.toWellFormed.ended,
    laid.grown.scalar⟩
  · rw [List.length_map, ← List.length_map (f := (·.qubit)), laid.qubits, List.length_range]
  · rw [List.map_map]
    rfl
  · rw [List.map_map]
    rfl
  · have wire : ∀ u v, (u, v) ∈ lines.map (fun line => (line.start, line.stop)) ↔
        ∃ line ∈ lines, line.start = u ∧ line.stop = v := by simp
    rw [wire, wire]
    constructor
    · rintro ⟨e, held, ends, rfl⟩
      obtain ⟨line, listed, rfl⟩ := (edges e).mp held
      exact ⟨rfl, (Edge.between_ends_iff.mp ends).imp (fun same => ⟨line, listed, same⟩) fun same => ⟨line, listed, same⟩⟩
    · rintro ⟨rfl, ⟨line, listed, same⟩ | ⟨line, listed, same⟩⟩
      · exact ⟨_, (edges _).mpr ⟨line, listed, rfl⟩, Edge.between_ends_iff.mpr (.inl same), rfl⟩
      · exact ⟨_, (edges _).mpr ⟨line, listed, rfl⟩, Edge.between_ends_iff.mpr (.inr same), rfl⟩
  · have ends : v ∈ lines.map (·.start) ++ lines.map (·.stop) ↔ ∃ line ∈ lines, line.start = v ∨ line.stop = v := by
      simp only [List.mem_append, List.mem_map, ← exists_or, ← and_or_left]
    refine Iff.trans ?_ (and_congr_left' ends.symm)
    constructor
    · rintro ⟨x, held, rfl⟩
      obtain ⟨line, listed, same | same⟩ := (vertices v x).mp held
      · obtain ⟨rfl, rfl⟩ := Prod.mk.inj same
        exact ⟨⟨line, listed, .inl rfl⟩, rfl⟩
      · obtain ⟨rfl, rfl⟩ := Prod.mk.inj same
        exact ⟨⟨line, listed, .inr rfl⟩, rfl⟩
    · rintro ⟨⟨line, listed, rfl | rfl⟩, rfl⟩
      · exact ⟨_, (vertices _ _).mpr ⟨line, listed, .inl rfl⟩, rfl⟩
      · exact ⟨_, (vertices _ _).mpr ⟨line, listed, .inr rfl⟩, rfl⟩

theorem alike_plain {after : Diagram} {scalar : Scalar} (left : d.Sound) (right : after.Sound) (names : Names f d.net.Live)
    (same : after.net = (d.net.plain vs).moved f) (product : after.scalar = scalar) : Alike { d.plain vs with scalar } after := by
  obtain ⟨ascending, sorted, ordered, live, used, free, once⟩ := plain_sound left vs
  refine ⟨f, renamed_of_net ⟨ascending, sorted, ordered, live, used, free, once⟩ right ?_ ?_ product⟩
  · exact fun v w here there => names v w (net_live.mpr (plain_ids d vs ▸ net_live.mp here)) (net_live.mpr (plain_ids d vs ▸ net_live.mp there))
  · rw [same, ← plain_net]
    rfl

section

variable (ended : d.Ended) {scalar : Scalar}
include ended

-- An identity after a diagram puts plain boundaries where the outputs were.
theorem compose_identity (product : d.scalar.mul .one = .ok scalar) : ∃ after,
    d.compose (identity d.outputs.length) = .ok after ∧ Alike { d.plain d.outputs with scalar } after := by
  obtain ⟨ends, lengths, bare, wires, unit⟩ := identity_bare d.outputs.length
  obtain ⟨names, new⟩ := copy_names ended.toSound wires.toSound
  generalize identity d.outputs.length = wire at *
  have proper := wires.proper.moved names
  have apart : ∀ t, d.net.Live t → t ∉ (wire.net.moved (rename (d.joinNames wire))).inputs ++ (wire.net.moved (rename (d.joinNames wire))).outputs := by
    intro t live listed
    obtain ⟨u, rfl, there⟩ := Net.moved_live.mp (proper.live t listed)
    exact new u there live
  obtain ⟨f, injective, joins⟩ := Net.joins_bare ended.proper (ended.loose.sub fun v => List.mem_append_right _)
    (bare.moved (rename (d.joinNames wire))) (by rw [List.length_map]; exact lengths.symm) proper.distinct apart
  obtain ⟨after, done, same⟩ := joins_compose ended.toSound wires.toSound wires.proper joins (unit.symm ▸ product)
  obtain ⟨sound, _, product'⟩ := compose_joins ended.toSound wires.toSound wires.proper done
  rw [unit] at product'
  exact ⟨after, done, alike_plain ended.toSound sound injective same (Except.ok.inj (product'.symm.trans product))⟩

-- An identity before a diagram does the same with the inputs: read from its outputs, it comes after.
theorem identity_compose (product : Scalar.one.mul d.scalar = .ok scalar) : ∃ after,
    (identity d.inputs.length).compose d = .ok after ∧ Alike { d.plain d.inputs with scalar } after := by
  obtain ⟨ends, lengths, bare, wires, unit⟩ := identity_bare d.inputs.length
  obtain ⟨names, new⟩ := copy_names wires.toSound ended.toSound
  generalize identity d.inputs.length = wire at *
  have live : ∀ v ∈ d.inputs, d.net.Live v := fun v listed => ended.proper.live v (List.mem_append_left _ listed)
  have loose := (ended.loose.sub fun v => List.mem_append_left _).moved ended.proper names live
  have proper := ended.proper.moved names
  have apart : ∀ t, (d.net.moved (rename (wire.joinNames d))).reverse.Live t → t ∉ wire.net.reverse.inputs ++ wire.net.reverse.outputs := by
    intro t here listed
    obtain ⟨u, rfl, there⟩ := Net.moved_live.mp here
    exact new u there (wires.proper.reverse.live _ listed)
  obtain ⟨f, injective, joins⟩ := Net.joins_bare proper.reverse ⟨loose.loopless, loose.sole, loose.bound⟩ bare.reverse
    (by rw [List.length_map]; exact (List.length_map ..).trans lengths.symm) wires.proper.reverse.distinct apart
  obtain ⟨after, done, same⟩ := joins_compose wires.toSound ended.toSound ended.proper (joins.reverse proper.reverse wires.proper.reverse)
    (unit.symm ▸ product)
  obtain ⟨sound, _, product'⟩ := compose_joins wires.toSound ended.toSound ended.proper done
  rw [unit] at product'
  have stripped : after.net = (d.net.plain d.inputs).moved (f ∘ rename (wire.joinNames d)) := by
    rw [← Net.moved_moved, ← Net.plain_moved names live]
    exact same
  have distinct : Names (f ∘ rename (wire.joinNames d)) d.net.Live := fun v w here there equal =>
    names v w here there (injective _ _ (Net.moved_live.mpr ⟨v, rfl, here⟩) (Net.moved_live.mpr ⟨w, rfl, there⟩) equal)
  exact ⟨after, done, alike_plain ended.toSound sound distinct stripped (Except.ok.inj (product'.symm.trans product))⟩

-- With nothing noted on the boundaries identities are units.
theorem identity_unit (ranged : Range.signed32 d.scalar.power = true) (built : d.scalar.phase.Built)
    (clear : ∀ entry ∈ d.vertices, entry.1 ∈ d.inputs ++ d.outputs → entry.2.phase = .zero ∧ entry.2.marker = none) :
    (∃ after, d.compose (identity d.outputs.length) = .ok after ∧ Alike d after) ∧
      ∃ after, (identity d.inputs.length).compose d = .ok after ∧ Alike d after := by
  obtain ⟨right, left⟩ := Scalar.mul_one_ok ranged built
  obtain ⟨after, done, alike⟩ := compose_identity ended right
  obtain ⟨after', done', alike'⟩ := identity_compose ended left
  rw [plain_eq fun entry held listed => clear entry held (List.mem_append_right _ listed)] at alike
  rw [plain_eq fun entry held listed => clear entry held (List.mem_append_left _ listed)] at alike'
  exact ⟨⟨after, done, alike⟩, after', done', alike'⟩

end

-- The laws of composition. Scalars that operations have built are the same times one.
theorem compose_category :
    (∀ s : Scalar, Range.signed32 s.power = true → s.phase.Built → s.mul .one = .ok s ∧ Scalar.one.mul s = .ok s) ∧
    (∀ d : Diagram, d.Ended →
      (∀ scalar, d.scalar.mul .one = .ok scalar → ∃ after,
        d.compose (identity d.outputs.length) = .ok after ∧ Alike { d.plain d.outputs with scalar } after) ∧
      ∀ scalar, Scalar.one.mul d.scalar = .ok scalar → ∃ after,
        (identity d.inputs.length).compose d = .ok after ∧ Alike { d.plain d.inputs with scalar } after) ∧
    ∀ a b c : Diagram, a.Ended → b.Ended → c.Ended → ∀ ab bc left right,
      a.scalar.mul b.scalar = .ok ab → ab.mul c.scalar = .ok left → b.scalar.mul c.scalar = .ok bc → a.scalar.mul bc = .ok right →
      ((∃ d, (do (← a.compose b).compose c) = .ok d) ↔ ∃ e, (do a.compose (← b.compose c)) = .ok e) ∧
        ∀ d e, (do (← a.compose b).compose c) = .ok d → (do a.compose (← b.compose c)) = .ok e → Alike d e := by
  refine ⟨fun s ranged built => Scalar.mul_one_ok ranged built, fun d ended => ⟨fun scalar product => ?_, fun scalar product => ?_⟩, ?_⟩
  · exact compose_identity ended product
  · exact identity_compose ended product
  · intro a b c first second third ab bc left right one two three four
    exact compose_assoc first second third one two three four

-- A wire with a note on its output.
def notedWire : Diagram :=
  { vertices := [(0, .boundary), (1, Vertex.boundary.mark .starHelper)], edges := [⟨0, 1, .simple⟩], next := 2, inputs := [0], outputs := [1] }

theorem notedWire_ended : notedWire.Ended := by
  have formed : notedWire.WellFormed := by decide
  exact formed.ended

theorem compose_category_noted :
    (∃ after, notedWire.compose (identity 1) = .ok after ∧ Alike { notedWire.plain [1] with scalar := .one } after) ∧
    (∃ after, (identity 1).compose notedWire = .ok after ∧ Alike { notedWire.plain [0] with scalar := .one } after) ∧
    ((∃ d, (do (← notedWire.compose notedWire).compose notedWire) = .ok d) ↔
      ∃ e, (do notedWire.compose (← notedWire.compose notedWire)) = .ok e) := by
  have ended := notedWire_ended
  have unit : Scalar.one.mul .one = .ok .one := rfl
  have units := compose_category.2.1 notedWire ended
  exact ⟨units.1 .one unit, units.2 .one unit,
    (compose_category.2.2 notedWire notedWire notedWire ended ended ended .one .one .one .one unit unit unit unit).1⟩

-- A note on a boundary is lost when an identity is composed with it.
theorem identity_unnoted : notedWire.Ended ∧
    ∃ after, notedWire.compose (identity notedWire.outputs.length) = .ok after ∧ ¬Alike notedWire after := by
  refine ⟨notedWire_ended, ?_⟩
  have unit : notedWire.scalar.mul .one = .ok .one := rfl
  obtain ⟨after, done, f, plain⟩ := compose_identity notedWire_ended unit
  refine ⟨after, done, ?_⟩
  rintro ⟨g, noted⟩
  have unmarked : ∀ entry ∈ (notedWire.plain notedWire.outputs).vertices, entry.2.marker = none := by decide
  have kept : (g 1, (Vertex.boundary.mark .starHelper).label) ∈ after.vertices.map fun entry => (entry.1, entry.2.label) :=
    noted.vertices.mem_iff.mpr (List.mem_map_of_mem (f := fun entry : Nat × Vertex => (g entry.1, entry.2.label))
      (List.mem_cons_of_mem _ List.mem_cons_self))
  obtain ⟨entry, listed, same⟩ := List.mem_map.mp (plain.vertices.mem_iff.mp kept)
  have marker : entry.2.marker = some .starHelper := congrArg (fun pair => pair.2.marker) same
  rw [unmarked entry listed] at marker
  cases marker

end Diagram

end ToffoliBench
