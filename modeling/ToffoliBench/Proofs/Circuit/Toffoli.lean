import ToffoliBench.Proofs.Circuit.Collector
import ToffoliBench.Proofs.Circuit.Gates
import ToffoliBench.Proofs.Circuit.Legs
import ToffoliBench.Proofs.Meaning.Composition

namespace ToffoliBench

open Diagram Meaning Outcome

namespace Fragment

variable {n t : Nat} {controls : List Nat} {d : Diagram} {lines : List Line}

def toffoliSpider (controls : List Nat) (t q : Nat) : Option Vertex :=
  if controls.contains q then some (Vertex.z.mark .potentialMaster) else if q = t then some .x else none

theorem toffoliSpider_inner (controls : List Nat) (t : Nat) : ∀ q x, toffoliSpider controls t q = some x → x.kind ≠ .boundary := by
  intro q x asked
  unfold toffoliSpider at asked
  split at asked
  · cases asked; simp [Vertex.mark, Vertex.z]
  · split at asked <;> cases asked
    simp [Vertex.x]

-- The controls in the order of their lines.
def present (controls : List Nat) (n : Nat) : List Nat := (List.range n).filter (controls.contains ·)

theorem present_nodup (controls : List Nat) (n : Nat) : (present controls n).Nodup := List.nodup_range.filter _

theorem mem_present {q : Nat} : q ∈ present controls n ↔ q < n ∧ q ∈ controls := by
  simp [present, List.mem_filter]

-- A list of bits gives a bit to each of as many different qubits.
theorem exists_bits {keys : List Nat} (once : keys.Nodup) {bits : List Bool} (length : bits.length = keys.length) :
    ∃ c : Nat → Bool, bits = keys.map c := by
  induction keys generalizing bits with
  | nil => exact ⟨fun _ => false, List.length_eq_zero_iff.mp length⟩
  | cons k rest ih =>
    obtain ⟨new, others⟩ := List.nodup_cons.mp once
    cases bits with
    | nil => cases length
    | cons b bits =>
      obtain ⟨c, rfl⟩ := ih others (by simpa using length)
      refine ⟨fun q => if q = k then b else c q, ?_⟩
      have same : rest.map (fun q => if q = k then b else c q) = rest.map c :=
        by
        refine List.map_congr_left fun q later => if_neg ?_
        rintro rfl
        exact new later
      rw [List.map_cons, same, if_pos rfl]

-- What stands on the spiders: a bit for every control and one for the target.
def toffoliBit (controls : List Nat) (t : Nat) (c : Nat → Bool) (s : Bool) (q : Nat) : Option Bool :=
  if controls.contains q then some (c q) else if q = t then some s else none

theorem toffoli_lines (inside : t < n) (outside : t ∉ controls) (out inp : Fin n → Bool) (c : Nat → Bool) (s : Bool) :
    ((List.range n).map fun q => lineValue (toffoliSpider controls t q) (bit inp q) (bit out q) (toffoliBit controls t c s q)).prod =
      if (present controls n).map c = (present controls n).map (bit inp) then
        (if ∀ q < n, bit out q = (if q = t then bit inp q ^^ s else bit inp q) then rootTwo⁻¹ else 0) else 0 := by
  split
  · rename_i read
    have agree : ∀ q < n, q ∈ controls → c q = bit inp q := fun q small held =>
      List.map_inj_left.mp read q (mem_present.mpr ⟨small, held⟩)
    rw [← prod_lines inside]
    refine congrArg List.prod (List.map_congr_left fun q listed => ?_)
    have small := List.mem_range.mp listed
    by_cases held : q ∈ controls
    · have other : q ≠ t := fun same => outside (same ▸ held)
      simp only [toffoliSpider, toffoliBit, List.contains_iff_mem, held, if_true, other, if_false]
      rw [lineValue_copy rfl rfl]
      simp [agree q small held]
    · by_cases target : q = t
      · simp only [toffoliSpider, toffoliBit, List.contains_iff_mem, if_true, target, outside, if_false]
        exact lineValue_add rfl rfl
      · simp [toffoliSpider, held, target, lineValue, eq_comm]
  · rename_i differ
    obtain ⟨q, listed, wrong⟩ : ∃ q ∈ present controls n, c q ≠ bit inp q := by
      by_contra none
      exact differ (List.map_congr_left fun q listed => by_contra fun wrong => none ⟨q, listed, wrong⟩)
    obtain ⟨small, held⟩ := mem_present.mp listed
    refine List.prod_eq_zero (List.mem_map.mpr ⟨q, List.mem_range.mpr small, ?_⟩)
    simp only [toffoliSpider, toffoliBit, List.contains_iff_mem, held, if_true]
    rw [lineValue_copy rfl rfl, if_neg fun met => wrong met.2]

-- The spiders of the controls, as the legs are hung on them.
def controlSpiders (controls : List Nat) (lines : List Line) : List Nat :=
  (lines.filter fun l => controls.contains l.qubit).filterMap (·.spider)

theorem controlSpiders_held {s : Nat} (held : s ∈ controlSpiders controls lines) :
    ∃ line ∈ lines, line.spider = some s ∧ line.qubit ∈ controls := by
  obtain ⟨line, listed, spider⟩ := List.mem_filterMap.mp held
  obtain ⟨known, control⟩ := List.mem_filter.mp listed
  exact ⟨line, known, spider, by simpa using control⟩

section

variable (laid : Laid 3 (toffoliSpider controls t) empty d (List.range n) lines)
include laid

theorem controlSpiders_map : ∃ name : Line → Nat,
    (∀ line ∈ lines, line.qubit ∈ controls → line.spider = some (name line)) ∧
    controlSpiders controls lines = (lines.filter fun l => controls.contains l.qubit).map name := by
  have named : ∀ line ∈ lines, line.qubit ∈ controls → line.spider = some (line.spider.getD 0) := by
    intro line known control
    have fits := laid.fits line known
    rw [Line.Fits, toffoliSpider, if_pos (by simpa using control)] at fits
    obtain ⟨s, spider⟩ := Option.isSome_iff_exists.mp fits
    simp [spider]
  refine ⟨fun line => line.spider.getD 0, named, ?_⟩
  rw [controlSpiders, ← List.filterMap_eq_map]
  refine List.filterMap_congr fun line listed => ?_
  obtain ⟨known, control⟩ := List.mem_filter.mp listed
  exact named line known (by simpa using control)

theorem present_lines : present controls n = (lines.filter fun l => controls.contains l.qubit).map (·.qubit) := by
  rw [present, ← laid.qubits, List.filter_map]
  rfl

theorem controlSpiders_length : (controlSpiders controls lines).length = (present controls n).length := by
  obtain ⟨name, _, same⟩ := controlSpiders_map laid
  rw [same, present_lines laid, List.length_map, List.length_map]

-- The legs on the spiders of the controls show the bits of the controls.
theorem controlSpiders_show (c : Nat → Bool) {line : Line} {s : Nat} (known : line ∈ lines) (spider : line.spider = some s) (b : Bool) :
    Multiset.count (s, b) (↑((controlSpiders controls lines).zip ((present controls n).map c)) : Legs) =
      if line.qubit ∈ controls ∧ c line.qubit = b then 1 else 0 := by
  obtain ⟨name, named, same⟩ := controlSpiders_map laid
  rw [same, present_lines laid, List.map_map, List.zip_map']
  have listed : ∀ {other}, other ∈ lines.filter (fun l => controls.contains l.qubit) ↔ other ∈ lines ∧ other.qubit ∈ controls := by
    intro other
    simp [List.mem_filter]
  have only : ∀ other ∈ lines, other.qubit ∈ controls → name other = s → other = line := by
    intro other there control equal
    exact laid.spider_line there ((named other there control).trans (congrArg some equal)) known spider
  by_cases control : line.qubit ∈ controls
  · have here : s = name line := Option.some.inj (spider.symm.trans (named line known control))
    have linesOnce : lines.Nodup := List.Nodup.of_map (·.qubit) (laid.qubits ▸ List.nodup_range)
    have once : (((lines.filter fun l => controls.contains l.qubit).map fun l => (name l, (c ∘ (·.qubit)) l)).map Prod.fst).Nodup := by
      rw [List.map_map]
      refine (linesOnce.filter _).map_on fun one first two second equal => ?_
      obtain ⟨oneKnown, oneControl⟩ := listed.mp first
      obtain ⟨twoKnown, twoControl⟩ := listed.mp second
      exact laid.spider_line oneKnown (named one oneKnown oneControl) twoKnown
        ((named two twoKnown twoControl).trans (congrArg some equal.symm))
    rw [here, holds_of_mem once (List.mem_map.mpr ⟨line, listed.mpr ⟨known, control⟩, rfl⟩)]
    simp [control]
  · rw [if_neg fun met => control met.1]
    refine Multiset.count_eq_zero.mpr fun found => ?_
    obtain ⟨other, there, equal⟩ := List.mem_map.mp (Multiset.mem_coe.mp found)
    obtain ⟨otherKnown, otherControl⟩ := listed.mp there
    have line_ := only other otherKnown otherControl (congrArg Prod.fst equal)
    exact control (line_ ▸ otherControl)

end

-- The lines and legs with their ends: the legs come first among the outputs.
def legDiagram (after : Diagram) (lines : List Line) (stops : List Nat) (stop : Nat) : Diagram :=
  { after.within (lines.map (·.start)) (stops ++ [stop] ++ lines.map (·.stop)) with
    scalar := ⟨hBoxPower * (stops.length + 1), .zero⟩ }

structure Legged (controls : List Nat) (n t : Nat) (d after : Diagram) (lines : List Line) (stops : List Nat) (stop x : Nat) : Prop where
  laid : Laid 3 (toffoliSpider controls t) empty d (List.range n) lines
  target : ∃ line ∈ lines, line.spider = some x ∧ line.qubit = t
  middle : ∃ middle, HasLegs d middle (controlSpiders controls lines) stops ∧ HasLeg middle after x .z ∧ stop = middle.next + 3
  tidy : (legDiagram after lines stops stop).Tidy

-- The target has a line of its own, and a spider on it.
theorem target_spider (laid : Laid 3 (toffoliSpider controls t) empty d (List.range n) lines) (inside : t < n) (outside : t ∉ controls) :
    ∃ line ∈ lines, line.qubit = t ∧ ∃ x, line.spider = some x ∧
      spiderOf (lines.filter fun l => !controls.contains l.qubit) t = some x := by
  have asked : (toffoliSpider controls t t).isSome = true := by simp [toffoliSpider, outside]
  obtain ⟨line, known, rfl, x, spider⟩ := laid.spider_on (List.mem_range.mpr inside) asked
  have once : (lines.map (·.qubit)).Nodup := laid.qubits ▸ List.nodup_range
  have filtered : line ∈ lines.filter fun l => !controls.contains l.qubit := List.mem_filter.mpr ⟨known, by simpa using outside⟩
  exact ⟨line, known, rfl, x, spider, (spiderOf_line (once.sublist (List.filter_sublist.map _)) filtered).trans spider⟩

-- The boxes of the legs are all that the scalar counts.
theorem legDiagram_ok {after legs : Diagram} {stops : List Nat} {stop : Nat} (scalar : after.scalar = .one) :
    (do
      let scalar ← after.scalar.mulPower (hBoxPower * (stops ++ [stop]).length)
      pure { after with scalar, inputs := lines.map (·.start), outputs := stops ++ [stop] ++ lines.map (·.stop) } : Except Fault Diagram) =
        .ok legs ↔ Range.signed32 (hBoxPower * (stops.length + 1)) = true ∧ legs = legDiagram after lines stops stop := by
  have power : after.scalar.power + hBoxPower * ↑(stops ++ [stop]).length = hBoxPower * (stops.length + 1) := by
    rw [scalar]
    simp [Scalar.one]
  constructor
  · intro done
    obtain ⟨_, product, done⟩ := bind_ok.mp done
    obtain ⟨_, checked, product⟩ := bind_ok.mp product
    obtain ⟨rfl, ranged⟩ := within_ok.mp checked
    obtain rfl := pure_ok.mp product
    obtain rfl := pure_ok.mp done
    rw [power] at ranged ⊢
    rw [scalar]
    exact ⟨ranged, rfl⟩
  · rintro ⟨ranged, rfl⟩
    refine bind_ok.mpr ⟨_, bind_ok.mpr ⟨_, within_ok.mpr ⟨rfl, power ▸ ranged⟩, rfl⟩, ?_⟩
    rw [power, scalar]
    rfl

-- The legs are refused only where the power of their boxes is out of range.
theorem toffoliLegs_legged (inside : t < n) (outside : t ∉ controls) :
    ∃ d after lines stops stop x, Legged controls n t d after lines stops stop x ∧ stops.length = (present controls n).length ∧
      ∀ legs, toffoliLegs n controls t = .ok legs ↔
        Range.signed32 (hBoxPower * (stops.length + 1)) = true ∧ legs = legDiagram after lines stops stop := by
  have inner := toffoliSpider_inner controls t
  have laid := register_laid inner n 3
  have tidy := register_tidy inner n 3
  unfold toffoliLegs
  rw [show (fun q => if controls.contains q then some (Vertex.z.mark .potentialMaster) else if q = t then some .x else none) =
    toffoliSpider controls t from rfl]
  generalize register n 3 (toffoliSpider controls t) = result at laid tidy
  obtain ⟨d, lines⟩ := result
  dsimp only at laid tidy ⊢
  rw [show (lines.filter fun l => controls.contains l.qubit).filterMap (·.spider) = controlSpiders controls lines from rfl]
  have live : ∀ s ∈ controlSpiders controls lines, s ∈ d.ids ∧ ¬d.IsBoundary s := by
    intro s held
    obtain ⟨line, known, spider, _⟩ := controlSpiders_held held
    exact ⟨laid.spider_live known spider, laid.spider_inner inner known spider⟩
  have legs := controlLegs_legs laid.grown.sound laid.grown.unfreed (controlSpiders controls lines).length 0 live
  generalize controlLegs (controlSpiders controls lines).length d 0 (controlSpiders controls lines) = made at legs
  obtain ⟨middle, stops⟩ := made
  dsimp only at legs ⊢
  obtain ⟨line, known, here, x, spider, found⟩ := target_spider laid inside outside
  obtain ⟨new, es, more⟩ := legs.more
  obtain ⟨xLive, xInner⟩ := more.kept_inner (laid.spider_live known spider) (laid.spider_inner inner known spider)
  obtain ⟨after, hung, leg⟩ := targetLeg_leg more.sound more.unfreed xLive
  rw [found]
  simp only [hung]
  obtain ⟨newer, fs, grown, inward⟩ := leg.inward more.sound xLive xInner (by decide)
  have size : stops.length = (present controls n).length := legs.lengths.trans (controlSpiders_length laid)
  have whole := ((legs.tidy _ _ tidy).grow grown inward)
  rw [List.append_nil, List.append_assoc] at whole
  refine ⟨d, after, lines, stops, middle.next + 3, x, ⟨laid, ⟨line, known, spider, here⟩, ⟨middle, legs, leg, rfl⟩, ?_⟩, size, fun made => ?_⟩
  · exact whole.relabel List.perm_append_comm _
  · exact legDiagram_ok ((grown.scalar.trans more.scalar).trans laid.grown.scalar)

-- One wire to the target and one to each control, all summed out.
theorem legs_sum {k : Nat} {chosen : List Bool} (length : chosen.length = k) (weight : List Bool → ℂ) (r value : Bool → ℂ) :
    (∑ s : Bool, (sumBits k fun bits => weight bits * if bits = chosen then r s else 0) * value s) =
      weight chosen * ∑ s : Bool, r s * value s := by
  have one : ∀ s, (sumBits k fun bits => weight bits * if bits = chosen then r s else 0) = weight chosen * r s := by
    intro s
    rw [← sumBits_single length fun bits => weight bits * r s]
    simp only [mul_ite, mul_zero]
  simp only [one, Finset.mul_sum, mul_assoc]

-- A line that is not the target's lets its bit through; the target's adds the bit of its leg.
theorem flips_target (inside : t < n) (out inp : Fin n → Bool) (s : Bool) :
    (∀ q < n, bit out q = if q = t then bit inp q ^^ s else bit inp q) ↔
      s = (bit out t ^^ bit inp t) ∧ ∀ q < n, q ≠ t → bit out q = bit inp q := by
  constructor
  · intro all
    refine ⟨?_, fun q small other => by simpa [other] using all q small⟩
    have here := all t inside
    rw [if_pos rfl] at here
    rw [here]
    cases bit inp t <;> cases s <;> rfl
  · rintro ⟨rfl, others⟩ q small
    by_cases target : q = t
    · rw [if_pos target, target]
      cases bit inp t <;> cases bit out t <;> rfl
    · rw [if_neg target]
      exact others q small target

theorem target_sum (inside : t < n) (out inp : Fin n → Bool) (value : Bool → ℂ) :
    (∑ s : Bool, (if ∀ q < n, bit out q = (if q = t then bit inp q ^^ s else bit inp q) then rootTwo⁻¹ else 0) * value s) =
      if ∀ q < n, q ≠ t → bit out q = bit inp q then rootTwo⁻¹ * value (bit out t ^^ bit inp t) else 0 := by
  simp only [flips_target inside, ite_and, ite_mul, zero_mul, Finset.sum_ite_eq', Finset.mem_univ, if_true]

theorem mem_zip_replicate {v : Nat} {vs : List Nat} {m : Bool} (present : v ∈ vs) : (v, m) ∈ vs.zip (List.replicate vs.length m) := by
  induction vs with
  | nil => cases present
  | cons w rest ih =>
    rw [List.length_cons, List.replicate_succ, List.zip_cons_cons]
    rcases List.mem_cons.mp present with rfl | later
    · exact List.mem_cons_self
    · exact List.mem_cons_of_mem _ (ih later)

-- Where the bits outside stand: one at the end of every leg and line, none anywhere else.
structure Reads (legs : Legs) (lines : List Line) (stops : List Nat) (stop : Nat) (m mt : Bool) (x y : Nat → Bool) : Prop where
  atStops : ∀ s ∈ stops, Holds legs s m
  atLast : Holds legs stop mt
  atLines : ∀ line ∈ lines, Holds legs line.start (x line.qubit) ∧ Holds legs line.stop (y line.qubit)
  elsewhere : ∀ v, v ∉ stops → v ≠ stop → (∀ line ∈ lines, v ≠ line.start ∧ v ≠ line.stop) → Bare legs v

variable {after : Diagram} {stops : List Nat} {stop x : Nat} {m mt : Bool}

theorem Legged.reads (legged : Legged controls n t d after lines stops stop x) (out inp : Fin n → Bool) (m mt : Bool) :
    Reads ((legDiagram after lines stops stop).openLegs (List.replicate stops.length m ++ [mt] ++ List.ofFn out) (List.ofFn inp))
      lines stops stop m mt (bit inp) (bit out) := by
  have formed := legged.tidy.toWellFormed
  have sizes := legged.laid.lines_length
  have ins : (List.ofFn inp).length = (legDiagram after lines stops stop).inputs.length := by simp [legDiagram, sizes]
  have outs : (List.replicate stops.length m ++ [mt] ++ List.ofFn out).length = (legDiagram after lines stops stop).outputs.length := by
    simp [legDiagram, sizes]
  have zipped : (legDiagram after lines stops stop).outputs.zip (List.replicate stops.length m ++ [mt] ++ List.ofFn out) =
      stops.zip (List.replicate stops.length m) ++ [(stop, mt)] ++ (lines.map (·.stop)).zip (List.ofFn out) := by
    rw [show (legDiagram after lines stops stop).outputs = stops ++ [stop] ++ lines.map (·.stop) from rfl,
      List.zip_append (by simp), List.zip_append (by simp)]
    rfl
  refine ⟨fun s held => formed.holds ins outs (List.mem_append_right _ ?_), formed.holds ins outs (List.mem_append_right _ ?_),
    fun line known => ?_, fun v absent other away => openLegs_bare fun listed => ?_⟩
  · rw [zipped]
    exact List.mem_append_left _ (List.mem_append_left _ (mem_zip_replicate held))
  · rw [zipped]
    exact List.mem_append_left _ (List.mem_append_right _ List.mem_cons_self)
  · have both := legged.laid.ends formed (bit inp) (bit out) (stops ++ [stop]) (List.replicate stops.length m ++ [mt]) rfl rfl
      (by simp) known
    rwa [← ofFn_bits, ← ofFn_bits] at both
  · have place : v ∈ lines.map (·.start) ∨ v ∈ stops ∨ v = stop ∨ v ∈ lines.map (·.stop) := by
      simpa [legDiagram] using listed
    rcases place with start | held | same | end_
    · obtain ⟨line, known, rfl⟩ := List.mem_map.mp start
      exact (away line known).1 rfl
    · exact absent held
    · exact other same
    · obtain ⟨line, known, rfl⟩ := List.mem_map.mp end_
      exact (away line known).2 rfl

section

variable {legs : Legs} {inp out : Fin n → Bool} (laid : Laid 3 (toffoliSpider controls t) empty d (List.range n) lines)
  (reads : Reads legs lines stops stop m mt (bit inp) (bit out)) (fresh : ∀ s ∈ stops, d.next ≤ s) (last : d.next ≤ stop)
include laid reads fresh last

theorem register_value (inside : t < n) (outside : t ∉ controls) {target : Line} (known : target ∈ lines)
    (spider : target.spider = some x) (here : target.qubit = t) (s : Bool) (bits : List Bool)
    (length : bits.length = (controlSpiders controls lines).length) :
    contract d.vertices d.edges (↑((controlSpiders controls lines).zip bits) + ({(x, s)} + legs)) =
      if bits = (present controls n).map (bit inp) then
        (if ∀ q < n, bit out q = (if q = t then bit inp q ^^ s else bit inp q) then rootTwo⁻¹ else 0) else 0 := by
  have inner := toffoliSpider_inner controls t
  have inUse : ∀ {line : Line} {v}, line ∈ lines → line.spider = some v → v ∉ stops ∧ v ≠ stop := by
    intro line v held some_
    have used := laid.grown.sound.used v (laid.spider_live held some_)
    refine ⟨fun again => ?_, by omega⟩
    have above := fresh v again
    omega
  have ends : ∀ {line other : Line} {v}, line ∈ lines → line.spider = some v → other ∈ lines → v ≠ other.start ∧ v ≠ other.stop := by
    intro line other v held some_ again
    have bound := laid.ends_bound again
    have free := laid.spider_inner inner held some_
    exact ⟨fun same => free (same ▸ bound.1), fun same => free (same ▸ bound.2)⟩
  obtain ⟨c, rfl⟩ := exists_bits (present_nodup controls n) (length.trans (controlSpiders_length laid))
  rw [laid.meaning (bit inp) (bit out) (toffoliBit controls t c s) ?_, toffoli_lines inside outside]
  intro line held
  obtain ⟨start, stop_⟩ := reads.atLines line held
  have away : ∀ v, v = line.start ∨ v = line.stop → v ∉ controlSpiders controls lines := by
    intro v which listed
    obtain ⟨other, again, some_, _⟩ := controlSpiders_held listed
    rcases which with same | same
    · exact (ends again some_ held).1 same
    · exact (ends again some_ held).2 same
  refine ⟨(start.foreign (ends known spider held).1).beside (bare_zip (away _ (.inl rfl))),
    (stop_.foreign (ends known spider held).2).beside (bare_zip (away _ (.inr rfl))), fun v some_ b => ?_⟩
  have bare := reads.elsewhere v (inUse held some_).1 (inUse held some_).2 (fun other again => ends held some_ again) b
  have mine := laid.spider_same List.nodup_range known spider held some_
  rw [Multiset.count_add, controlSpiders_show laid c held some_ b, count_one, bare]
  simp only [mine, here, toffoliBit, List.contains_iff_mem]
  by_cases control : line.qubit ∈ controls
  · have other : ¬t = line.qubit := fun same => outside (same ▸ control)
    simp [control, other]
  · by_cases target : t = line.qubit
    · simp [control, target]
    · simp [control, target, Ne.symm target]

end

-- The lines have no gadgets, so only the legs are read in another way.
theorem Legged.entry_read {f : Vertex → Vertex} {control last : Bool → Bool → ℂ} (legged : Legged controls n t d after lines stops stop x)
    (inside : t < n) (outside : t ∉ controls) (same : d.recast f = d) (controlReads : LegReads f .x control)
    (lastReads : LegReads f .z last) (out inp : Fin n → Bool) (m mt : Bool) :
    ((legDiagram after lines stops stop).recast f).entry (List.replicate stops.length m ++ [mt] ++ List.ofFn out) (List.ofFn inp) =
      rootTwo ^ (hBoxPower * (stops.length + 1)) * ((((present controls n).map (bit inp)).map (control · m)).prod *
        if ∀ q < n, q ≠ t → bit out q = bit inp q then rootTwo⁻¹ * last (bit out t ^^ bit inp t) mt else 0) := by
  have reads := legged.reads out inp m mt
  obtain ⟨laid, ⟨target, known, spider, here⟩, ⟨middle, legs, leg, rfl⟩, tidy⟩ := legged
  obtain ⟨new, es, more⟩ := legs.more
  have grows := more.next
  have sound := laid.grown.sound
  have live := laid.spider_live known spider
  have used := sound.used x live
  have bare : ∀ v, d.next ≤ v → v ∉ stops → v ≠ middle.next + 3 → Bare _ v := fun v above absent other =>
    reads.elsewhere v absent other fun line held => by
      have start := sound.bound_used (laid.ends_bound held).1
      have stop := sound.bound_used (laid.ends_bound held).2
      omega
  have scalar : ((legDiagram after lines stops (middle.next + 3)).recast f).scalar.value =
      rootTwo ^ (hBoxPower * (stops.length + 1)) := by
    rw [recast, legDiagram, Scalar.value, Phase.turn_zero, mul_one]
  have open_ : ((legDiagram after lines stops (middle.next + 3)).recast f).openLegs
      (List.replicate stops.length m ++ [mt] ++ List.ofFn out) (List.ofFn inp) = (legDiagram after lines stops (middle.next + 3)).openLegs
        (List.replicate stops.length m ++ [mt] ++ List.ofFn out) (List.ofFn inp) := rfl
  rw [Diagram.entry, scalar, open_]
  generalize (legDiagram after lines stops (middle.next + 3)).openLegs _ _ = open_ at reads bare ⊢
  have hung : contract (after.recast f).vertices after.edges open_ =
      ∑ s : Bool, contract (middle.recast f).vertices middle.edges ({(x, s)} + open_) * last s mt := by
    refine leg.meaning more.sound (more.mem_ids.mpr (.inl live)) lastReads reads.atLast fun k small => ?_
    refine bare _ (by omega) (fun held => ?_) (by omega)
    have early := (legs.fresh _ held).2
    omega
  have summed : ∀ s, contract (middle.recast f).vertices middle.edges ({(x, s)} + open_) =
      sumBits (controlSpiders controls lines).length fun bits => (bits.map (control · m)).prod *
        contract d.vertices d.edges (↑((controlSpiders controls lines).zip bits) + ({(x, s)} + open_)) := by
    intro s
    have all := legs.meaning controlReads ({(x, s)} + open_) m (fun v held => ?_) fun v above early absent => ?_
    · rwa [same] at all
    · have late := (legs.fresh v held).1
      exact (reads.atStops v held).foreign (by omega)
    · refine bare_add (fun b => ?_) (bare v above absent (by omega))
      rw [Multiset.count_singleton, if_neg]
      rintro ⟨rfl, rfl⟩
      omega
  have weighed := register_value laid reads (fun s held => (legs.fresh s held).1) (by omega) inside outside known spider here
  refine congrArg _ (hung.trans ?_)
  simp only [summed, sumBits_congr fun bits length => congrArg _ (weighed _ bits length)]
  rw [legs_sum (by rw [List.length_map, controlSpiders_length laid]), target_sum inside out inp (last · mt)]

theorem Legged.entry (legged : Legged controls n t d after lines stops stop x) (inside : t < n) (outside : t ∉ controls)
    (out inp : Fin n → Bool) (m mt : Bool) :
    (legDiagram after lines stops stop).entry (List.replicate stops.length m ++ [mt] ++ List.ofFn out) (List.ofFn inp) =
      rootTwo ^ (hBoxPower * (stops.length + 1)) * ((((present controls n).map (bit inp)).map (legValue .x · m)).prod *
        if ∀ q < n, q ≠ t → bit out q = bit inp q then rootTwo⁻¹ * legValue .z (bit out t ^^ bit inp t) mt else 0) := by
  have read := legged.entry_read inside outside recast_id (leg_value (.inl rfl)) (leg_value (.inr rfl)) out inp m mt
  rwa [recast_id] at read

theorem collector_sum (k : Nat) (f : List Bool → ℂ) :
    (sumBits (k + 1) fun bits => (collector k).entry [] bits * f bits) =
      f (List.replicate k false ++ [true]) - f (List.replicate k true ++ [false]) := by
  obtain ⟨_, _, _, _, entries⟩ := collector_tidy k
  have none : ∀ bits : List Bool, bits.length = k → ∀ b, (!b) ∉ bits ↔ bits = List.replicate k b := by
    intro bits length b
    rw [List.eq_replicate_iff]
    refine ⟨fun absent => ⟨length, fun c listed => ?_⟩, fun ⟨_, all⟩ listed => by simpa using all _ listed⟩
    by_contra other
    have flipped : c = !b := by cases c <;> cases b <;> simp_all
    exact absent (flipped ▸ listed)
  have picked : ∀ bits, bits.length = k → (sumBits 1 fun last => (collector k).entry [] (bits ++ last) * f (bits ++ last)) =
      (if bits = List.replicate k false then f (bits ++ [true]) else 0) -
        if bits = List.replicate k true then f (bits ++ [false]) else 0 := by
    intro bits length
    have zeros := none bits length false
    have ones := none bits length true
    simp only [Bool.not_false, Bool.not_true] at zeros ones
    simp only [sumBits, Fintype.sum_bool, entries bits _ length, zeros, ones]
    simp [sub_eq_add_neg]
  rw [sumBits_add, sumBits_congr picked, sumBits_sub, sumBits_single List.length_replicate fun bits => f (bits ++ [true]),
    sumBits_single List.length_replicate fun bits => f (bits ++ [false])]

theorem closing_total (n k : Nat) : ∃ d, closing n k = .ok d ∧ d.Tidy ∧ d.inputs.length = k + 1 + n ∧ d.outputs.length = n ∧
    d.scalar = .one ∧ ∀ (out : Fin n → Bool) (f : List Bool → ℂ),
      (sumBits (k + 1 + n) fun mid => d.entry (List.ofFn out) mid * f mid) =
        f (List.replicate k false ++ [true] ++ List.ofFn out) - f (List.replicate k true ++ [false] ++ List.ofFn out) := by
  obtain ⟨tidy, outputs, inputs, scalar, _⟩ := collector_tidy k
  obtain ⟨idTidy, idInputs, idOutputs, idScalar, idMatrix⟩ := identity_realizes n
  rw [pow_zero, one_smul] at idMatrix
  have shape : closing n k = (collector k).tensor (Diagram.identity n) := rfl
  have product : (collector k).scalar.mul (Diagram.identity n).scalar = .ok .one := by rw [scalar, idScalar]; rfl
  obtain ⟨d, done, ins, outs⟩ := tensor_total tidy.toWellFormed idTidy.toWellFormed product
  have kept : d.scalar = .one := by
    obtain ⟨s, made, rfl⟩ := (tidy.toWellFormed.tensor_iff idTidy.toWellFormed).mp done
    exact (Except.ok.inj (product.symm.trans made)).symm
  refine ⟨d, shape ▸ done, tidy.tensor idTidy done, by rw [ins, inputs, idInputs], by rw [outs, outputs, idOutputs]; simp, kept,
    fun out f => ?_⟩
  have same := (entry_eq_of_matrix.mp idMatrix) out
  have split : ∀ bits, bits.length = k + 1 → (sumBits n fun mid => d.entry (List.ofFn out) (bits ++ mid) * f (bits ++ mid)) =
      (collector k).entry [] bits * f (bits ++ List.ofFn out) := by
    intro bits length
    rw [← sum_ofFn]
    have each : ∀ mid : Fin n → Bool, d.entry (List.ofFn out) (bits ++ List.ofFn mid) =
        (collector k).entry [] bits * if out = mid then 1 else 0 := by
      intro mid
      have whole := tensor_entry tidy.toWellFormed idTidy.toWellFormed done [] (List.ofFn out) bits (List.ofFn mid)
        (congrArg List.length outputs.symm) (by rw [inputs, length])
      rw [← Matrix.one_apply, ← same mid]
      exact whole
    simp only [each, mul_ite, mul_one, mul_zero, ite_mul, zero_mul, Finset.sum_ite_eq, Finset.mem_univ, if_true]
  rw [sumBits_add, sumBits_congr split, collector_sum k fun bits => f (bits ++ List.ofFn out)]

-- The legs of all controls at once: halves and doubles cancel, and only the gate's own bit is left.
theorem legs_value (controls : List Nat) (inside : ∀ c ∈ controls, c < n) (inp : Fin n → Bool) (m : Bool) :
    (((present controls n).map (bit inp)).map (legValue .x · m)).prod =
      2 ^ (present controls n).length * if m = true ∧ controls.all (bit inp) = false then 0 else 1 := by
  split
  · rename_i blocked
    obtain ⟨rfl, some_⟩ := blocked
    obtain ⟨c, held, zero⟩ := List.all_eq_false.mp some_
    rw [mul_zero, List.map_map]
    refine List.prod_eq_zero (List.mem_map.mpr ⟨c, mem_present.mpr ⟨inside c held, held⟩, ?_⟩)
    simp [legValue, zero]
  · rename_i free
    rw [mul_one, List.prod_eq_pow_card _ 2, List.length_map, List.length_map]
    intro value listed
    simp only [List.map_map, List.mem_map, Function.comp_apply] at listed
    obtain ⟨c, held, rfl⟩ := listed
    cases m with
    | false => exact one_add_one_eq_two
    | true =>
      have all : controls.all (bit inp) = true := by simpa using free
      simp [legValue, List.all_eq_true.mp all c (mem_present.mp held).2, one_add_one_eq_two]

theorem hBoxes_cancel (k : Nat) : rootTwo ^ (hBoxPower * (k + 1)) * 2 ^ k * 2 = 1 := by
  have square : rootTwo ^ (2 : ℤ) = 2 := by exact_mod_cast rootTwo_sq
  have power : rootTwo ^ (hBoxPower * (k + 1)) = (2 ^ (k + 1))⁻¹ := by
    rw [hBoxPower, show (-2 : ℤ) * (k + 1) = 2 * -((k + 1 : ℕ) : ℤ) by push_cast; ring, zpow_mul, square, zpow_neg, zpow_natCast]
  rw [power, mul_assoc, ← pow_succ]
  exact inv_mul_cancel₀ (pow_ne_zero _ two_ne_zero)

-- Both strings that the collector lets through, put together.
theorem toffoli_entry (inside : t < n) (out inp : Fin n → Bool) (k : Nat) :
    rootTwo ^ (hBoxPower * (k + 1)) * (2 ^ k * if ∀ q < n, q ≠ t → bit out q = bit inp q then
        rootTwo⁻¹ * legValue .z (bit out t ^^ bit inp t) true else 0) -
      rootTwo ^ (hBoxPower * (k + 1)) * ((2 ^ k * if controls.all (bit inp) = false then 0 else 1) *
        if ∀ q < n, q ≠ t → bit out q = bit inp q then rootTwo⁻¹ * legValue .z (bit out t ^^ bit inp t) false else 0) =
      rootTwo⁻¹ * (Column.toffoli controls t).permutation n out inp := by
  have unit := hBoxes_cancel k
  have acts : out = (Column.toffoli controls t).act inp ↔
      (∀ q < n, q ≠ t → bit out q = bit inp q) ∧ (bit out t ^^ bit inp t) = controls.all (bit inp) := by
    rw [Column.eq_act, and_comm, eq_comm]
    exact flips_target inside out inp _
  simp only [Column.permutation, Matrix.of_apply, acts]
  by_cases agree : ∀ q < n, q ≠ t → bit out q = bit inp q
  · simp only [if_pos agree, and_iff_right agree]
    -- The target moves exactly when all controls are one.
    have left : ∀ flip all : Bool, legValue .z flip true - (if all = false then 0 else 1) * legValue .z flip false =
        2 * if flip = all then 1 else 0 := by
      intro flip all
      cases flip <;> cases all <;> simp [legValue, one_add_one_eq_two]
    linear_combination rootTwo ^ (hBoxPower * (k + 1)) * 2 ^ k * rootTwo⁻¹ * left (bit out t ^^ bit inp t) (controls.all (bit inp)) +
      rootTwo⁻¹ * (if (bit out t ^^ bit inp t) = controls.all (bit inp) then 1 else 0) * unit
  · simp [agree]

theorem controlledNot_realizes (inside : t < n) (outside : t ∉ controls) (known : ∀ c ∈ controls, c < n)
    (ranged : Range.signed32 (hBoxPower * ((present controls n).length + 1)) = true) :
    ∃ d, controlledNot n controls t = .ok d ∧
      Realizes d n ((present controls n).length + 1) 1 ((Column.toffoli controls t).permutation n) := by
  obtain ⟨d, after, lines, stops, stop, x, legged, size, exact_⟩ := toffoliLegs_legged inside outside
  have made := (exact_ _).mpr ⟨size ▸ ranged, rfl⟩
  obtain ⟨closed, closedMade, closedTidy, closedInputs, closedOutputs, closedScalar, picks⟩ := closing_total n stops.length
  have sizes := legged.laid.lines_length
  have outputs : (legDiagram after lines stops stop).outputs.length = stops.length + 1 + n := by
    simp [legDiagram, sizes, Nat.add_right_comm, Nat.add_assoc]
  have product : (legDiagram after lines stops stop).scalar.mul closed.scalar =
      .ok ⟨hBoxPower * ((present controls n).length + 1) + 0, .zero⟩ := by
    rw [closedScalar, legDiagram, size]
    exact Scalar.mul_plain (by simpa using ranged)
  obtain ⟨whole, done, tidy, scalar⟩ := legged.tidy.compose closedTidy (outputs.trans closedInputs.symm) product
  obtain ⟨_, inputs, outs⟩ := compose_arity legged.tidy.toWellFormed closedTidy.toWellFormed done
  refine ⟨whole, ?_, tidy, ?_, outs.trans closedOutputs, by simp [scalar], ?_⟩
  · have count : (List.range n).countP (controls.contains ·) = stops.length := by
      rw [size, present, List.countP_eq_length_filter]
    refine bind_ok.mpr ⟨_, mapError_ok.mpr made, bind_ok.mpr ⟨closed, mapError_ok.mpr ?_, mapError_ok.mpr done⟩⟩
    rw [count]
    exact closedMade
  · rw [inputs]
    simp [legDiagram, sizes]
  rw [pow_one, entry_eq_of_matrix]
  intro out inp
  rw [compose_entry legged.tidy.toWellFormed closedTidy.toWellFormed done, outputs,
    picks out fun mid => (legDiagram after lines stops stop).entry mid (List.ofFn inp), legged.entry inside outside,
    legged.entry inside outside, legs_value controls known, legs_value controls known]
  simp only [Bool.false_eq_true, false_and, if_false, mul_one, true_and, size]
  exact toffoli_entry inside out inp _

-- A fragment is made of legs whose power is in range and of the gadget that closes them.
theorem controlledNot_parts (inside : t < n) (outside : t ∉ controls) (done : controlledNot n controls t = .ok d) :
    ∃ register after lines stops stop x closed, Legged controls n t register after lines stops stop x ∧
      stops.length = (present controls n).length ∧ Range.signed32 (hBoxPower * (stops.length + 1)) = true ∧
      closing n (present controls n).length = .ok closed ∧ (legDiagram after lines stops stop).compose closed = .ok d := by
  obtain ⟨register, after, lines, stops, stop, x, legged, size, exact_⟩ := toffoliLegs_legged inside outside
  obtain ⟨legs, made, rest⟩ := bind_ok.mp done
  obtain ⟨ranged, rfl⟩ := (exact_ legs).mp (mapError_ok.mp made)
  obtain ⟨closed, closing, composed⟩ := bind_ok.mp rest
  have count : (List.range n).countP (controls.contains ·) = (present controls n).length := by
    rw [present, List.countP_eq_length_filter]
  exact ⟨register, after, lines, stops, stop, x, closed, legged, size, ranged, count ▸ mapError_ok.mp closing,
    mapError_ok.mp composed⟩

theorem controlledNot_wellFormed (inside : t < n) (outside : t ∉ controls) (done : controlledNot n controls t = .ok d) : d.WellFormed := by
  obtain ⟨_, _, _, _, _, _, _, legged, _, _, closing, composed⟩ := controlledNot_parts inside outside done
  obtain ⟨_, total, tidy, _⟩ := closing_total n (present controls n).length
  obtain rfl := Except.ok.inj (total.symm.trans closing)
  exact compose_wellFormed legged.tidy.toWellFormed tidy.toWellFormed composed

end Fragment

end ToffoliBench
