import Categorial.Proofs.Computation
import Categorial.Proofs.Chart.Layout
import Categorial.Proofs.Chart.Selection
import Categorial.Proofs.Scalar.LogReal

/-! # Cells in the order of a hash table

Cells that are set aside are kept in no particular order. Whatever order they come in whenever a
cell is offered, the beam takes in the same steps, and so ends up with the cells that one would
choose once all that was offered has been merged.
-/

namespace Categorial

variable {S : Type}

section Takes

variable [Scalar S]

/-- Offers cells of one span, where the cells set aside may come in another order each time. -/
inductive Beam.Takes (first last : Nat) : Beam S → List (Cell S) → Beam S → Prop where
  | nil (b : Beam S) : Takes first last b [] b
  | cons {b b' b'' : Beam S} {cell : Cell S} {cells aside : List (Cell S)} {admission : Admission} :
      b.setAside.Perm aside → cell.span.first = first ∧ cell.span.last = last →
      (b.withAside aside).offer cell = .ok (b', admission) → Takes first last b' cells b'' →
      Takes first last b (cell :: cells) b''

def Chart.Adds (chart : Chart S) (first last : Nat) (cells : List (Cell S)) (pruned : Bool)
    (chart' : Chart S) : Prop :=
  ∃ b b', chart.beam first last = .ok b ∧ b.Takes first last cells b' ∧
    chart' = chart.setBeam first last (if pruned then b'.markPruned else b')

theorem Beam.takes_of_foldlM {first last : Nat} {b b' : Beam S} {cells : List (Cell S)}
    (h : cells.foldlM
      (fun beam cell =>
        if cell.span.first = first ∧ cell.span.last = last then (·.1) <$> beam.offer cell
        else .error .misplaced)
      b = .ok b') : b.Takes first last cells b' := by
  induction cells generalizing b with
  | nil =>
    obtain rfl : b = b' := Except.ok.inj h
    exact .nil b
  | cons cell cells ih =>
    obtain ⟨c, hc, hrest⟩ := foldlM_cons_eq_ok.mp h
    split_ifs at hc with hspan
    obtain ⟨⟨c, admission⟩, hoffer, rfl⟩ := map_eq_ok.mp hc
    exact .cons (.refl _) hspan hoffer (ih hrest)

theorem Chart.adds_of_addAll {chart chart' : Chart S} {first last : Nat} {cells : List (Cell S)}
    {pruned : Bool} (h : chart.addAll first last cells pruned = .ok chart') :
    chart.Adds first last cells pruned chart' := by
  obtain ⟨b, hb, h⟩ := bind_eq_ok.mp h
  obtain ⟨b', hb', h⟩ := bind_eq_ok.mp h
  exact ⟨b, b', hb, Beam.takes_of_foldlM hb', (Except.ok.inj h).symm⟩

theorem Beam.foldlM_of_offerAll {span : Span} {b b' : Beam S} {cells : List (Cell S)}
    (hspan : ∀ c ∈ cells, c.span = span) (h : b.offerAll cells = .ok b') :
    cells.foldlM
      (fun beam cell =>
        if cell.span.first = span.first ∧ cell.span.last = span.last then (·.1) <$> beam.offer cell
        else .error .misplaced)
      b = .ok b' := by
  induction cells generalizing b with
  | nil => exact h
  | cons cell cells ih =>
    obtain ⟨c, hc, hrest⟩ := foldlM_cons_eq_ok.mp h
    refine foldlM_cons_eq_ok.mpr ⟨c, ?_, ih (fun c hc => hspan c (.tail _ hc)) hrest⟩
    rw [hspan cell (.head _), if_pos ⟨rfl, rfl⟩]
    exact hc

theorem Chart.exists_addAll {chart : Chart S} {span : Span} {b b' : Beam S} {cells : List (Cell S)}
    (hbeam : chart.beam? span.first span.last = some b) (hspan : ∀ c ∈ cells, c.span = span)
    (h : b.offerAll cells = .ok b') (pruned : Bool) :
    ∃ chart', chart.addAll span.first span.last cells pruned = .ok chart' := by
  refine ⟨_, bind_eq_ok.mpr ⟨b, Chart.beam_eq_ok_iff.mpr hbeam, bind_eq_ok.mpr ⟨b', ?_, rfl⟩⟩⟩
  exact Beam.foldlM_of_offerAll hspan h

end Takes

namespace Beam

variable [ExactScalar S] {b b' : Beam S} {span : Span} {offered : List (PackedStep S)}
  {cells aside : List (Cell S)}

theorem Holds.reordered (hb : b.Holds span offered) (hp : b.setAside.Perm aside) :
    (b.withAside aside).Holds span offered where
  indexed := hb.indexed.withAside aside
  order := hb.order
  rejected := hb.rejected
  stocks := hb.stocks.perm (hp.append_left _)
  unbounded_iff := hb.unbounded_iff
  aside_bounded c hc := hb.aside_bounded c (hp.mem_iff.mpr hc)
  divides := hb.divides.perm (.refl _) (hp.map _)

theorem Holds.markPruned (hb : b.Holds span offered) : b.markPruned.Holds span offered where
  indexed := ⟨hb.indexed.index_iff, hb.indexed.numBounded_eq⟩
  order := hb.order
  rejected := hb.rejected
  stocks := hb.stocks
  unbounded_iff := hb.unbounded_iff
  aside_bounded := hb.aside_bounded
  divides := hb.divides

theorem Holds.takes {first last : Nat} (hb : b.Holds span offered) (h : Offerable span cells)
    (hco : Coherent (offered ++ cells.flatMap (·.steps))) (ht : b.Takes first last cells b') :
    b'.Holds span (offered ++ cells.flatMap (·.steps)) ∧ b.Settings b' := by
  induction ht generalizing offered with
  | nil b => exact ⟨by simpa using hb, .refl b⟩
  | @cons b b₁ b' cell cells aside admission hp _ hoffer _ ih =>
    obtain ⟨b₂, admission₂, hoffer₂, hb₂, hset⟩ := (hb.reordered hp).offer (h.fits hco)
    obtain ⟨rfl, rfl⟩ := Prod.mk.inj (Except.ok.inj (hoffer.symm.trans hoffer₂))
    rw [List.flatMap_cons, ← List.append_assoc] at hco ⊢
    obtain ⟨hb', hset'⟩ := ih hb₂ h.tail hco
    exact ⟨hb', (settings_withAside _ _).trans (hset.trans hset')⟩

variable {capacity : Nat} {separateLexical : Bool} {cells' : List (Cell S)}

/-- A new order-invariant beam may end up like this once all of the cells have been offered to it. -/
def EndsAs (capacity : Nat) (separateLexical : Bool) (span : Span) (cells : List (Cell S))
    (b : Beam S) : Prop :=
  ∃ start, Beam.new capacity .orderInvariant separateLexical = .ok start ∧
    start.Takes span.first span.last cells b

/-- The steps of a cell are all those on offer for its category, each of them once. -/
structure Complete (cells : List (Cell S)) (c : Cell S) : Prop where
  nodup : c.steps.Nodup
  mem_steps : ∀ p, p ∈ c.steps ↔ (∃ d ∈ cells, p ∈ d.steps) ∧ p.step.root = c.category

theorem EndsAs.holds (h : Offerable span cells) (hb : EndsAs capacity separateLexical span cells b) :
    b.Holds span (cells.flatMap (·.steps)) ∧
      (empty capacity .orderInvariant separateLexical : Beam S).Settings b := by
  obtain ⟨start, hstart, htakes⟩ := hb
  unfold Beam.new at hstart
  split_ifs at hstart
  obtain rfl := Except.ok.inj hstart
  exact (holds_empty capacity separateLexical span).takes h h.coherent htakes

/-- One of the ways is the one in which the cells set aside keep their order. -/
theorem exists_ofOffers (hcap : 1 ≤ capacity) (h : Offerable span cells) :
    ∃ b, ofOffers capacity separateLexical cells = .ok b ∧
      EndsAs capacity separateLexical span cells b := by
  obtain ⟨b, hb, _⟩ := ofOffers_holds hcap h
  obtain ⟨start, hstart, hall⟩ := bind_eq_ok.mp hb
  exact ⟨b, hb, start, hstart, takes_of_foldlM (foldlM_of_offerAll h.span_eq hall)⟩

theorem EndsAs.exists_offer {before after : List (Cell S)} {cell : Cell S}
    (h : Offerable span (before ++ cell :: after))
    (hb : EndsAs capacity separateLexical span before b) (hp : b.setAside.Perm aside) :
    ∃ b' admission, (b.withAside aside).offer cell = .ok (b', admission) := by
  have hbefore : Offerable span before := h.mono fun c => List.mem_append_left _
  have hafter : Offerable span (cell :: after) := h.mono fun c => List.mem_append_right _
  have hco := h.coherent
  rw [List.flatMap_append] at hco
  obtain ⟨b', admission, hoffer, _⟩ :=
    ((hb.holds hbefore).1.reordered hp).offer (hafter.fits hco)
  exact ⟨b', admission, hoffer⟩

theorem EndsAs.complete (h : Offerable span cells)
    (hb : EndsAs capacity separateLexical span cells b) :
    ∀ c ∈ b.cells.map (·.2) ++ b.setAside, Complete cells c := by
  intro c hc
  rw [kept_eq] at hc
  have hpacks := (hb.holds h).1.stocks.packs c hc
  constructor
  · exact hpacks.packed.steps_nodup
  · intro p
    rw [hpacks.mem_steps, List.mem_flatMap]

/-- Offered cells one by one, a beam keeps the merged cells outside the bound and those of the
others that are above the cutoff, sets the rest aside, and loses or doubles no step. Only the set of
offered steps matters for it: neither how they are grouped, nor the order of the offers, nor that in
which the cells set aside come. -/
theorem selects_of_endsAs (hcap : 1 ≤ capacity) (h : Offerable span cells) :
    ∃ merged, gather cells = .ok merged ∧
      (∃ b, ofOffers capacity separateLexical cells = .ok b ∧
        EndsAs capacity separateLexical span cells b) ∧
      (∀ before cell after b aside, cells = before ++ cell :: after →
        EndsAs capacity separateLexical span before b → b.setAside.Perm aside →
        ∃ b' admission, (b.withAside aside).offer cell = .ok (b', admission)) ∧
      ∀ b, EndsAs capacity separateLexical span cells b →
        b.Selects capacity separateLexical merged ∧
        (∀ c ∈ b.cells.map (·.2) ++ b.setAside, Complete cells c) ∧
        ∀ cells', (∀ c ∈ cells', c.Packed ∧ c.span = span) →
          (∀ p, (∃ c ∈ cells', p ∈ c.steps) ↔ ∃ c ∈ cells, p ∈ c.steps) →
          (∃ b', ofOffers capacity separateLexical cells' = .ok b' ∧
            EndsAs capacity separateLexical span cells' b') ∧
          ∀ b', EndsAs capacity separateLexical span cells' b' →
            AlikeCells id (b.cells.map (·.2)) (b'.cells.map (·.2)) ∧
            b'.numBounded = b.numBounded ∧ b'.isPruned = b.isPruned := by
  obtain ⟨merged, hmerged, hstocks⟩ := gather_stocks h
  refine ⟨merged, hmerged, exists_ofOffers hcap h, ?_, fun b hb => ?_⟩
  · rintro before cell after b aside rfl hb hp
    exact hb.exists_offer h hp
  · obtain ⟨hholds, hset⟩ := hb.holds h
    have hsel := hholds.selects_id hset hstocks fun p => Iff.rfl
    refine ⟨hsel, hb.complete h, fun cells' hcells' hsame => ?_⟩
    have h' := h.regroup hcells' fun p => (hsame p).mp
    refine ⟨exists_ofOffers hcap h', fun b' hb' => ?_⟩
    obtain ⟨hholds', hset'⟩ := hb'.holds h'
    have hmem : ∀ p, p ∈ cells'.flatMap (·.steps) ↔ p ∈ cells.flatMap (·.steps) := by
      simpa only [List.mem_flatMap] using hsame
    have hsel' := hholds'.selects_id hset' hstocks fun p => (hmem p).symm
    refine ⟨?_, hsel'.numBounded.trans hsel.numBounded.symm, ?_⟩
    · have hcap' : b'.capacity = b.capacity := hset'.capacity.trans hset.capacity.symm
      have hsep' : b'.separateLexical = b.separateLexical :=
        hset'.separateLexical.trans hset.separateLexical.symm
      refine (hholds.alike hholds' hcap' hsep' (fun q => ?_) fun p _ q _ hpq => ?_).1
      · simp only [PackedStep.rename_id, exists_eq_right, hmem]
      · rwa [PackedStep.rename_id, PackedStep.rename_id] at hpq
    · rw [Bool.eq_iff_iff, hsel'.isPruned, hsel.isPruned, ← List.length_pos_iff,
        ← List.length_pos_iff, hsel'.setAside.length_eq, hsel.setAside.length_eq]

noncomputable def reading (source : Source) (rule : RuleName) (name : String) (score : ℕ) :
    Cell LogReal :=
  .new ⟨⟨source, rule, ⟨1, 2, 3, by decide, by decide⟩, ⟨.atom name, some (.const "rise")⟩,
    none⟩, true, .empty, .ofReal score⟩ .leaf

noncomputable def combined (name : String) (score : ℕ) : Cell LogReal :=
  reading (.cells ⟨1, 1, 0⟩ ⟨2, 2, 0⟩) (.simple "join") name score

noncomputable def idiom : Cell LogReal :=
  reading (.entry ⟨["get", "up"], ⟨.atom "S", some (.const "rise")⟩, "main"⟩) .lexical "S" 0

theorem viterbi_reading (source : Source) (rule : RuleName) (name : String) (score : ℕ) :
    (reading source rule name score).viterbi = .ofReal score := by
  rw [reading, Cell.viterbi_new, max_eq_right (LogReal.negInf_le _)]
  exact LogReal.plus_zero _

theorem pruneKey_combined_lt {name name' : String} {score score' : ℕ} (h : score < score') :
    (combined name score).pruneKey < (combined name' score').pruneKey := by
  refine PruneKey.lt_iff.mpr (.inl ?_)
  show (combined name score).viterbi < (combined name' score').viterbi
  rw [combined, combined, viterbi_reading, viterbi_reading, LogReal.ofReal_lt_ofReal]
  exact Nat.cast_lt.mpr h

/-- The last of them gives the first category a place of its own, which brings the second one back
into a beam with room for one. -/
noncomputable def readings : List (Cell LogReal) :=
  [combined "S" 3, combined "N" 2, combined "V" 1, idiom]

theorem offerable_readings : Offerable ⟨1, 2, 3, by decide, by decide⟩ readings where
  packed := by simp [readings, combined, idiom, reading, Cell.packed_new]
  span_eq := by
    simp only [readings, List.forall_mem_cons]
    exact ⟨rfl, rfl, rfl, rfl, List.forall_mem_nil _⟩
  coherent := by simp [readings, Coherent, combined, idiom, reading, Cell.new]

theorem exists_gather_readings : ∃ m, gather readings = .ok [m, combined "V" 1, combined "N" 2] ∧
    m.category.type = .atom "S" ∧ m.sheltered true = true := by
  obtain ⟨m, changed, hmerge, hjoins⟩ := Cell.merge_joins (c := combined "S" 3) (d := idiom)
    (Cell.packed_new ..) (Cell.packed_new ..) rfl rfl <|
    offerable_readings.coherent.mono fun p hp => by
      rcases List.mem_append.mp hp with hp | hp
      · exact List.mem_flatMap.mpr ⟨combined "S" 3, by simp [readings], hp⟩
      · exact List.mem_flatMap.mpr ⟨idiom, by simp [readings], hp⟩
  refine ⟨m, ?_, ?_, ?_⟩
  · have hfind : [combined "V" 1, combined "N" 2, combined "S" 3].find?
        (·.category == idiom.category) = some (combined "S" 3) := rfl
    show gatherCell [combined "V" 1, combined "N" 2, combined "S" 3] idiom = _
    simp only [gatherCell, hfind, hmerge]
    rfl
  · rw [hjoins.category]
    rfl
  · rw [Cell.sheltered, hjoins.hasLexicalStep]
    rfl

theorem chosen_readings {m : Cell LogReal} (hm : m.sheltered true = true) :
    chosen 1 true [m, combined "V" 1, combined "N" 2] = [m, combined "N" 2] ∧
      passedOver 1 true [m, combined "V" 1, combined "N" 2] = [combined "V" 1] := by
  have hsheltered : [m, combined "V" 1, combined "N" 2].filter (·.sheltered true) = [m] := by
    rw [List.filter_cons, hm]
    rfl
  have hcontenders : contenders true [m, combined "V" 1, combined "N" 2] =
      [combined "V" 1, combined "N" 2] := by
    rw [contenders, List.filter_cons, hm]
    rfl
  have hlt : (combined "V" 1).pruneKey < (combined "N" 2).pruneKey := pruneKey_combined_lt (by simp)
  have habove : (cutoffOf 1 true [m, combined "V" 1, combined "N" 2]).all
      (· < (combined "N" 2).pruneKey) = true := by
    rw [cutoffOf, hcontenders, all_cutoff_iff (by simp)]
    simp [hlt]
  have hbelow : (cutoffOf 1 true [m, combined "V" 1, combined "N" 2]).all
      (· < (combined "V" 1).pruneKey) = false := by
    rw [← Bool.not_eq_true, cutoffOf, hcontenders, all_cutoff_iff (by simp)]
    simp [hlt.le]
  constructor
  · simp [chosen, hsheltered, hcontenders, habove, hbelow]
  · simp [passedOver, any_le_eq_not_all, hcontenders, habove, hbelow]

theorem selects_of_endsAs_readings :
    let span : Span := ⟨1, 2, 3, by decide, by decide⟩
    Offerable span readings ∧ ∃ merged b, gather readings = .ok merged ∧
      EndsAs 1 true span readings b ∧ b.Selects 1 true merged ∧
      ((b.cells.map (·.2)).map (·.category.type)).Perm [.atom "S", .atom "N"] ∧
      (b.setAside.map (·.category.type)).Perm [.atom "V"] := by
  obtain ⟨merged, hmerged, ⟨b, _, hb⟩, _, hall⟩ := selects_of_endsAs le_rfl offerable_readings
  obtain ⟨hsel, _⟩ := hall b hb
  obtain ⟨m, hgather, htype, hm⟩ := exists_gather_readings
  obtain rfl := Except.ok.inj (hmerged.symm.trans hgather)
  obtain ⟨hchosen, hpassed⟩ := chosen_readings hm
  have htypes : ∀ c d : Cell LogReal, c.Alike id d → d.category.type = c.category.type :=
    fun c d h => congrArg Category.type h.category
  refine ⟨offerable_readings, _, b, hmerged, hb, hsel, ?_, ?_⟩
  · have hkept := hsel.kept.map_perm htypes
    rw [hchosen, List.map_cons, htype] at hkept
    exact hkept
  · have haside := hsel.setAside.map_perm htypes
    rw [hpassed] at haside
    exact haside

end Beam

end Categorial
