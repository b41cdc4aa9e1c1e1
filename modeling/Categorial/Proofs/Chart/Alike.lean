import Categorial.Proofs.Chart.Stocks

/-! # Cells up to the names of handles

Charts that were filled in a different order give the same cells other handles and list steps in
another order. Cells are alike if they agree once the handles are renamed. Stocks of the same steps
are alike cell by cell.
-/

namespace Categorial

variable {S : Type}

def Source.rename (ρ : CellId → CellId) : Source → Source
  | entry e => entry e
  | cells left right => cells (ρ left) (ρ right)

def Making.rename (ρ : CellId → CellId) (m : Making) : Making :=
  { m with source := m.source.rename ρ }

def Step.rename (ρ : CellId → CellId) (s : Step S) : Step S :=
  { s with making := s.making.rename ρ }

def PackedStep.rename (ρ : CellId → CellId) (p : PackedStep S) : PackedStep S :=
  { p with step := p.step.rename ρ }

section Rename

variable (ρ : CellId → CellId) (p : PackedStep S)

theorem Source.rename_id (s : Source) : s.rename id = s := by
  cases s <;> rfl

theorem PackedStep.rename_id : p.rename id = p := by
  simp [PackedStep.rename, Step.rename, Making.rename, Source.rename_id]

@[simp]
theorem PackedStep.isLexical_rename : (p.rename ρ).step.isLexical = p.step.isLexical := by
  obtain ⟨⟨⟨source, _, _, _, _⟩, _, _, _⟩, _⟩ := p
  cases source <;> rfl

variable [Scalar S]

theorem Tally.ofSteps_rename (steps : List (PackedStep S)) :
    ofSteps (steps.map (·.rename ρ)) = ofSteps steps := by
  rw [ofSteps, List.foldl_map]
  rfl

theorem Cell.sumInside_rename (steps : List (PackedStep S)) :
    sumInside (steps.map (·.rename ρ)) = sumInside steps := by
  rw [sumInside, List.map_map]
  rfl

end Rename

/-- The second cell is the first one with other handles for the children of its steps, which may
stand in another order. -/
structure Cell.Alike (ρ : CellId → CellId) (c d : Cell S) : Prop where
  category : d.category = c.category
  span : d.span = c.span
  steps : d.steps.Perm (c.steps.map (·.rename ρ))
  tally : d.tally = c.tally
  logInside : d.logInside = c.logInside

theorem Cell.Alike.pruneKey {ρ : CellId → CellId} {c d : Cell S} (h : c.Alike ρ d) :
    d.pruneKey = c.pruneKey := by
  rw [Cell.pruneKey, Cell.pruneKey, Cell.viterbi, Cell.viterbi, h.tally, h.logInside]

theorem Cell.Alike.hasLexicalStep {ρ : CellId → CellId} {c d : Cell S} (h : c.Alike ρ d) :
    d.hasLexicalStep = c.hasLexicalStep := by
  rw [Cell.hasLexicalStep, Cell.hasLexicalStep, h.steps.any_eq, List.any_map]
  simp [Function.comp_def]

def AlikeCells (ρ : CellId → CellId) : List (Cell S) → List (Cell S) → Prop :=
  Relation.Comp List.Perm (List.Forall₂ (Cell.Alike ρ))

namespace AlikeCells

variable {ρ : CellId → CellId} {cs ds es : List (Cell S)}

theorem perm_right (h : AlikeCells ρ cs ds) (hp : ds.Perm es) : AlikeCells ρ cs es := by
  obtain ⟨zs, hcz, hzd⟩ := h
  have hcomp : Relation.Comp (List.Forall₂ (Cell.Alike ρ)) List.Perm zs es := ⟨ds, hzd, hp⟩
  rw [List.forall₂_comp_perm_eq_perm_comp_forall₂] at hcomp
  obtain ⟨ys, hzy, hye⟩ := hcomp
  exact ⟨ys, hcz.trans hzy, hye⟩

theorem filter (h : AlikeCells ρ cs ds) {f g : Cell S → Bool}
    (hfg : ∀ c d, c.Alike ρ d → f c = g d) : AlikeCells ρ (cs.filter f) (ds.filter g) := by
  obtain ⟨zs, hcz, hzd⟩ := h
  refine ⟨zs.filter f, hcz.filter f, ?_⟩
  clear hcz
  induction hzd with
  | nil => exact .nil
  | @cons z d zs ds hz _ ih =>
    rw [List.filter_cons, List.filter_cons, hfg z d hz]
    split_ifs
    · exact .cons hz ih
    · exact ih

theorem map_perm {α : Type} {f : Cell S → α} (h : AlikeCells ρ cs ds)
    (hf : ∀ c d : Cell S, c.Alike ρ d → f d = f c) : (cs.map f).Perm (ds.map f) := by
  obtain ⟨zs, hcz, hzd⟩ := h
  refine (hcz.map f).trans (.of_eq ?_)
  clear hcz
  induction hzd with
  | nil => rfl
  | cons hz _ ih => rw [List.map_cons, List.map_cons, hf _ _ hz, ih]

theorem keys_perm (h : AlikeCells ρ cs ds) :
    (cs.map Cell.pruneKey).Perm (ds.map Cell.pruneKey) :=
  h.map_perm fun _ _ => Cell.Alike.pruneKey

theorem length_eq (h : AlikeCells ρ cs ds) : cs.length = ds.length := by
  obtain ⟨zs, hcz, hzd⟩ := h
  exact hcz.length_eq.trans hzd.length_eq

theorem isEmpty_eq (h : AlikeCells ρ cs ds) : ds.isEmpty = cs.isEmpty := by
  rw [Bool.eq_iff_iff, List.isEmpty_iff_length_eq_zero, List.isEmpty_iff_length_eq_zero,
    h.length_eq]

theorem exists_of_mem (h : AlikeCells ρ cs ds) {c : Cell S} (hc : c ∈ cs) :
    ∃ d ∈ ds, c.Alike ρ d := by
  obtain ⟨zs, hcz, hzd⟩ := h
  have hz := hcz.mem_iff.mp hc
  clear hcz
  induction hzd with
  | nil => simp at hz
  | @cons z d zs ds hzd _ ih =>
    rcases List.mem_cons.mp hz with rfl | hz
    · exact ⟨d, .head _, hzd⟩
    · obtain ⟨e, he, ha⟩ := ih hz
      exact ⟨e, .tail _ he, ha⟩

theorem exists_of_mem_right (h : AlikeCells ρ cs ds) {d : Cell S} (hd : d ∈ ds) :
    ∃ c ∈ cs, c.Alike ρ d := by
  obtain ⟨zs, hcz, hzd⟩ := h
  suffices ∃ z ∈ zs, z.Alike ρ d by
    obtain ⟨z, hz, ha⟩ := this
    exact ⟨z, hcz.mem_iff.mpr hz, ha⟩
  clear hcz
  induction hzd with
  | nil => simp at hd
  | @cons z e zs ds hze _ ih =>
    rcases List.mem_cons.mp hd with rfl | hd
    · exact ⟨z, .head _, hze⟩
    · obtain ⟨z', hz', ha⟩ := ih hd
      exact ⟨z', .tail _ hz', ha⟩

end AlikeCells

theorem exists_forall₂ {ρ : CellId → CellId} {cs ds : List (Cell S)}
    (h : ∀ d ∈ ds, ∃ z ∈ cs, z.Alike ρ d) :
    ∃ zs, List.Forall₂ (fun z d => z ∈ cs ∧ z.Alike ρ d) zs ds := by
  induction ds with
  | nil => exact ⟨[], .nil⟩
  | cons d ds ih =>
    obtain ⟨z, hz⟩ := h d (.head _)
    obtain ⟨zs, hzs⟩ := ih fun d hmem => h d (.tail _ hmem)
    exact ⟨z :: zs, .cons hz hzs⟩

theorem mem_of_forall₂ {ρ : CellId → CellId} {cs ds zs : List (Cell S)}
    (h : List.Forall₂ (fun z d => z ∈ cs ∧ z.Alike ρ d) zs ds) {z : Cell S} (hz : z ∈ zs) :
    z ∈ cs := by
  induction h with
  | nil => simp at hz
  | cons hzd _ ih =>
    rcases List.mem_cons.mp hz with rfl | hz
    · exact hzd.1
    · exact ih hz

variable [ExactScalar S] {span : Span} {offered more : List (PackedStep S)} {cs ds : List (Cell S)}

theorem Cell.Packs.alike {ρ : CellId → CellId} {c d : Cell S} (hc : c.Packs span offered)
    (hd : d.Packs span more) (hmore : ∀ q, q ∈ more ↔ ∃ p ∈ offered, p.rename ρ = q)
    (hinj : ∀ p ∈ offered, ∀ q ∈ offered, p.rename ρ = q.rename ρ → p = q)
    (hcat : d.category = c.category) : c.Alike ρ d := by
  have hsteps : d.steps.Perm (c.steps.map (·.rename ρ)) := by
    have hnodup : (c.steps.map (·.rename ρ)).Nodup := by
      refine hc.packed.steps_nodup.map_on fun p hp q hq => ?_
      exact hinj p ((hc.mem_steps p).mp hp).1 q ((hc.mem_steps q).mp hq).1
    apply (List.perm_ext_iff_of_nodup hd.packed.steps_nodup hnodup).mpr
    intro q
    rw [hd.mem_steps, hmore, List.mem_map, hcat]
    constructor
    · rintro ⟨⟨p, hp, rfl⟩, hroot⟩
      exact ⟨p, (hc.mem_steps p).mpr ⟨hp, hroot⟩, rfl⟩
    · rintro ⟨p, hp, rfl⟩
      obtain ⟨hmem, hroot⟩ := (hc.mem_steps p).mp hp
      exact ⟨⟨p, hmem, rfl⟩, hroot⟩
  refine ⟨hcat, hd.span_eq.trans hc.span_eq.symm, hsteps, ?_, ?_⟩
  · rw [hd.packed.tally_eq, hc.packed.tally_eq, Tally.ofSteps_perm hsteps, Tally.ofSteps_rename]
  · rw [hd.packed.logInside_eq, hc.packed.logInside_eq, sumInside_perm hsteps, sumInside_rename]

theorem Stocks.exists_category (hc : Stocks span offered cs) {category : Category} :
    (∃ c ∈ cs, c.category = category) ↔ ∃ p ∈ offered, p.step.root = category := by
  constructor
  · rintro ⟨c, hmem, rfl⟩
    obtain ⟨p, hp, _⟩ := (hc.packs c hmem).packed.flag
    exact ⟨p, ((hc.packs c hmem).mem_steps p).mp hp⟩
  · rintro ⟨p, hp, rfl⟩
    exact hc.covers p hp

/-- Two stocks of the same steps but for their handles are alike. -/
theorem Stocks.alike {ρ : CellId → CellId} (hc : Stocks span offered cs) (hd : Stocks span more ds)
    (hmore : ∀ q, q ∈ more ↔ ∃ p ∈ offered, p.rename ρ = q)
    (hinj : ∀ p ∈ offered, ∀ q ∈ offered, p.rename ρ = q.rename ρ → p = q) :
    AlikeCells ρ cs ds := by
  have hsame : ∀ category, (∃ c ∈ cs, c.category = category) ↔ ∃ d ∈ ds, d.category = category := by
    intro category
    rw [hc.exists_category, hd.exists_category]
    constructor
    · rintro ⟨p, hp, hroot⟩
      exact ⟨p.rename ρ, (hmore _).mpr ⟨p, hp, rfl⟩, hroot⟩
    · rintro ⟨q, hq, hroot⟩
      obtain ⟨p, hp, rfl⟩ := (hmore q).mp hq
      exact ⟨p, hp, hroot⟩
  -- for each of the second cells, the first one of its category
  have hall : ∀ d ∈ ds, ∃ z ∈ cs, z.Alike ρ d := by
    intro d hmem
    obtain ⟨z, hz, hcat⟩ := (hsame d.category).mpr ⟨d, hmem, rfl⟩
    exact ⟨z, hz, (hc.packs z hz).alike (hd.packs d hmem) hmore hinj hcat.symm⟩
  obtain ⟨zs, hzs⟩ := exists_forall₂ hall
  have hcats : zs.map (·.category) = ds.map (·.category) := by
    clear hall hsame hd
    induction hzs with
    | nil => rfl
    | cons hz _ ih => simp [hz.2.category, ih]
  have hnodup : zs.Nodup := (hcats ▸ hd.apart).of_map
  refine ⟨zs, ?_, hzs.imp fun _ _ hz => hz.2⟩
  apply (List.perm_ext_iff_of_nodup hc.apart.of_map hnodup).mpr
  intro c
  constructor
  · intro hmem
    obtain ⟨d, hd', hcat⟩ := (hsame c.category).mp ⟨c, hmem, rfl⟩
    have hcz : c.category ∈ zs.map (·.category) := hcats ▸ List.mem_map.mpr ⟨d, hd', hcat⟩
    obtain ⟨z, hz, hzc⟩ := List.mem_map.mp hcz
    exact hc.eq_of_category hmem (mem_of_forall₂ hzs hz) hzc.symm ▸ hz
  · exact fun hz => mem_of_forall₂ hzs hz

end Categorial
