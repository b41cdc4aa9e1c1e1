import Categorial.Proofs.Chart.Names
import Categorial.Proofs.Parser.Reading

/-! # Rules under other handles

Rules see categories and the names of the rules below them, but no handles. So what they yield for
cells that are alike are the same steps under other handles, or a fault in both cases.
-/

namespace Categorial

variable {S : Type} {ρ : CellId → CellId}

structure Paired {α β : Type} (R : α → β → Prop) (xs : List α) (ys : List β) : Prop where
  forth : ∀ x ∈ xs, ∃ y ∈ ys, R x y
  back : ∀ y ∈ ys, ∃ x ∈ xs, R x y

theorem Paired.imp {α β : Type} {R T : α → β → Prop} {xs : List α} {ys : List β}
    (h : Paired R xs ys) (hRT : ∀ x y, R x y → T x y) : Paired T xs ys where
  forth x hx := by
    obtain ⟨y, hy, hR⟩ := h.forth x hx
    exact ⟨y, hy, hRT x y hR⟩
  back y hy := by
    obtain ⟨x, hx, hR⟩ := h.back y hy
    exact ⟨x, hx, hRT x y hR⟩

theorem Paired.refl {α : Type} {R : α → α → Prop} (h : ∀ x, R x x) (xs : List α) : Paired R xs xs :=
  ⟨fun x hx => ⟨x, hx, h x⟩, fun x hx => ⟨x, hx, h x⟩⟩

theorem AlikeCells.paired {cs ds : List (Cell S)} (h : AlikeCells ρ cs ds) :
    Paired (Cell.Alike ρ) cs ds :=
  ⟨fun _ hc => h.exists_of_mem hc, fun _ hd => h.exists_of_mem_right hd⟩

def Idle (x : Except Fault (List (Cell S))) : Prop :=
  ∃ cs, x = .ok cs ∧ stepsOf cs = []

/-- The second computation gives the steps of the first one under other handles. -/
structure Corresponds (ρ : CellId → CellId) (x y : Except Fault (List (Cell S))) : Prop where
  ok_iff : (∃ ds, y = .ok ds) ↔ ∃ cs, x = .ok cs
  mem_iff : ∀ cs ds, x = .ok cs → y = .ok ds →
    ∀ q, q ∈ stepsOf ds ↔ ∃ p ∈ stepsOf cs, p.rename ρ = q

namespace Corresponds

theorem none : Corresponds ρ (.ok ([] : List (Cell S))) (.ok []) := by
  refine ⟨Iff.rfl, fun cs ds hcs hds q => ?_⟩
  obtain rfl := Except.ok.inj hcs
  obtain rfl := Except.ok.inj hds
  simp [stepsOf]

theorem one [Scalar S] (p : PackedStep S) :
    Corresponds ρ (.ok [.new p.step p.children])
      (.ok [.new (p.rename ρ).step (p.rename ρ).children]) := by
  refine ⟨⟨fun _ => ⟨_, rfl⟩, fun _ => ⟨_, rfl⟩⟩, fun cs ds hcs hds q => ?_⟩
  obtain rfl := Except.ok.inj hcs
  obtain rfl := Except.ok.inj hds
  simp [stepsOf, Cell.new, eq_comm]

theorem bind {α : Type} {x : Except Fault α} {f g : α → Except Fault (List (Cell S))}
    (h : ∀ a, Corresponds ρ (f a) (g a)) : Corresponds ρ (x >>= f) (x >>= g) := by
  cases x with
  | error fault => exact ⟨Iff.rfl, nofun⟩
  | ok a => exact h a

theorem ite {c : Prop} [Decidable c] {x x' y y' : Except Fault (List (Cell S))}
    (h : Corresponds ρ x y) (h' : Corresponds ρ x' y') :
    Corresponds ρ (if c then x else x') (if c then y else y') := by
  split_ifs
  · exact h
  · exact h'

theorem idle_iff {x y : Except Fault (List (Cell S))} (h : Corresponds ρ x y) :
    Idle y ↔ Idle x := by
  constructor
  · rintro ⟨ds, hds, hnone⟩
    obtain ⟨cs, hcs⟩ := h.ok_iff.mp ⟨ds, hds⟩
    refine ⟨cs, hcs, List.eq_nil_iff_forall_not_mem.mpr fun p hp => ?_⟩
    have hq := (h.mem_iff cs ds hcs hds _).mpr ⟨p, hp, rfl⟩
    simp [hnone] at hq
  · rintro ⟨cs, hcs, hnone⟩
    obtain ⟨ds, hds⟩ := h.ok_iff.mpr ⟨cs, hcs⟩
    refine ⟨ds, hds, List.eq_nil_iff_forall_not_mem.mpr fun q hq => ?_⟩
    obtain ⟨p, hp, _⟩ := (h.mem_iff cs ds hcs hds q).mp hq
    simp [hnone] at hp

variable {α β : Type} {f : α → Except Fault (List (Cell S))} {g : β → Except Fault (List (Cell S))}
  {xs : List α} {ys : List β}

theorem yieldAll_of (hforth : ∀ x ∈ xs, ∃ y ∈ ys, Corresponds ρ (f x) (g y))
    (hback : ∀ y ∈ ys, (∃ x ∈ xs, Corresponds ρ (f x) (g y)) ∨ Idle (g y)) :
    Corresponds ρ (Categorial.yieldAll f xs) (Categorial.yieldAll g ys) := by
  refine ⟨?_, fun cs ds hcs hds q => ?_⟩
  · rw [exists_yieldAll_iff, exists_yieldAll_iff]
    constructor
    · intro hall x hx
      obtain ⟨y, hy, hxy⟩ := hforth x hx
      exact hxy.ok_iff.mp (hall y hy)
    · intro hall y hy
      rcases hback y hy with ⟨x, hx, hxy⟩ | ⟨zs, hzs, _⟩
      · exact hxy.ok_iff.mpr (hall x hx)
      · exact ⟨zs, hzs⟩
  · simp only [mem_stepsOf]
    constructor
    · rintro ⟨d, hd, hq⟩
      obtain ⟨y, hy, zs, hzs, hd⟩ := (mem_yieldAll hds).mp hd
      have hq := mem_stepsOf.mpr ⟨d, hd, hq⟩
      rcases hback y hy with ⟨x, hx, hxy⟩ | ⟨ws, hws, hnone⟩
      · obtain ⟨ws, hws⟩ := hxy.ok_iff.mp ⟨zs, hzs⟩
        obtain ⟨p, hp, rfl⟩ := (hxy.mem_iff ws zs hws hzs q).mp hq
        obtain ⟨c, hc, hp⟩ := mem_stepsOf.mp hp
        exact ⟨p, ⟨c, (mem_yieldAll hcs).mpr ⟨x, hx, ws, hws, hc⟩, hp⟩, rfl⟩
      · obtain rfl := Except.ok.inj (hzs.symm.trans hws)
        simp [hnone] at hq
    · rintro ⟨p, ⟨c, hc, hp⟩, rfl⟩
      obtain ⟨x, hx, ws, hws, hc⟩ := (mem_yieldAll hcs).mp hc
      obtain ⟨y, hy, hxy⟩ := hforth x hx
      obtain ⟨zs, hzs⟩ := hxy.ok_iff.mpr ⟨ws, hws⟩
      have hq := (hxy.mem_iff ws zs hws hzs _).mpr ⟨p, mem_stepsOf.mpr ⟨c, hc, hp⟩, rfl⟩
      obtain ⟨d, hd, hq⟩ := mem_stepsOf.mp hq
      exact ⟨d, (mem_yieldAll hds).mpr ⟨y, hy, zs, hzs, hd⟩, hq⟩

theorem yieldAll (h : Paired (fun x y => Corresponds ρ (f x) (g y)) xs ys) :
    Corresponds ρ (Categorial.yieldAll f xs) (Categorial.yieldAll g ys) :=
  yieldAll_of h.forth fun y hy => .inl (h.back y hy)

end Corresponds

theorem Cell.Alike.ruleNames_eq {c d : Cell S} (h : c.Alike ρ d) : d.ruleNames = c.ruleNames := by
  apply Cell.ruleNames_eq_of_mem
  intro name
  simp only [h.steps.mem_iff, List.mem_map]
  constructor
  · rintro ⟨_, ⟨p, hp, rfl⟩, hname⟩
    exact ⟨p, hp, hname⟩
  · rintro ⟨p, hp, hname⟩
    exact ⟨_, ⟨p, hp, rfl⟩, hname⟩

theorem Making.view_rename (m : Making) : (m.rename ρ).view = m.view := by
  obtain ⟨source, _, _, _, _⟩ := m
  cases source <;> rfl

theorem Step.scored_rename (model : Model S) (m : Making) (full : Bool) :
    scored model (m.rename ρ) full = (scored model m full).rename ρ := by
  simp only [scored, Making.view_rename, Step.rename]

theorem Step.overload_rename (model : Model S) (s : Step S) (unary : RuleResult) (full : Bool) :
    (s.rename ρ).overload model unary full = (·.rename ρ) <$> s.overload model unary full := by
  show (s.rule.overload unary.name >>= fun name => .ok (scored model
    (Making.rename ρ ⟨s.making.source, name, s.span, unary.category, some s.root⟩) full)) = _
  simp only [Step.scored_rename, Step.overload]
  cases s.rule.overload unary.name <;> rfl

namespace Context

variable {ctx : Context S} {span : Span} {a b a' b' : Argument S} {c d : Cell S}

structure Argument.Renamed (ρ : CellId → CellId) (a a' : Argument S) : Prop where
  id_eq : a'.id = ρ a.id
  cell : a.cell.Alike ρ a'.cell
  names : a.ruleNames = a.cell.ruleNames ∧ a'.ruleNames = a'.cell.ruleNames

theorem Argument.Renamed.names_eq (h : a.Renamed ρ a') : a'.ruleNames = a.ruleNames := by
  rw [h.names.1, h.names.2, h.cell.ruleNames_eq]

theorem applyBinary_renamed (ha : a.Renamed ρ a') (hb : b.Renamed ρ b') (rule : BinaryRule) :
    ctx.applyBinary rule a' b' = ctx.applyBinary rule a b := by
  simp only [applyBinary, ha.cell.span, hb.cell.span, ha.cell.category, hb.cell.category,
    ha.names_eq, hb.names_eq]

theorem applyUnary_alike (h : c.Alike ρ d) (id : CellId) (rule : UnaryRule) :
    ctx.applyUnary rule ⟨id, d, d.ruleNames⟩ = ctx.applyUnary rule ⟨id, c, c.ruleNames⟩ := by
  simp only [applyUnary, h.span, h.category, h.ruleNames_eq]

theorem plainSteps_paired (h : c.Alike ρ d) :
    Paired (fun p q => p.rename ρ = q) (plainSteps c) (plainSteps d) := by
  constructor
  · intro p hp
    obtain ⟨hp, hplain⟩ := List.mem_filter.mp hp
    refine ⟨p.rename ρ, List.mem_filter.mpr ⟨?_, hplain⟩, rfl⟩
    exact h.steps.mem_iff.mpr (List.mem_map_of_mem hp)
  · intro q hq
    obtain ⟨hq, hplain⟩ := List.mem_filter.mp hq
    obtain ⟨p, hp, rfl⟩ := List.mem_map.mp (h.steps.mem_iff.mp hq)
    exact ⟨p, List.mem_filter.mpr ⟨hp, hplain⟩, rfl⟩

variable [Scalar S]

theorem ofCells_renamed (ha : a.Renamed ρ a') (hb : b.Renamed ρ b') :
    ChildScores.ofCells [a'.cell, b'.cell] = .ofCells [a.cell, b.cell] := by
  simp only [ChildScores.ofCells, List.foldl_cons, List.foldl_nil, ChildScores.join, Cell.viterbi,
    Cell.numParses, Cell.numViterbiParses, ha.cell.tally, hb.cell.tally, ha.cell.logInside,
    hb.cell.logInside]

theorem binaryCells_corresponds (ha : a.Renamed ρ a') (hb : b.Renamed ρ b') (rule : BinaryRule) :
    Corresponds ρ (ctx.binaryCells span a b rule) (ctx.binaryCells span a' b' rule) := by
  unfold binaryCells
  rw [applyBinary_renamed ha hb, ofCells_renamed ha hb, ha.id_eq, hb.id_eq]
  refine .bind fun result => ?_
  cases result with
  | none => exact .none
  | some result => exact .bind fun _ => .ite .none (.bind fun full => .one ⟨_, _⟩)

/-- The binary rules yield the same for cells on both sides of a split that are the same but for
their handles. -/
theorem binaryYield_corresponds {lefts rights lefts' rights' : List (Argument S)}
    (hl : Paired (Argument.Renamed ρ) lefts lefts')
    (hr : Paired (Argument.Renamed ρ) rights rights') :
    Corresponds ρ (ctx.binaryYield span lefts rights) (ctx.binaryYield span lefts' rights') :=
  .yieldAll (hl.imp fun _ _ ha => .yieldAll (hr.imp fun _ _ hb =>
    .yieldAll (.refl (fun rule => binaryCells_corresponds ha hb rule) _)))

theorem entryCells_corresponds (entry : LexicalEntry) :
    Corresponds ρ (ctx.entryCells span entry) (ctx.entryCells span entry) :=
  .bind fun _ => .ite .none (.bind fun full => .one ⟨.lexical ctx.model entry span full, .leaf⟩)

theorem overloadCells_corresponds (result : RuleResult) (full : Bool) (p : PackedStep S) :
    Corresponds ρ (ctx.overloadCells result full p)
      (ctx.overloadCells result full (p.rename ρ)) := by
  show Corresponds ρ _ ((p.step.rename ρ).overload ctx.model result full >>= fun step =>
    .ok [.new step p.children])
  rw [Step.overload_rename, ← bind_pure_comp, bind_assoc]
  exact .bind fun step => .one ⟨step, p.children⟩

theorem unaryOf_corresponds (h : c.Alike ρ d) :
    Corresponds ρ (ctx.unaryOf span c) (ctx.unaryOf span d) := by
  refine .yieldAll (.refl (fun rule => ?_) _)
  unfold unaryCellsOf
  rw [applyUnary_alike h]
  refine .bind fun result => ?_
  cases result with
  | none => exact .none
  | some result =>
    refine .bind fun _ => .ite .none (.bind fun full => .yieldAll ((plainSteps_paired h).imp ?_))
    rintro p _ rfl
    exact overloadCells_corresponds result full p

end Context

end Categorial
