import Categorial.Lexicon.Reader
import Categorial.Proofs.Category.Reading

/-! # The grammar of a line

An entry is spelled by its tokens, a mark and a category, and may name an origin. The reader of
lines takes just the spellings of entries.
-/

namespace Categorial

open Text

variable {s rest u v w w' o line : List Char} {origin : String}

/-- Only spacing is left, or one of the characters in `cs` comes next. -/
inductive LeadsTo (cs : List Char) : List Char → Prop
  | done {w : List Char} (hw : Spacing w) : LeadsTo cs w
  | next {w r : List Char} {c : Char} (hw : Spacing w) (hc : c ∈ cs) : LeadsTo cs (w ++ c :: r)

theorem LeadsTo.stops {cs : List Char} {p : Char → Bool} (h : LeadsTo cs s)
    (hspacing : ∀ c, isSpacing c = true → p c = false) (hcs : cs.any p = false) : Stops p s := by
  cases h with
  | done hw => exact fun c hc => hspacing c (hw c (List.mem_of_head? hc))
  | @next w r c hw hc =>
    exact hw.stops hspacing (Bool.eq_false_iff.mpr (List.any_eq_false.mp hcs c hc))

theorem LeadsTo.ends (h : LeadsTo [':', '\x7b'] s) : SynType.Ends s where
  name := h.stops (fun _ => NameClass.continues_of_isSpacing) (by decide)
  slash := by
    cases h with
    | done hw =>
      rw [skipSpacing_eq_nil.mpr hw]
      rfl
    | next hw hc =>
      simp only [List.mem_cons, List.not_mem_nil, or_false] at hc
      obtain rfl | rfl := hc
      · rw [skipSpacing_append hw (stops_cons.mpr rfl)]
        rfl
      · rw [skipSpacing_append hw (stops_cons.mpr rfl)]
        rfl

theorem Category.isWellFormed_iff {type : SynType} {semantics : Option Term} :
    (Category.mk type semantics).isWellFormed = true ↔ semantics ≠ none ∨ type = .empty := by
  cases semantics <;> cases type <;> simp [isWellFormed, SynType.isEmpty]

namespace LexicalEntry

inductive SpellsSemantics : List Char → Option Term → Prop
  | none : SpellsSemantics [] none
  | some {w w' u : List Char} {t : Term} (hw : Spacing w) (hw' : Spacing w')
      (hu : Term.Spells .primary u t) : SpellsSemantics (w ++ ':' :: (w' ++ u)) (some t)

/-- `u` spells the origin, or nothing for the one that entries have by default. -/
inductive SpellsOrigin : List Char → String → Prop
  | default : SpellsOrigin [] defaultOrigin
  | named {w w₁ u w₂ : List Char} (hw : Spacing w) (hw₁ : Spacing w₁)
      (hu : NameClass.origin.Names u) (hw₂ : Spacing w₂) :
      SpellsOrigin (w ++ '\x7b' :: (w₁ ++ (u ++ (w₂ ++ ['\x7d'])))) (String.ofList u)

inductive Spells : List Char → LexicalEntry → Prop
  | intro {tokens w u v o w' : List Char} {type : SynType} {semantics : Option Term}
      {origin : String} (htokens : ∃ c ∈ tokens, isBlank c = false) (hmark : ¬ mark <:+: tokens)
      (hw : Spacing w) (htype : SynType.Spells .chain u type)
      (hsemantics : SpellsSemantics v semantics) (horigin : SpellsOrigin o origin)
      (hw' : Spacing w') (hwell : semantics ≠ none ∨ type = .empty) :
      Spells (tokens ++ (mark ++ (w ++ (u ++ (v ++ (o ++ w'))))))
        ⟨(words tokens).map String.ofList, ⟨type, semantics⟩, origin⟩

variable {semantics : Option Term} {e : LexicalEntry}

theorem SpellsOrigin.leadsTo (h : SpellsOrigin o origin) (hw : Spacing w) :
    LeadsTo ['\x7b'] (o ++ w) := by
  cases h with
  | default => exact .done hw
  | named hw =>
    rw [List.append_assoc]
    exact .next hw (.head _)

theorem SpellsSemantics.leadsTo (h : SpellsSemantics v semantics) (hrest : LeadsTo ['\x7b'] rest) :
    LeadsTo [':', '\x7b'] (v ++ rest) := by
  cases h with
  | none =>
    cases hrest with
    | done hw => exact .done hw
    | next hw hc => exact .next hw (.tail _ hc)
  | some hw =>
    rw [List.append_assoc]
    exact .next hw (.head _)

theorem readSemantics_complete (h : SpellsSemantics v semantics) (hrest : LeadsTo ['\x7b'] rest) :
    ∃ r, readSemantics (skipSpacing (v ++ rest)) = .ok (semantics, r) ∧
      skipSpacing r = skipSpacing rest := by
  cases h with
  | none =>
    refine ⟨skipSpacing rest, ?_, skipSpacing_skipSpacing rest⟩
    have hcolon : ∀ r, skipSpacing rest ≠ ':' :: r := by
      intro r hr
      cases hrest with
      | done hw => exact absurd ((skipSpacing_eq_nil.mpr hw).symm.trans hr) nofun
      | next hw hc =>
        rw [List.mem_singleton.mp hc, skipSpacing_append hw (stops_cons.mpr rfl)] at hr
        exact absurd (List.cons.inj hr).1 (by decide)
    unfold readSemantics
    split
    · next hr => exact absurd hr (hcolon _)
    · rfl
  | @some w w' u t hw hw' hu =>
    refine ⟨rest, ?_, rfl⟩
    have htext : w ++ ':' :: (w' ++ u) ++ rest = w ++ ':' :: (w' ++ (u ++ rest)) := by simp
    have hapart : Term.Apart u rest := Term.apart_of_stops
      (hrest.stops (fun _ => NameClass.starts_of_isSpacing) (by decide))
    rw [htext, skipSpacing_append hw (stops_cons.mpr rfl), readSemantics,
      skipSpacing_append hw' hu.stops_isSpacing, hu.read hapart]
    rfl

theorem readSemantics_sound {r : List Char}
    (h : readSemantics (skipSpacing s) = .ok (semantics, r)) :
    ∃ v rest, SpellsSemantics v semantics ∧ s = v ++ rest ∧ skipSpacing r = skipSpacing rest := by
  unfold readSemantics at h
  split at h
  · next s' hcolon =>
    obtain ⟨⟨t, r'⟩, ht, h⟩ := bind_eq_ok.mp h
    obtain ⟨rfl, rfl⟩ := Prod.mk.inj (Except.ok.inj h)
    obtain ⟨u, hu, hskip⟩ := Term.read_sound ht
    obtain ⟨w, hw, hs⟩ := exists_spacing s
    obtain ⟨w', hw', hs'⟩ := exists_spacing s'
    refine ⟨_, r', .some hw hw' hu, ?_, rfl⟩
    rw [hs, hcolon, hs', hskip]
    simp
  · obtain ⟨rfl, rfl⟩ := Prod.mk.inj (Except.ok.inj h)
    exact ⟨[], s, .none, rfl, skipSpacing_skipSpacing s⟩

theorem readOrigin_complete (h : SpellsOrigin o origin) (hw : Spacing w') :
    ∃ r, readOrigin (skipSpacing (o ++ w')) = .ok (origin, r) ∧ skipSpacing r = [] := by
  cases h with
  | default =>
    refine ⟨[], ?_, rfl⟩
    rw [List.nil_append, skipSpacing_eq_nil.mpr hw]
    rfl
  | @named w w₁ u w₂ hw₀ hw₁ hu hw₂ =>
    refine ⟨w', ?_, skipSpacing_eq_nil.mpr hw⟩
    have htext : w ++ '\x7b' :: (w₁ ++ (u ++ (w₂ ++ ['\x7d']))) ++ w' =
        w ++ '\x7b' :: (w₁ ++ (u ++ (w₂ ++ '\x7d' :: w'))) := by simp
    have hleads : LeadsTo ['\x7d'] (w₂ ++ '\x7d' :: w') := .next hw₂ (.head _)
    have hname : readName .origin (u ++ (w₂ ++ '\x7d' :: w')) =
        .ok (String.ofList u, w₂ ++ '\x7d' :: w') :=
      readName_eq_ok.mpr ⟨u, hu, rfl,
        hleads.stops (fun _ => NameClass.continues_of_isSpacing) (by decide), rfl⟩
    have hstops : Stops isSpacing (u ++ (w₂ ++ '\x7d' :: w')) := by
      obtain ⟨c, r, rfl, hc, -⟩ := hu
      exact stops_cons.mpr (NameClass.isSpacing_of_starts hc)
    rw [htext, skipSpacing_append hw₀ (stops_cons.mpr rfl), readOrigin,
      skipSpacing_append hw₁ hstops, hname]
    exact bind_eq_ok.mpr ⟨_, rfl, bind_eq_ok.mpr ⟨w', readCloser_eq_ok.mpr ⟨w₂, hw₂, rfl⟩, rfl⟩⟩

theorem readOrigin_sound {r : List Char} (h : readOrigin (skipSpacing s) = .ok (origin, r)) :
    ∃ o rest, SpellsOrigin o origin ∧ s = o ++ rest ∧ skipSpacing r = skipSpacing rest := by
  unfold readOrigin at h
  split at h
  · next s' hopen =>
    obtain ⟨⟨name, r'⟩, hname, h⟩ := bind_eq_ok.mp h
    obtain ⟨r₁, hcloser, h⟩ := bind_eq_ok.mp h
    obtain ⟨rfl, rfl⟩ := Prod.mk.inj (Except.ok.inj h)
    obtain ⟨u, hu, hskip, -, rfl⟩ := readName_eq_ok.mp hname
    obtain ⟨w₂, hw₂, rfl⟩ := readCloser_eq_ok.mp hcloser
    obtain ⟨w, hw, hs⟩ := exists_spacing s
    obtain ⟨w₁, hw₁, hs'⟩ := exists_spacing s'
    refine ⟨_, r₁, .named hw hw₁ hu hw₂, ?_, rfl⟩
    rw [hs, hopen, hs', hskip]
    simp [Opened.closer]
  · obtain ⟨rfl, rfl⟩ := Prod.mk.inj (Except.ok.inj h)
    exact ⟨[], s, .default, rfl, skipSpacing_skipSpacing s⟩

/-- The tokens of a spelling are what is before the first mark. -/
theorem cutsAt_mark : CutsAt mark s u v ↔ s = u ++ (mark ++ v) ∧ ¬ mark <:+: u :=
  cutsAt_pair (by decide)

theorem ofLine_of_spells (h : Spells line e) : ofLine line = .ok e := by
  obtain @⟨tokens, w, u, v, o, w', type, semantics, origin, htokens, hmark, hw, htype, hsemantics,
    horigin, hw', hwell⟩ := h
  have hcut : cutAt? mark (tokens ++ (mark ++ (w ++ (u ++ (v ++ (o ++ w')))))) = some (tokens, _) :=
    cutAt?_eq_some.mpr (cutsAt_mark.mpr ⟨rfl, hmark⟩)
  have hwords : (words tokens).isEmpty = false := by
    rw [← Bool.not_eq_true, List.isEmpty_iff, words_eq_nil]
    obtain ⟨c, hc, hblank⟩ := htokens
    exact fun h => Bool.false_ne_true (hblank.symm.trans (h c hc))
  have hrest := hsemantics.leadsTo (horigin.leadsTo hw')
  obtain ⟨r, hr, hskip⟩ := readSemantics_complete hsemantics (horigin.leadsTo hw')
  obtain ⟨r', hr', hskip'⟩ := readOrigin_complete horigin hw'
  unfold ofLine
  rw [hcut]
  dsimp only
  rw [hwords, skipSpacing_append hw htype.stops_isSpacing, htype.read hrest.ends]
  refine bind_eq_ok.mpr ⟨_, rfl, bind_eq_ok.mpr ⟨_, hr, ?_⟩⟩
  dsimp only
  rw [hskip, hr']
  refine bind_eq_ok.mpr ⟨_, rfl, ?_⟩
  dsimp only
  rw [hskip', Category.isWellFormed_iff.mpr hwell]
  rfl

theorem spells_of_ofLine (h : ofLine line = .ok e) : Spells line e := by
  unfold ofLine at h
  split at h
  · next tokens s hcut =>
    obtain ⟨rfl, hmark⟩ := cutsAt_mark.mp (cutAt?_eq_some.mp hcut)
    dsimp only at h
    split at h
    · cases h
    · next hwords =>
      obtain ⟨⟨type, s₁⟩, htype, h⟩ := bind_eq_ok.mp h
      obtain ⟨⟨semantics, s₂⟩, hsemantics, h⟩ := bind_eq_ok.mp h
      obtain ⟨⟨origin, s₃⟩, horigin, h⟩ := bind_eq_ok.mp h
      dsimp only at hsemantics horigin h
      split at h
      · cases h
      · next hend =>
        split at h
        · cases h
        · next hwell =>
          obtain rfl := Except.ok.inj h
          obtain ⟨w, hw, hs⟩ := exists_spacing s
          obtain ⟨u, hu, hskip⟩ := SynType.read_sound htype
          obtain ⟨v, r₁, hv, hs₁, hr₁⟩ := readSemantics_sound hsemantics
          rw [hr₁] at horigin
          obtain ⟨o, r₂, ho, hs₂, hr₂⟩ := readOrigin_sound horigin
          have hw' : Spacing r₂ := by
            rw [← skipSpacing_eq_nil, ← hr₂]
            simpa using hend
          rw [hs, hskip, hs₁, hs₂]
          refine .intro ?_ hmark hw hu hv ho hw'
            (Category.isWellFormed_iff.mp (by simpa using hwell))
          have hsome : ¬ ∀ c ∈ tokens, isBlank c = true :=
            mt words_eq_nil.mpr (by simpa using hwords)
          push Not at hsome
          simpa using hsome
  · cases h

/-- A line is read as an entry just where it spells the entry. -/
theorem ofLine_eq_ok : ofLine line = .ok e ↔ Spells line e :=
  ⟨spells_of_ofLine, ofLine_of_spells⟩

theorem Spells.ne_nil (h : Spells line e) : line ≠ [] := by
  cases h
  simp [mark]

theorem Spells.unique {e' : LexicalEntry} (h : Spells line e) (h' : Spells line e') : e = e' :=
  Except.ok.inj ((ofLine_of_spells h).symm.trans (ofLine_of_spells h'))

theorem ofLine_ne_exhausted : ofLine line ≠ .error .exhausted := by
  intro h
  unfold ofLine at h
  split at h
  · dsimp only at h
    split at h
    · cases h
    · rcases bind_eq_error.mp h with h | ⟨⟨type, s₁⟩, -, h⟩
      · exact SynType.read_ne_exhausted h
      rcases bind_eq_error.mp h with h | ⟨⟨semantics, s₂⟩, -, h⟩
      · unfold readSemantics at h
        split at h
        · rcases bind_eq_error.mp h with h | ⟨_, -, h⟩
          · exact Term.read_ne_exhausted h
          · cases h
        · cases h
      rcases bind_eq_error.mp h with h | ⟨⟨origin, s₃⟩, -, h⟩
      · unfold readOrigin at h
        split at h
        · rcases bind_eq_error.mp h with h | ⟨_, -, h⟩
          · exact readName_ne_exhausted h
          rcases bind_eq_error.mp h with h | ⟨_, -, h⟩
          · exact readCloser_ne_exhausted h
          · cases h
        · cases h
      · dsimp only at h
        split at h
        · cases h
        · split at h <;> cases h
  · cases h

end LexicalEntry

end Categorial
