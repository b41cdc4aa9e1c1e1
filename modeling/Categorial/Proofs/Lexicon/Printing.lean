import Categorial.Model
import Categorial.Proofs.Category.Printing
import Categorial.Proofs.Lexicon.Texts

/-! # Printed lexicons

What is printed for an entry that was read spells the entry, holds no comment and stays on one line.
So the text of a lexicon that was read is a text of this lexicon.
-/

namespace Categorial

open Text

namespace LexicalEntry

variable {line : List Char} {e e' : LexicalEntry}

/-- What an entry of a text is made of. -/
structure Printable (e : LexicalEntry) : Prop where
  tokens_ne : e.tokens ≠ []
  tokens : ∀ token ∈ e.tokens, token.toList ≠ [] ∧ ∀ c ∈ token.toList, isBlank c = false
  unmarked : ∀ token ∈ e.tokens, Lacks ':' '-' token.toList
  uncommented : ∀ token ∈ e.tokens, Lacks '/' '/' token.toList
  type : e.category.type.Named
  constants : ∀ term ∈ e.category.semantics, ∀ name ∈ term.names,
    NameClass.constant.Names name.toList ∧ Lacks '/' '/' name.toList
  well : e.category.semantics ≠ none ∨ e.category.type = .empty
  origin : NameClass.origin.Names e.origin.toList ∧ Lacks '/' '/' e.origin.toList

theorem printable_defaultOrigin : NameClass.origin.Names defaultOrigin.toList ∧
    Lacks '/' '/' defaultOrigin.toList := by
  refine ⟨NameClass.names_cons (c := 'l') (r := ['e', 'x', 'i', 'c', 'o', 'n']) (by decide)
    (by decide), ?_⟩
  unfold Lacks
  decide

theorem Spells.printable (h : Spells line e) (hlacks : Lacks '/' '/' line) : e.Printable := by
  obtain @⟨tokens, w, u, v, o, w', type, semantics, origin, htokens, hmark, hw, htype, hsemantics,
    horigin, hw', hwell⟩ := h
  have hword : ∀ token ∈ (words tokens).map String.ofList, token.toList ≠ [] ∧
      (∀ c ∈ token.toList, isBlank c = false) ∧ token.toList <:+: tokens := by
    intro token htoken
    obtain ⟨r, hr, rfl⟩ := List.mem_map.mp htoken
    rw [String.toList_ofList]
    exact of_mem_words hr
  have hpart : ∀ before part after : List Char, before ++ (part ++ after) =
      tokens ++ (mark ++ (w ++ (u ++ (v ++ (o ++ w'))))) → Lacks '/' '/' part := by
    intro before part after heq
    exact hlacks.of_part ⟨before, after, by rw [List.append_assoc, heq]⟩
  have hlackstokens : Lacks '/' '/' tokens := hpart [] tokens _ rfl
  refine ⟨?_, fun t ht => ⟨(hword t ht).1, (hword t ht).2.1⟩, ?_, ?_, htype.named, ?_, hwell, ?_⟩
  · obtain ⟨c, hc, hblank⟩ := htokens
    rw [ne_eq, List.map_eq_nil_iff, words_eq_nil]
    exact fun h => Bool.false_ne_true (hblank.symm.trans (h c hc))
  · exact fun t ht => (lacks_iff.mpr hmark).of_part (hword t ht).2.2
  · exact fun t ht => hlackstokens.of_part (hword t ht).2.2
  · intro term hterm name hname
    cases hsemantics with
    | none => cases hterm
    | @some w₁ w₂ x t hw₁ hw₂ hx =>
      obtain rfl := Option.some.inj hterm
      obtain ⟨hnames, hinfix⟩ := hx.names name hname
      have hx : Lacks '/' '/' x :=
        hpart (tokens ++ (mark ++ (w ++ (u ++ (w₁ ++ ':' :: w₂))))) x (o ++ w') (by simp)
      exact ⟨hnames, hx.of_part hinfix⟩
  · cases horigin with
    | default => exact printable_defaultOrigin
    | @named w₁ w₂ x w₃ hw₁ hw₂ hx hw₃ =>
      rw [String.toList_ofList]
      refine ⟨hx, hpart (tokens ++ (mark ++ (w ++ (u ++ (v ++ (w₁ ++ '\x7b' :: w₂)))))) x
        (w₃ ++ '\x7d' :: w') (by simp)⟩

theorem toList_joinTokens {tokens : List String} (h : tokens ≠ []) :
    (joinTokens tokens).toList ++ [' '] = (tokens.map String.toList).flatMap (· ++ [' ']) := by
  rw [joinTokens, String.toList_intercalate]
  induction tokens with
  | nil => exact absurd rfl h
  | cons token tokens ih =>
    cases tokens with
    | nil => simp [List.intercalate]
    | cons next tokens =>
      have hrest := ih (List.cons_ne_nil next tokens)
      rw [List.map_cons, List.flatMap_cons, ← hrest]
      simp [List.intercalate]

def semanticsChars (semantics : Option Term) : List Char :=
  semantics.elim [] fun term => [' '] ++ ':' :: ([' '] ++ term.chars)

def originChars (origin : String) : List Char :=
  [' '] ++ '\x7b' :: ([] ++ (origin.toList ++ ([] ++ ['\x7d'])))

theorem toList_render : e.render.toList = ((joinTokens e.tokens).toList ++ [' ']) ++ (mark ++
    ([' '] ++ (e.category.type.chars ++ (semanticsChars e.category.semantics ++
      (originChars e.origin ++ []))))) := by
  have hcategory : e.category.chars =
      e.category.type.chars ++ semanticsChars e.category.semantics := by
    unfold Category.chars semanticsChars
    cases e.category.semantics <;> simp
  simp [render, Category.render, hcategory, mark, originChars]

/-- What is printed for an entry spells it. -/
theorem Printable.spells (h : e.Printable) : Spells e.render.toList e := by
  have htokens := toList_joinTokens h.tokens_ne
  have hsome : ∃ c ∈ (joinTokens e.tokens).toList ++ [' '], isBlank c = false := by
    obtain ⟨token, tokens, heq⟩ := List.exists_cons_of_ne_nil h.tokens_ne
    obtain ⟨hne, hblank⟩ := h.tokens token (heq ▸ .head _)
    obtain ⟨c, r, hc⟩ := List.exists_cons_of_ne_nil hne
    refine ⟨c, ?_, hblank c (hc ▸ .head _)⟩
    rw [htokens, heq, List.map_cons, List.flatMap_cons, hc]
    exact .head _
  have hmark : ¬ mark <:+: (joinTokens e.tokens).toList ++ [' '] := by
    rw [htokens]
    refine lacks_iff.mp (lacks_flatMap (fun r hr => ?_) (by decide) (by decide))
    obtain ⟨token, htoken, rfl⟩ := List.mem_map.mp hr
    exact h.unmarked token htoken
  have hwords : (words ((joinTokens e.tokens).toList ++ [' '])).map String.ofList = e.tokens := by
    rw [htokens, words_flatMap rfl, List.map_map]
    · conv_rhs => rw [← List.map_id e.tokens]
      exact List.map_congr_left fun token _ => String.ofList_toList
    · intro r hr
      obtain ⟨token, htoken, rfl⟩ := List.mem_map.mp hr
      exact h.tokens token htoken
  have hsemantics : SpellsSemantics (semanticsChars e.category.semantics) e.category.semantics := by
    cases hterm : e.category.semantics with
    | none => exact .none
    | some term =>
      exact .some .singleton .singleton (Term.spells_chars fun name hname =>
        (h.constants term hterm name hname).1)
  have horigin : SpellsOrigin (originChars e.origin) e.origin := by
    have hnamed := SpellsOrigin.named .singleton .nil h.origin.1 .nil
    rwa [String.ofList_toList] at hnamed
  have hspells := Spells.intro hsome hmark .singleton (SynType.spells_chars h.type).1 hsemantics
    horigin .nil h.well
  rw [hwords] at hspells
  rwa [toList_render]

theorem Printable.lacks (h : e.Printable) : Lacks '/' '/' e.render.toList := by
  have htokens : Lacks '/' '/' (joinTokens e.tokens).toList := by
    have hspaced : Lacks '/' '/' ((joinTokens e.tokens).toList ++ [' ']) := by
      rw [toList_joinTokens h.tokens_ne]
      refine lacks_flatMap (fun r hr => ?_) (by decide) (by decide)
      obtain ⟨token, htoken, rfl⟩ := List.mem_map.mp hr
      exact h.uncommented token htoken
    exact hspaced.of_part (List.prefix_append _ _).isInfix
  have horigin : Lacks '/' '/' ('\x7b' :: (e.origin.toList ++ ['\x7d'])) :=
    (h.origin.2.append_cons .nil (by decide) (by decide)).cons (by decide)
  have htype := (SynType.detached_chars h.type).lacks
  have hcategory : Lacks '/' '/' (e.category.type.chars ++ (semanticsChars e.category.semantics ++
      ' ' :: '\x7b' :: (e.origin.toList ++ ['\x7d']))) := by
    cases hterm : e.category.semantics with
    | none => exact htype.append_cons horigin (by decide) (by decide)
    | some term =>
      have hchars := Term.lacks_chars fun name hname => (h.constants term hterm name hname).2
      have hrest := hchars.append_cons horigin (c := ' ') (by decide) (by decide)
      have hcolon := ((hrest.cons (c := ' ') (by decide)).cons (c := ':') (by decide))
      simpa [semanticsChars] using htype.append_cons hcolon (c := ' ') (by decide) (by decide)
  have hmarked := ((hcategory.cons (c := ' ') (by decide)).cons (c := '-') (by decide)).cons
    (c := ':') (by decide)
  rw [toList_render]
  simpa [mark, originChars] using htokens.append_cons hmarked (c := ' ') (by decide) (by decide)

theorem Printable.not_feed (h : e.Printable) : '\n' ∉ e.render.toList := by
  have htokens : '\n' ∉ (joinTokens e.tokens).toList ++ [' '] := by
    rw [toList_joinTokens h.tokens_ne, List.mem_flatMap]
    rintro ⟨r, hr, hfeed⟩
    obtain ⟨token, htoken, rfl⟩ := List.mem_map.mp hr
    rcases List.mem_append.mp hfeed with hfeed | hfeed
    · exact absurd ((h.tokens token htoken).2 _ hfeed) (by decide)
    · exact absurd hfeed (by decide)
  have hsemantics : '\n' ∉ semanticsChars e.category.semantics := by
    cases hterm : e.category.semantics with
    | none => exact List.not_mem_nil
    | some term =>
      have hchars := Term.not_feed_chars fun name hname => (h.constants term hterm name hname).1
      simp [semanticsChars, hchars]
  have horigin : '\n' ∉ e.origin.toList := h.origin.1.not_mem (by decide)
  have htype := SynType.not_feed_chars h.type
  rw [toList_render, List.mem_append, not_or]
  exact ⟨htokens, by simp [mark, originChars, htype, hsemantics, horigin]⟩

theorem render_ends : ∃ s, e.render.toList = s ++ ['\x7d'] := by
  rw [toList_render]
  refine ⟨((joinTokens e.tokens).toList ++ [' ']) ++ (mark ++ ([' '] ++ (e.category.type.chars ++
    (semanticsChars e.category.semantics ++ ' ' :: '\x7b' :: e.origin.toList)))), ?_⟩
  simp [originChars]

theorem Printable.trim_render (h : e.Printable) : trim e.render.toList = e.render.toList := by
  apply trim_eq_self
  · obtain ⟨token, tokens, heq⟩ := List.exists_cons_of_ne_nil h.tokens_ne
    obtain ⟨hne, hblank⟩ := h.tokens token (heq ▸ .head _)
    obtain ⟨c, r, hc⟩ := List.exists_cons_of_ne_nil hne
    have hstart : isBlank c = false := hblank c (hc ▸ .head _)
    rw [toList_render, toList_joinTokens h.tokens_ne, heq, List.map_cons, List.flatMap_cons, hc]
    simp only [List.cons_append, stops_cons]
    exact hstart
  · obtain ⟨s, hs⟩ := render_ends (e := e)
    rw [hs, List.reverse_append]
    exact stops_cons.mpr (by decide)

theorem Printable.lineSpells (h : e.Printable) : Lexicon.LineSpells e.render.toList (some e) := by
  have hholds : Lexicon.Holds e.render.toList (trim e.render.toList) :=
    .whole (lacks_iff.mp h.lacks)
  rw [h.trim_render] at hholds
  exact .entry hholds h.spells

theorem Printable.eq_of_render (h : e.Printable) (h' : e'.Printable) (heq : e.render = e'.render) :
    e = e' :=
  h.spells.unique (heq ▸ h'.spells)

end LexicalEntry

namespace Lexicon

variable {text text' : String} {lexicon lexicon' : Lexicon} {line : List Char} {e : LexicalEntry}

theorem LineSpells.printable (h : LineSpells line (some e)) : e.Printable := by
  cases h with
  | entry h hspells =>
    refine hspells.printable ?_
    cases h with
    | whole hmark => exact (lacks_iff.mpr hmark).of_part (trim_isInfix _)
    | commented hcut => exact (lacks_iff.mpr (hcut.not_before nofun)).of_part (trim_isInfix _)

theorem printable_of_ofString (h : ofString text = .ok lexicon) :
    ∀ e ∈ lexicon.entries, e.Printable := by
  obtain ⟨founds, hfounds, rfl⟩ := readLines_eq_ok.mp h
  intro e he
  have hmem : e ∈ founds.reduceOption := mem_entries_ofEntries.mp he
  rw [List.reduceOption_mem_iff] at hmem
  obtain ⟨hlength, hget⟩ := List.forall₂_iff_get.mp hfounds
  obtain ⟨i, hi, hsome⟩ := List.getElem_of_mem hmem
  have hspells := hget i (hlength ▸ hi) hi
  simp only [List.get_eq_getElem, hsome] at hspells
  exact hspells.printable

theorem tabular_of_ofString (h : ofString text = .ok lexicon) : lexicon.Tabular := by
  obtain ⟨founds, -, rfl⟩ := readLines_eq_ok.mp h
  exact tabular_ofEntries _

theorem lines_render (h : ∀ e ∈ lexicon.entries, e.Printable) :
    lines lexicon.render.toList = lexicon.entries.map fun e => e.render.toList := by
  have htext : lexicon.render.toList =
      (lexicon.entries.map fun e => e.render.toList).flatMap (· ++ ['\n']) := by
    rw [render, String.toList_join, List.flatMap_map, List.flatMap_map]
    simp
  rw [htext]
  apply lines_flatMap
  · rintro l hl
    obtain ⟨e, he, rfl⟩ := List.mem_map.mp hl
    exact (h e he).not_feed
  · rintro l hl
    obtain ⟨e, he, rfl⟩ := List.mem_map.mp hl
    obtain ⟨s, hs⟩ := e.render_ends
    rw [hs, List.getLast?_concat]
    exact nofun

/-- A lexicon that was read from a text is read again from its own text. -/
theorem ofString_render (h : ofString text = .ok lexicon) :
    ofString lexicon.render = .ok lexicon := by
  have hprintable := printable_of_ofString h
  refine readLines_eq_ok.mpr ⟨lexicon.entries.map some, ?_, ?_⟩
  · rw [lines_render hprintable]
    refine List.forall₂_map_left_iff.mpr (List.forall₂_map_right_iff.mpr ?_)
    exact List.forall₂_same.mpr fun e he => (hprintable e he).lineSpells
  · have hkept : (lexicon.entries.map some).reduceOption = lexicon.entries := by
      simp [List.reduceOption]
    rw [hkept]
    exact (tabular_of_ofString h).ofEntries_entries.symm

/-- Printing keeps all there is to a lexicon that was read: the text gives it again, and no two
different entries of lexicons that were read are printed alike or share a feature. -/
theorem reads_back (h : ofString text = .ok lexicon) : ofString lexicon.render = .ok lexicon ∧
    ∀ text' lexicon', ofString text' = .ok lexicon' →
      ∀ e ∈ lexicon.entries, ∀ e' ∈ lexicon'.entries,
        (e.render = e'.render → e = e') ∧
        (FeatureSet.entryKey e = FeatureSet.entryKey e' → e = e') := by
  refine ⟨ofString_render h, fun text' lexicon' h' e he e' he' => ?_⟩
  have hprintable := printable_of_ofString h e he
  have hprintable' := printable_of_ofString h' e' he'
  refine ⟨hprintable.eq_of_render hprintable', fun hkey => ?_⟩
  exact hprintable.eq_of_render hprintable' ((String.append_right_inj _).mp hkey)

def determiners : Lexicon where
  groups := [
    ⟨["the"], [⟨["the"], ⟨.complex (.atom "N") .forward (.atom "N"), some (.const "the")⟩, "det"⟩]⟩,
    ⟨[","], [⟨[","], .empty, "lexicon"⟩]⟩]

theorem reads_back_determiners :
    ofString "the :- N/N : the \x7bdet\x7d // often\n, :- (EMPTY)" = .ok determiners ∧
      ofString determiners.render = .ok determiners := by
  have hread :
      ofString "the :- N/N : the \x7bdet\x7d // often\n, :- (EMPTY)" = .ok determiners := by
    unfold ofString
    simp only [String.reduceToList]
    decide +kernel
  exact ⟨hread, (reads_back hread).1⟩

end Lexicon

end Categorial
