import Categorial.Proofs.Category.Grammar

/-! # Printed types and terms

What is printed for a type or a term spells it again if its names are names of their classes, as
those of everything that was read are.
-/

namespace Categorial

open Text

variable {u : List Char} {e : Extent}

theorem Text.Spacing.singleton : Spacing [' '] := by
  simp [Spacing, isSpacing]

theorem NameClass.Names.not_mem {cls : NameClass} (h : cls.Names u) {c : Char}
    (hc : cls.continues c = false) : c ∉ u :=
  fun hmem => Bool.false_ne_true (hc.symm.trans (h.continues c hmem))

theorem NameClass.Names.lacks {cls : NameClass} (h : cls.Names u) {c : Char}
    (hc : cls.continues c = false) : Lacks c c u := by
  refine lacks_iff.mpr fun hinfix => h.not_mem hc ?_
  exact hinfix.subset (.head _)

namespace SynType

variable {t : SynType}

theorem Spells.named (h : Spells e u t) : t.Named := by
  induction h with
  | name hu =>
    unfold ofName
    split
    · exact trivial
    · next hne => exact ⟨hne, by rwa [String.toList_ofList]⟩
  | group _ _ _ ih => exact ih
  | single _ ih => exact ih
  | slash _ _ _ _ _ ihu ihv => exact ⟨ihu, ihv⟩

theorem names_emptyName : NameClass.atom.Names emptyName.toList :=
  NameClass.names_cons (c := 'E') (r := ['M', 'P', 'T', 'Y']) (by decide) (by decide)

def nested (t : SynType) : List Char :=
  if t.isComplex then enclose t.chars else t.chars

theorem chars_complex {result arg : SynType} {slash : Slash} :
    (complex result slash arg).chars = result.nested ++ slash.symbol :: arg.nested := rfl

theorem nested_of_complex (h : t.isComplex = true) : t.nested = '(' :: (t.chars ++ [')']) :=
  if_pos h

theorem nested_of_not (h : t.isComplex = false) : t.nested = t.chars :=
  if_neg (by simp [h])

theorem spells_nested (h : Spells .chain t.chars t)
    (hsimple : t.isComplex = false → Spells .primary t.chars t) : Spells .primary t.nested t := by
  cases hc : t.isComplex with
  | false =>
    rw [nested_of_not hc]
    exact hsimple hc
  | true =>
    rw [nested_of_complex hc]
    exact .group .nil h .nil

theorem spells_chars (h : t.Named) :
    Spells .chain t.chars t ∧ (t.isComplex = false → Spells .primary t.chars t) := by
  induction t with
  | atom name =>
    have hname : Spells .primary name.toList (.atom name) := by
      have hread : ofName (String.ofList name.toList) = .atom name := by
        rw [String.ofList_toList, ofName, if_neg h.1]
      exact hread ▸ .name h.2
    exact ⟨.single hname, fun _ => hname⟩
  | complex result slash arg ihr iha =>
    have hresult := ihr h.1
    have harg := iha h.2
    refine ⟨?_, nofun⟩
    exact .slash (.single (spells_nested hresult.1 hresult.2)) .nil slash .nil
      (spells_nested harg.1 harg.2)
  | empty =>
    have hname : Spells .primary emptyName.toList .empty := by
      have hread : ofName (String.ofList emptyName.toList) = .empty := by
        rw [String.ofList_toList, ofName, if_pos rfl]
      exact hread ▸ .name names_emptyName
    exact ⟨.single hname, fun _ => hname⟩

/-- There are no two slashes in a row in the text, and none at its ends. -/
structure Detached (u : List Char) : Prop where
  lacks : Lacks '/' '/' u
  head : ∃ c r, u = c :: r ∧ c ≠ '/'
  last : ∃ r c, u = r ++ [c] ∧ c ≠ '/'

theorem Detached.append_cons {u v : List Char} (hu : Detached u) (hv : Detached v) (c : Char) :
    Detached (u ++ c :: v) := by
  obtain ⟨d, r, rfl, hd⟩ := hu.head
  obtain ⟨r', d', rfl, hd'⟩ := hv.last
  refine ⟨?_, ⟨d, _, rfl, hd⟩, ⟨d :: r ++ c :: r', d', by simp, hd'⟩⟩
  refine List.isChain_append.mpr ⟨hu.lacks, List.IsChain.cons hv.lacks ?_, ?_⟩
  · obtain ⟨a, w, hw, ha⟩ := hv.head
    rw [hw]
    rintro b hb ⟨-, rfl⟩
    exact ha (Option.some.inj hb)
  · obtain ⟨w, a, hw, ha⟩ := hu.last
    rw [hw, List.getLast?_concat]
    rintro b hb _ - ⟨rfl, -⟩
    exact ha (Option.some.inj hb)

theorem detached_name (h : NameClass.atom.Names u) : Detached u where
  lacks := h.lacks (by decide)
  head := by
    have hnot : '/' ∉ u := h.not_mem (by decide)
    obtain ⟨c, r, rfl, -⟩ := h
    exact ⟨c, r, rfl, fun hc => hnot (hc ▸ .head _)⟩
  last := by
    refine ⟨u.dropLast, u.getLast h.ne_nil, (List.dropLast_append_getLast h.ne_nil).symm, ?_⟩
    exact fun hc => h.not_mem (c := '/') (by decide) (hc ▸ List.getLast_mem h.ne_nil)

theorem detached_nested (h : Detached t.chars) : Detached t.nested := by
  cases hc : t.isComplex with
  | false => rwa [nested_of_not hc]
  | true =>
    rw [nested_of_complex hc]
    refine ⟨?_, ⟨'(', _, rfl, by decide⟩, ⟨'(' :: t.chars, ')', rfl, by decide⟩⟩
    exact Lacks.append_cons (u := []) .nil
      (h.lacks.append_cons (v := []) .nil (by decide) (by decide)) (by decide) (by decide)

theorem detached_chars (h : t.Named) : Detached t.chars := by
  induction t with
  | atom name => exact detached_name h.2
  | complex result slash arg ihr iha =>
    exact (detached_nested (ihr h.1)).append_cons (detached_nested (iha h.2)) slash.symbol
  | empty => exact detached_name names_emptyName

theorem not_feed_chars (h : t.Named) : '\n' ∉ t.chars := by
  have hnested : ∀ t : SynType, '\n' ∉ t.chars → '\n' ∉ t.nested := by
    intro t ht
    cases hc : t.isComplex with
    | false => rwa [nested_of_not hc]
    | true => simpa [nested_of_complex hc] using ht
  induction t with
  | atom name => exact h.2.not_mem (by decide)
  | complex result slash arg ihr iha =>
    have hslash : '\n' ≠ slash.symbol := by cases slash <;> decide
    simp [chars_complex, hnested _ (ihr h.1), hnested _ (iha h.2), hslash]
  | empty => exact names_emptyName.not_mem (by decide)

end SynType

namespace Term

variable {t : Term}

theorem Spells.names (h : Spells e u t) :
    ∀ name ∈ t.names, NameClass.constant.Names name.toList ∧ name.toList <:+: u := by
  induction h with
  | name hu =>
    intro name hname
    rw [List.mem_singleton.mp hname, String.toList_ofList]
    exact ⟨hu, List.infix_rfl⟩
  | @comp w u w₁ w₂ v w₃ outer inner _ _ _ _ _ _ ihu ihv =>
    intro name hname
    rcases List.mem_append.mp hname with hname | hname
    · obtain ⟨hnames, hinfix⟩ := ihu name hname
      refine ⟨hnames, hinfix.trans ⟨'(' :: w, w₁ ++ '.' :: (w₂ ++ (v ++ (w₃ ++ [')']))), ?_⟩⟩
      simp
    · obtain ⟨hnames, hinfix⟩ := ihv name hname
      refine ⟨hnames, hinfix.trans ⟨'(' :: (w ++ (u ++ (w₁ ++ '.' :: w₂))), w₃ ++ [')'], ?_⟩⟩
      simp
  | @group w u w' t _ _ _ ih =>
    intro name hname
    obtain ⟨hnames, hinfix⟩ := ih name hname
    refine ⟨hnames, hinfix.trans ⟨'(' :: w, w' ++ [')'], ?_⟩⟩
    simp
  | single _ ih => exact ih
  | @app u w v fn arg _ _ _ _ ihu ihv =>
    intro name hname
    rcases List.mem_append.mp hname with hname | hname
    · obtain ⟨hnames, hinfix⟩ := ihu name hname
      exact ⟨hnames, hinfix.trans (List.prefix_append u _).isInfix⟩
    · obtain ⟨hnames, hinfix⟩ := ihv name hname
      refine ⟨hnames, hinfix.trans ⟨u ++ w, [], ?_⟩⟩
      simp

theorem chars_app {fn arg : Term} :
    (app fn arg).chars = '(' :: (fn.chars ++ ' ' :: (arg.chars ++ [')'])) := by
  simp [chars]

theorem chars_comp {outer inner : Term} : (comp outer inner).chars =
    '(' :: (outer.chars ++ ' ' :: '.' :: ' ' :: (inner.chars ++ [')'])) := by
  simp [chars]

theorem spells_chars (h : ∀ name ∈ t.names, NameClass.constant.Names name.toList) :
    Spells .primary t.chars t := by
  induction t with
  | const name =>
    have hname := Spells.name (h name (.head _))
    rwa [String.ofList_toList] at hname
  | app fn arg ihf iha =>
    have hfn := ihf fun name hname => h name (List.mem_append_left _ hname)
    have harg := iha fun name hname => h name (List.mem_append_right _ hname)
    have happ : Spells .chain (fn.chars ++ ([' '] ++ arg.chars)) (.app fn arg) :=
      .app (.single hfn) .singleton harg fun _ _ _ => stops_cons.mpr (by decide)
    have hgroup := Spells.group .nil happ .nil
    rw [chars_app]
    simpa using hgroup
  | comp outer inner iho ihi =>
    have houter := iho fun name hname => h name (List.mem_append_left _ hname)
    have hinner := ihi fun name hname => h name (List.mem_append_right _ hname)
    have hcomp := Spells.comp .nil houter .singleton .singleton hinner .nil
    rw [chars_comp]
    simpa using hcomp

theorem lacks_chars (h : ∀ name ∈ t.names, Lacks '/' '/' name.toList) : Lacks '/' '/' t.chars := by
  induction t with
  | const name => exact h name (.head _)
  | app fn arg ihf iha =>
    have hfn := ihf fun name hname => h name (List.mem_append_left _ hname)
    have harg := iha fun name hname => h name (List.mem_append_right _ hname)
    rw [chars_app]
    refine Lacks.append_cons (u := []) .nil (hfn.append_cons ?_ ?_ ?_) ?_ ?_
    · exact harg.append_cons .nil (by decide) (by decide)
    all_goals decide
  | comp outer inner iho ihi =>
    have houter := iho fun name hname => h name (List.mem_append_left _ hname)
    have hinner := ihi fun name hname => h name (List.mem_append_right _ hname)
    rw [chars_comp]
    refine Lacks.append_cons (u := []) .nil (houter.append_cons (Lacks.append_cons (u := []) .nil
      (Lacks.append_cons (u := []) .nil (hinner.append_cons .nil ?_ ?_) ?_ ?_) ?_ ?_) ?_ ?_) ?_ ?_
    all_goals decide

theorem not_feed_chars (h : ∀ name ∈ t.names, NameClass.constant.Names name.toList) :
    '\n' ∉ t.chars := by
  induction t with
  | const name => exact (h name (.head _)).not_mem (by decide)
  | app fn arg ihf iha =>
    have hfn := ihf fun name hname => h name (List.mem_append_left _ hname)
    have harg := iha fun name hname => h name (List.mem_append_right _ hname)
    simp [chars_app, hfn, harg]
  | comp outer inner iho ihi =>
    have houter := iho fun name hname => h name (List.mem_append_left _ hname)
    have hinner := ihi fun name hname => h name (List.mem_append_right _ hname)
    simp [chars_comp, houter, hinner]

end Term

end Categorial
