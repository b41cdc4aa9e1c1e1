import Categorial.Text.Blank
import Mathlib.Data.List.Chain
import Mathlib.Data.List.Infix
import Mathlib.Data.List.TakeWhile

/-! # Cutting texts

Spacing can be put in front of a text and skipped again. A text is cut at the first place of a
mark, into pieces that hold no character to cut at, and its ends are trimmed unless they are not
blank.
-/

namespace Categorial.Text

variable {s before after mark : List Char}

/-- Spaces and tabs only. -/
def Spacing (w : List Char) : Prop :=
  ∀ c ∈ w, isSpacing c = true

/-- A text that does not begin with a character in `p`. -/
def Stops (p : Char → Bool) (s : List Char) : Prop :=
  ∀ c ∈ s.head?, p c = false

@[simp]
theorem stops_nil {p : Char → Bool} : Stops p [] := nofun

@[simp]
theorem stops_cons {p : Char → Bool} {c : Char} : Stops p (c :: s) ↔ p c = false := by
  simp [Stops]

theorem Spacing.nil : Spacing [] := nofun

theorem Spacing.stops {p : Char → Bool} {w : List Char} {c : Char} (hw : Spacing w)
    (hspacing : ∀ d, isSpacing d = true → p d = false) (hc : p c = false) :
    Stops p (w ++ c :: s) := by
  cases w with
  | nil => exact stops_cons.mpr hc
  | cons d w => exact stops_cons.mpr (hspacing d (hw d (.head _)))

theorem isBlank_of_isSpacing {c : Char} (h : isSpacing c = true) : isBlank c = true := by
  rcases (Bool.or_eq_true _ _).mp h with h | h
  · rw [beq_iff_eq.mp h]
    decide
  · rw [beq_iff_eq.mp h]
    decide

theorem takeWhile_append_stops {p : Char → Bool} {u : List Char} (hu : ∀ c ∈ u, p c = true)
    (hs : Stops p s) : (u ++ s).takeWhile p = u := by
  rw [List.takeWhile_append_of_pos hu]
  cases s with
  | nil => simp
  | cons c s => simp [stops_cons.mp hs]

theorem dropWhile_append_stops {p : Char → Bool} {u : List Char} (hu : ∀ c ∈ u, p c = true)
    (hs : Stops p s) : (u ++ s).dropWhile p = s := by
  rw [List.dropWhile_append_of_pos hu]
  cases s with
  | nil => rfl
  | cons c s => simp [stops_cons.mp hs]

theorem stops_dropWhile (p : Char → Bool) (s : List Char) : Stops p (s.dropWhile p) := by
  intro c hc
  have := List.head?_dropWhile_not p s
  rw [Option.mem_def.mp hc] at this
  simpa using this

theorem skipSpacing_append {w : List Char} (hw : Spacing w) (hs : Stops isSpacing s) :
    skipSpacing (w ++ s) = s :=
  dropWhile_append_stops hw hs

theorem skipSpacing_eq_self (hs : Stops isSpacing s) : skipSpacing s = s :=
  skipSpacing_append .nil hs

theorem stops_skipSpacing (s : List Char) : Stops isSpacing (skipSpacing s) :=
  stops_dropWhile _ s

@[simp]
theorem skipSpacing_skipSpacing (s : List Char) : skipSpacing (skipSpacing s) = skipSpacing s :=
  skipSpacing_eq_self (stops_skipSpacing s)

theorem exists_spacing (s : List Char) : ∃ w, Spacing w ∧ s = w ++ skipSpacing s :=
  ⟨s.takeWhile isSpacing, fun _ hc => List.mem_takeWhile_imp hc,
    List.takeWhile_append_dropWhile.symm⟩

theorem skipSpacing_eq_nil : skipSpacing s = [] ↔ Spacing s :=
  List.dropWhile_eq_nil_iff

/-- `s` is what is before the first `mark`, the mark, and what is after it. -/
structure CutsAt (mark s before after : List Char) : Prop where
  eq : s = before ++ (mark ++ after)
  first : ∀ p q, s = p ++ (mark ++ q) → before.length ≤ p.length

theorem CutsAt.unique {before' after' : List Char} (h : CutsAt mark s before after)
    (h' : CutsAt mark s before' after') : before = before' ∧ after = after' := by
  have hlength : before.length = before'.length :=
    Nat.le_antisymm (h.first _ _ h'.eq) (h'.first _ _ h.eq)
  obtain ⟨rfl, heq⟩ := List.append_inj (h.eq.symm.trans h'.eq) hlength
  exact ⟨rfl, List.append_cancel_left heq⟩

theorem CutsAt.not_before (h : CutsAt mark s before after) (hmark : mark ≠ []) :
    ¬ mark <:+: before := by
  rintro ⟨p, q, rfl⟩
  have hle := h.first p (q ++ (mark ++ after)) (by rw [h.eq]; simp)
  have hpos := List.length_pos_iff.mpr hmark
  simp only [List.length_append] at hle
  omega

theorem cutsAt_of_cutAt? (h : cutAt? mark s = some (before, after)) :
    CutsAt mark s before after := by
  induction s generalizing before after with
  | nil =>
    unfold cutAt? at h
    split at h
    · next hempty =>
      obtain ⟨rfl, rfl⟩ := Prod.mk.inj (Option.some.inj h)
      rw [List.isEmpty_iff.mp hempty]
      exact ⟨rfl, fun _ _ _ => Nat.zero_le _⟩
    · cases h
  | cons c s ih =>
    unfold cutAt? at h
    split at h
    · next hprefix =>
      obtain ⟨rfl, rfl⟩ := Prod.mk.inj (Option.some.inj h)
      obtain ⟨t, ht⟩ := List.isPrefixOf_iff_prefix.mp hprefix
      refine ⟨?_, fun _ _ _ => Nat.zero_le _⟩
      rw [← ht, List.drop_left, List.nil_append]
    · next hprefix =>
      obtain ⟨⟨p, q⟩, hcut, heq⟩ := Option.map_eq_some_iff.mp h
      obtain ⟨rfl, rfl⟩ := Prod.mk.inj heq
      have hrest := ih hcut
      refine ⟨by rw [List.cons_append, ← hrest.eq], ?_⟩
      rintro (_ | ⟨d, p'⟩) q' heq
      · exact absurd (List.isPrefixOf_iff_prefix.mpr ⟨q', heq.symm⟩) hprefix
      · exact Nat.succ_le_succ (hrest.first p' q' (List.cons.inj heq).2)

theorem cutAt?_eq_none : cutAt? mark s = none ↔ ¬ mark <:+: s := by
  induction s with
  | nil => simp [cutAt?]
  | cons c s ih =>
    unfold cutAt?
    split
    · next hprefix =>
      exact ⟨nofun, fun h => absurd (List.isPrefixOf_iff_prefix.mp hprefix).isInfix h⟩
    · next hprefix =>
      rw [Option.map_eq_none_iff, ih, List.infix_cons_iff, not_or]
      exact ⟨fun h => ⟨mt List.isPrefixOf_iff_prefix.mpr hprefix, h⟩, And.right⟩

theorem cutAt?_eq_some :
    cutAt? mark s = some (before, after) ↔ CutsAt mark s before after := by
  refine ⟨cutsAt_of_cutAt?, fun h => ?_⟩
  cases hcut : cutAt? mark s with
  | none => exact absurd ⟨before, after, by rw [h.eq, List.append_assoc]⟩ (cutAt?_eq_none.mp hcut)
  | some pair =>
    obtain ⟨hbefore, hafter⟩ := (cutsAt_of_cutAt? hcut).unique h
    rw [← hbefore, ← hafter]

/-- A mark of two different characters comes first where no mark is before it: two places of it
cannot overlap. -/
theorem cutsAt_pair {x y : Char} (hne : x ≠ y) :
    CutsAt [x, y] s before after ↔ s = before ++ x :: y :: after ∧ ¬ [x, y] <:+: before := by
  constructor
  · exact fun h => ⟨h.eq, h.not_before nofun⟩
  · rintro ⟨rfl, hnot⟩
    refine ⟨rfl, fun p q heq => ?_⟩
    rcases List.append_eq_append_iff.mp heq with ⟨r, rfl, hr⟩ | ⟨r, rfl, hr⟩
    · rw [List.length_append]
      omega
    · match r, hr with
      | [], _ => simp
      | [_], hr =>
        have hyx := (List.cons.inj (List.cons.inj hr).2).1
        exact absurd hyx.symm hne
      | c :: d :: r, hr =>
        obtain ⟨hx, hr⟩ := List.cons.inj hr
        obtain ⟨hy, -⟩ := List.cons.inj hr
        exact absurd ⟨p, r, by simp [hx, hy]⟩ hnot

/-- Nowhere in `s` does `y` come right after `x`. -/
def Lacks (x y : Char) (s : List Char) : Prop :=
  s.IsChain fun a b => ¬ (a = x ∧ b = y)

theorem lacks_iff {x y : Char} : Lacks x y s ↔ ¬ [x, y] <:+: s := by
  constructor
  · intro h hinfix
    have hpair := List.IsChain.infix h hinfix
    simp at hpair
  · intro h
    induction s with
    | nil => exact .nil
    | cons c s ih =>
      rw [List.infix_cons_iff, not_or] at h
      refine List.IsChain.cons (ih h.2) ?_
      rintro d hd ⟨rfl, rfl⟩
      obtain ⟨r, rfl⟩ := List.head?_eq_some_iff.mp hd
      exact h.1 ⟨r, rfl⟩

theorem Lacks.append_cons {x y c : Char} {u v : List Char} (hu : Lacks x y u) (hv : Lacks x y v)
    (hx : c ≠ x) (hy : c ≠ y) : Lacks x y (u ++ c :: v) := by
  refine List.isChain_append.mpr ⟨hu, List.IsChain.cons hv fun _ _ h => hx h.1, ?_⟩
  intro a _ b hb h
  exact hy ((Option.some.inj hb).trans h.2)

theorem Lacks.cons {x y c : Char} (hs : Lacks x y s) (hx : c ≠ x) : Lacks x y (c :: s) :=
  List.IsChain.cons hs fun _ _ h => hx h.1

theorem lacks_flatMap {x y c : Char} {rs : List (List Char)} (hrs : ∀ r ∈ rs, Lacks x y r)
    (hx : c ≠ x) (hy : c ≠ y) : Lacks x y (rs.flatMap (· ++ [c])) := by
  induction rs with
  | nil => exact .nil
  | cons r rs ih =>
    rw [List.flatMap_cons, List.append_assoc, List.singleton_append]
    exact (hrs r (.head _)).append_cons (ih fun r hr => hrs r (.tail _ hr)) hx hy

theorem Lacks.of_part {x y : Char} {u v : List Char} (hv : Lacks x y v) (h : u <:+: v) :
    Lacks x y u :=
  List.IsChain.infix hv h

theorem pieces_ne_nil (p : Char → Bool) (s : List Char) : pieces p s ≠ [] := by
  cases s with
  | nil => exact List.cons_ne_nil _ _
  | cons c s =>
    show addToPieces p c (pieces p s) ≠ []
    unfold addToPieces
    split
    · exact List.cons_ne_nil _ _
    · split <;> exact List.cons_ne_nil _ _

theorem pieces_cons_of_pos {p : Char → Bool} {c : Char} (hc : p c = true) :
    pieces p (c :: s) = [] :: pieces p s := by
  show addToPieces p c (pieces p s) = _
  cases h : pieces p s with
  | nil => exact absurd h (pieces_ne_nil p s)
  | cons r rs => exact if_pos hc

theorem pieces_cons_of_neg {p : Char → Bool} {c : Char} {r : List Char} {rs : List (List Char)}
    (hc : p c = false) (hs : pieces p s = r :: rs) : pieces p (c :: s) = (c :: r) :: rs := by
  show addToPieces p c (pieces p s) = _
  rw [hs]
  exact if_neg (by simp [hc])

theorem pieces_append_cons {p : Char → Bool} {r : List Char} {c : Char}
    (hr : ∀ d ∈ r, p d = false) (hc : p c = true) :
    pieces p (r ++ c :: s) = r :: pieces p s := by
  induction r with
  | nil => exact pieces_cons_of_pos hc
  | cons d r ih => exact pieces_cons_of_neg (hr d (.head _)) (ih fun e he => hr e (.tail _ he))

theorem of_mem_pieces {p : Char → Bool} {r : List Char} (h : r ∈ pieces p s) :
    (∀ c ∈ r, p c = false) ∧ r <:+: s := by
  -- the first piece starts where the text does
  suffices ∃ first rest, pieces p s = first :: rest ∧ first <+: s ∧
      (∀ c ∈ first, p c = false) ∧ ∀ r ∈ rest, (∀ c ∈ r, p c = false) ∧ r <:+: s by
    obtain ⟨first, rest, heq, hprefix, hfirst, hrest⟩ := this
    rcases List.mem_cons.mp (heq ▸ h) with rfl | h
    · exact ⟨hfirst, hprefix.isInfix⟩
    · exact hrest r h
  clear h
  induction s with
  | nil => exact ⟨[], [], rfl, List.nil_prefix, nofun, nofun⟩
  | cons c s ih =>
    obtain ⟨first, rest, heq, hprefix, hfirst, hrest⟩ := ih
    have hlater : ∀ r ∈ rest, (∀ c ∈ r, p c = false) ∧ r <:+: c :: s := fun r hr =>
      ⟨(hrest r hr).1, (hrest r hr).2.trans (List.suffix_cons c s).isInfix⟩
    cases hc : p c with
    | true =>
      refine ⟨[], first :: rest, by rw [pieces_cons_of_pos hc, heq], List.nil_prefix, nofun, ?_⟩
      intro r hr
      rcases List.mem_cons.mp hr with rfl | hr
      · exact ⟨hfirst, hprefix.isInfix.trans (List.suffix_cons c s).isInfix⟩
      · exact hlater r hr
    | false =>
      refine ⟨c :: first, rest, pieces_cons_of_neg hc heq, ?_, ?_, hlater⟩
      · exact List.cons_prefix_cons.mpr ⟨rfl, hprefix⟩
      · simpa [hc] using hfirst

theorem of_mem_words {r : List Char} (h : r ∈ words s) :
    r ≠ [] ∧ (∀ c ∈ r, isBlank c = false) ∧ r <:+: s := by
  obtain ⟨hmem, hne⟩ := List.mem_filter.mp h
  exact ⟨by simpa using hne, of_mem_pieces hmem⟩

theorem words_cons_of_blank {c : Char} (hc : isBlank c = true) : words (c :: s) = words s := by
  rw [words, pieces_cons_of_pos hc]
  rfl

theorem words_append_cons {r : List Char} {c : Char} (hne : r ≠ [])
    (hr : ∀ d ∈ r, isBlank d = false) (hc : isBlank c = true) :
    words (r ++ c :: s) = r :: words s := by
  rw [words, pieces_append_cons hr hc, List.filter_cons_of_pos (by simpa using hne)]
  rfl

/-- Words come back from a text in which a blank follows each of them. -/
theorem words_flatMap {rs : List (List Char)} {c : Char} (hc : isBlank c = true)
    (hrs : ∀ r ∈ rs, r ≠ [] ∧ ∀ d ∈ r, isBlank d = false) : words (rs.flatMap (· ++ [c])) = rs := by
  induction rs with
  | nil => rfl
  | cons r rs ih =>
    obtain ⟨hne, hr⟩ := hrs r (.head _)
    rw [List.flatMap_cons, List.append_assoc, List.singleton_append, words_append_cons hne hr hc,
      ih fun r hr => hrs r (.tail _ hr)]

theorem words_eq_nil : words s = [] ↔ ∀ c ∈ s, isBlank c = true := by
  induction s with
  | nil => simp [words, pieces]
  | cons c s ih =>
    cases hc : isBlank c with
    | true => simp [words_cons_of_blank hc, ih, hc]
    | false =>
      obtain ⟨r, rs, hs⟩ := List.exists_cons_of_ne_nil (pieces_ne_nil isBlank s)
      simp [words, pieces_cons_of_neg hc hs, hc]

theorem trim_eq_self (hhead : Stops isBlank s) (hlast : Stops isBlank s.reverse) : trim s = s := by
  have hstart : trimStart s = s := dropWhile_append_stops (u := []) nofun hhead
  have hend : s.reverse.dropWhile isBlank = s.reverse :=
    dropWhile_append_stops (u := []) nofun hlast
  rw [trim, hstart, trimEnd, hend, List.reverse_reverse]

theorem trim_isInfix (s : List Char) : trim s <:+: s := by
  have hend : ∀ u : List Char, trimEnd u <+: u := fun u => by
    rw [← List.reverse_suffix, trimEnd, List.reverse_reverse]
    exact List.dropWhile_suffix _
  exact (hend _).isInfix.trans (List.dropWhile_suffix _).isInfix

theorem lines_flatMap {ls : List (List Char)} (hfeed : ∀ l ∈ ls, '\n' ∉ l)
    (hreturn : ∀ l ∈ ls, l.getLast? ≠ some '\r') : lines (ls.flatMap (· ++ ['\n'])) = ls := by
  have hpieces : pieces (· == '\n') (ls.flatMap (· ++ ['\n'])) = ls ++ [[]] := by
    clear hreturn
    induction ls with
    | nil => rfl
    | cons l ls ih =>
      have hl : ∀ c ∈ l, (c == '\n') = false := fun c hc =>
        beq_false_of_ne fun heq => hfeed l (.head _) (heq ▸ hc)
      rw [List.flatMap_cons, List.append_assoc, List.singleton_append,
        pieces_append_cons hl rfl, ih fun l hl => hfeed l (.tail _ hl)]
      rfl
  have hkept : ls.map dropReturn = ls := by
    conv_rhs => rw [← List.map_id ls]
    exact List.map_congr_left fun l hl => if_neg (hreturn l hl)
  simp [lines, hpieces, hkept]

end Categorial.Text
