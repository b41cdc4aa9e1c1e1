import Categorial.Proofs.Category.Grammar
import Categorial.Proofs.Computation

/-! # Reading what the grammar spells

The readers of types and terms take from the front of a text what spells a type or a term, and they
take every spelling after which the text cannot go on. Their allowance covers every text.
-/

namespace Categorial

open Text

variable {s s' rest u v w w' w₁ w₂ w₃ : List Char} {n : Nat}

theorem readName_eq_ok {cls : NameClass} {name : String} :
    readName cls s = .ok (name, rest) ↔ ∃ u, cls.Names u ∧ s = u ++ rest ∧
      Stops cls.continues rest ∧ name = String.ofList u := by
  cases s with
  | nil =>
    refine ⟨nofun, ?_⟩
    rintro ⟨u, hu, hs, -⟩
    exact absurd (List.append_eq_nil_iff.mp hs.symm).1 hu.ne_nil
  | cons c s =>
    show (if cls.starts c = true then _ else _) = _ ↔ _
    constructor
    · intro h
      split at h
      · next hc =>
        obtain ⟨rfl, rfl⟩ := Prod.mk.inj (Except.ok.inj h)
        refine ⟨_, ⟨c, _, rfl, hc, fun d hd => List.mem_takeWhile_imp hd⟩, ?_,
          stops_dropWhile _ s, rfl⟩
        rw [List.cons_append, List.takeWhile_append_dropWhile]
      · cases h
    · rintro ⟨u, ⟨d, r, rfl, hd, hr⟩, hs, hstops, rfl⟩
      rw [List.cons_append] at hs
      obtain ⟨rfl, rfl⟩ := List.cons.inj hs
      rw [if_pos hd, takeWhile_append_stops hr hstops, dropWhile_append_stops hr hstops]

theorem readName_ne_exhausted {cls : NameClass} : readName cls s ≠ .error .exhausted := by
  cases s with
  | nil => exact nofun
  | cons c s =>
    show (if cls.starts c = true then _ else _) ≠ _
    split <;> exact nofun

theorem Opened.isSpacing_closer (opened : Opened) : isSpacing opened.closer = false := by
  cases opened <;> rfl

theorem readCloser_eq_ok {opened : Opened} :
    readCloser opened s = .ok rest ↔ ∃ w, Spacing w ∧ s = w ++ opened.closer :: rest := by
  constructor
  · intro h
    obtain ⟨w, hw, hs⟩ := exists_spacing s
    refine ⟨w, hw, ?_⟩
    unfold readCloser at h
    split at h
    · next c r hskip =>
      split at h
      · next hc =>
        rw [← hc, ← Except.ok.inj h, ← hskip]
        exact hs
      · cases h
    · cases h
  · rintro ⟨w, hw, rfl⟩
    unfold readCloser
    rw [skipSpacing_append hw (stops_cons.mpr opened.isSpacing_closer)]
    exact if_pos rfl

theorem readCloser_ne_exhausted {opened : Opened} : readCloser opened s ≠ .error .exhausted := by
  unfold readCloser
  split
  · split <;> exact nofun
  · exact nofun

namespace SynType

variable {e : Extent} {t t' : SynType}

theorem Spells.exists_head (h : Spells e u t) :
    ∃ c r, u = c :: r ∧ (NameClass.atom.starts c = true ∨ c = '(') := by
  induction h with
  | name hu =>
    obtain ⟨c, r, rfl, hc, -⟩ := hu
    exact ⟨c, r, rfl, .inl hc⟩
  | group => exact ⟨_, _, rfl, .inr rfl⟩
  | single _ ih => exact ih
  | slash _ _ _ _ _ ih =>
    obtain ⟨c, r, rfl, hc⟩ := ih
    exact ⟨c, _, rfl, hc⟩

theorem Spells.length_pos (h : Spells e u t) : 0 < u.length := by
  obtain ⟨c, r, rfl, -⟩ := h.exists_head
  exact Nat.succ_pos _

theorem Spells.stops_isSpacing (h : Spells e u t) : Stops isSpacing (u ++ rest) := by
  obtain ⟨c, r, rfl, hc | rfl⟩ := h.exists_head
  · exact stops_cons.mpr (NameClass.isSpacing_of_starts hc)
  · exact stops_cons.mpr rfl

theorem readSlash?_eq_some {slash : Slash} :
    readSlash? s = some (slash, rest) ↔ s = slash.symbol :: rest := by
  unfold readSlash?
  split
  · cases slash <;> simp [Slash.symbol]
  · cases slash <;> simp [Slash.symbol]
  · next hforward hbackward =>
    refine ⟨nofun, ?_⟩
    rintro rfl
    cases slash with
    | forward => exact absurd rfl (hforward rest)
    | backward => exact absurd rfl (hbackward rest)

/-- What the readers of types take spells what they return. Whatever `readSlashes` takes goes on
from a spelling of what came before. -/
theorem reads_sound (n : Nat) :
    (∀ s t rest, readPrimary n s = .ok (t, rest) → ∃ u, Spells .primary u t ∧ s = u ++ rest) ∧
    (∀ s t rest, readChain n s = .ok (t, rest) → ∃ u, Spells .chain u t ∧ s = u ++ rest) ∧
    (∀ s t rest t₀ v, Spells .chain v t₀ → readSlashes n t₀ s = .ok (t, rest) →
      ∃ u, Spells .chain (v ++ u) t ∧ s = u ++ rest) := by
  induction n with
  | zero => exact ⟨nofun, nofun, nofun⟩
  | succ n ih =>
    obtain ⟨hprimary, hchain, hslashes⟩ := ih
    refine ⟨fun s t rest h => ?_, fun s t rest h => ?_, fun s t rest t₀ v hv h => ?_⟩
    · unfold readPrimary at h
      split at h
      · next s =>
        obtain ⟨⟨t', r⟩, hinner, h⟩ := bind_eq_ok.mp h
        obtain ⟨r', hcloser, h⟩ := bind_eq_ok.mp h
        obtain ⟨rfl, rfl⟩ := Prod.mk.inj (Except.ok.inj h)
        obtain ⟨u, hu, hskip⟩ := hchain _ _ _ hinner
        obtain ⟨w', hw', rfl⟩ := readCloser_eq_ok.mp hcloser
        obtain ⟨w, hw, hs⟩ := exists_spacing s
        refine ⟨_, .group hw hu hw', ?_⟩
        rw [hs, hskip]
        simp [Opened.closer]
      · obtain ⟨⟨name, r⟩, hname, h⟩ := bind_eq_ok.mp h
        obtain ⟨rfl, rfl⟩ := Prod.mk.inj (Except.ok.inj h)
        obtain ⟨u, hu, rfl, -, rfl⟩ := readName_eq_ok.mp hname
        exact ⟨u, .name hu, rfl⟩
    · obtain ⟨⟨t', r⟩, hhead, hrest⟩ := bind_eq_ok.mp h
      obtain ⟨v, hv, rfl⟩ := hprimary _ _ _ hhead
      obtain ⟨u, hu, rfl⟩ := hslashes _ _ _ _ _ (.single hv) hrest
      exact ⟨v ++ u, hu, by rw [List.append_assoc]⟩
    · unfold readSlashes at h
      split at h
      · obtain ⟨rfl, rfl⟩ := Prod.mk.inj (Except.ok.inj h)
        exact ⟨[], by rwa [List.append_nil], rfl⟩
      · next slash r hslash =>
        obtain ⟨⟨arg, r'⟩, harg, h⟩ := bind_eq_ok.mp h
        obtain ⟨u, hu, hskip⟩ := hprimary _ _ _ harg
        obtain ⟨w, hw, hs⟩ := exists_spacing s
        obtain ⟨w', hw', hr⟩ := exists_spacing r
        obtain ⟨u', hu', rfl⟩ := hslashes _ _ _ _ _ (.slash hv hw slash hw' hu) h
        refine ⟨w ++ slash.symbol :: (w' ++ u) ++ u', ?_, ?_⟩
        · rwa [← List.append_assoc]
        · rw [hs, readSlash?_eq_some.mp hslash, hr, hskip]
          simp

/-- A type cannot go on into the text. -/
structure Ends (rest : List Char) : Prop where
  name : Stops NameClass.atom.continues rest
  slash : readSlash? (skipSpacing rest) = none

theorem Ends.readSlashes (h : Ends rest) : readSlashes (n + 1) t rest = .ok (t, rest) := by
  unfold SynType.readSlashes
  rw [h.slash]

theorem ends_closer (hw : Spacing w) : Ends (w ++ ')' :: rest) where
  name := hw.stops (fun _ => NameClass.continues_of_isSpacing) (by decide)
  slash := by
    rw [skipSpacing_append hw (stops_cons.mpr rfl)]
    rfl

theorem readPrimary_of_names (hu : NameClass.atom.Names u)
    (hstops : Stops NameClass.atom.continues rest) :
    readPrimary (n + 1) (u ++ rest) = .ok (ofName (String.ofList u), rest) := by
  have hname : readName .atom (u ++ rest) = .ok (String.ofList u, rest) :=
    readName_eq_ok.mpr ⟨u, hu, rfl, hstops, rfl⟩
  obtain ⟨c, r, rfl, hc, -⟩ := hu
  have hne : c ≠ '(' := by
    rintro rfl
    exact absurd hc (by decide)
  unfold readPrimary
  split
  · next hs => exact absurd (List.cons.inj hs).1 hne
  · rw [hname]
    rfl

theorem readPrimary_of_chain (hw : Spacing w) (hs : Stops isSpacing s) (hw' : Spacing w')
    (h : readChain n s = .ok (t, w' ++ ')' :: rest)) :
    readPrimary (n + 1) ('(' :: (w ++ s)) = .ok (t, rest) := by
  rw [readPrimary, skipSpacing_append hw hs, h]
  exact bind_eq_ok.mpr ⟨_, rfl, bind_eq_ok.mpr ⟨rest, readCloser_eq_ok.mpr ⟨w', hw', rfl⟩, rfl⟩⟩

theorem readSlashes_of_slash (hw : Spacing w) (slash : Slash) (hw' : Spacing w')
    (hs : Stops isSpacing s) (h : readPrimary n s = .ok (t', rest)) :
    readSlashes (n + 1) t (w ++ slash.symbol :: (w' ++ s)) =
      readSlashes n (.complex t slash t') rest := by
  have hslash : readSlash? (skipSpacing (w ++ slash.symbol :: (w' ++ s))) =
      some (slash, w' ++ s) := by
    rw [skipSpacing_append hw (stops_cons.mpr (by cases slash <;> rfl))]
    exact readSlash?_eq_some.mpr rfl
  rw [readSlashes, hslash]
  simp only
  rw [skipSpacing_append hw' hs, h]
  rfl

/-- Two units of allowance for each character are enough to read a spelling. A chain is read up to
its end, and what is left of the allowance is for the slashes after it. -/
theorem Spells.reads (h : Spells e u t) : match e with
    | .primary => ∀ rest, Stops NameClass.atom.continues rest → ∀ n, 2 * u.length ≤ n + 1 →
        readPrimary n (u ++ rest) = .ok (t, rest)
    | .chain => ∀ rest, Stops NameClass.atom.continues rest → ∀ n, 2 * u.length ≤ n →
        ∃ m, n < m + 2 * u.length ∧ readChain n (u ++ rest) = readSlashes m t rest := by
  induction h with
  | @name u hu =>
    intro rest hstops n hn
    have hpos := hu.length_pos
    obtain ⟨n, rfl⟩ : ∃ m, n = m + 1 := ⟨n - 1, by omega⟩
    exact readPrimary_of_names hu hstops
  | @group w u w' t hw hu hw' ih =>
    intro rest hstops n hn
    simp only [List.length_cons, List.length_append] at hn
    obtain ⟨n, rfl⟩ : ∃ m, n = m + 1 := ⟨n - 1, by omega⟩
    have hends : Ends (w' ++ ')' :: rest) := ends_closer hw'
    obtain ⟨m, hm, hread⟩ := ih _ hends.name n (by omega)
    obtain ⟨m, rfl⟩ : ∃ k, m = k + 1 := ⟨m - 1, by omega⟩
    rw [hends.readSlashes] at hread
    have htext : '(' :: (w ++ (u ++ (w' ++ [')']))) ++ rest =
        '(' :: (w ++ (u ++ (w' ++ ')' :: rest))) := by simp
    rw [htext]
    exact readPrimary_of_chain hw hu.stops_isSpacing hw' hread
  | @single u t hu ih =>
    intro rest hstops n hn
    have hpos := hu.length_pos
    obtain ⟨n, rfl⟩ : ∃ m, n = m + 1 := ⟨n - 1, by omega⟩
    refine ⟨n, by omega, ?_⟩
    rw [readChain, ih rest hstops n hn]
    rfl
  | @slash u w w' v t arg hu hw slash hw' hv ihu ihv =>
    intro rest hstops n hn
    simp only [List.length_cons, List.length_append] at hn ⊢
    have hstops' : Stops NameClass.atom.continues (w ++ slash.symbol :: (w' ++ (v ++ rest))) :=
      hw.stops (fun _ => NameClass.continues_of_isSpacing) (by cases slash <;> decide)
    obtain ⟨m, hm, hread⟩ := ihu _ hstops' n (by omega)
    obtain ⟨m, rfl⟩ : ∃ k, m = k + 1 := ⟨m - 1, by omega⟩
    refine ⟨m, by omega, ?_⟩
    have htext : u ++ (w ++ slash.symbol :: (w' ++ v)) ++ rest =
        u ++ (w ++ slash.symbol :: (w' ++ (v ++ rest))) := by simp
    rw [htext, hread]
    exact readSlashes_of_slash hw slash hw' hv.stops_isSpacing (ihv rest hstops m (by omega))

theorem Spells.read (h : Spells .chain u t) (hends : Ends rest) :
    SynType.read (u ++ rest) = .ok (t, rest) := by
  have hlength : (u ++ rest).length = u.length + rest.length := List.length_append
  obtain ⟨m, hm, hread⟩ := h.reads rest hends.name (2 * (u ++ rest).length + 2) (by omega)
  obtain ⟨m, rfl⟩ : ∃ k, m = k + 1 := ⟨m - 1, by omega⟩
  exact hread.trans hends.readSlashes

theorem read_sound (h : SynType.read s = .ok (t, rest)) :
    ∃ u, Spells .chain u t ∧ s = u ++ rest :=
  (reads_sound _).2.1 s t rest h

/-- The allowance of the readers of types lasts. -/
theorem reads_ne_exhausted (n : Nat) :
    (∀ s, 2 * s.length < n → readPrimary n s ≠ .error .exhausted) ∧
    (∀ s, 2 * s.length + 1 < n → readChain n s ≠ .error .exhausted) ∧
    (∀ s t, 2 * s.length < n → readSlashes n t s ≠ .error .exhausted) := by
  induction n with
  | zero => exact ⟨nofun, nofun, nofun⟩
  | succ n ih =>
    obtain ⟨hprimary, hchain, hslashes⟩ := ih
    have hskip : ∀ r, (skipSpacing r).length ≤ r.length := fun r =>
      (List.dropWhile_sublist _).length_le
    refine ⟨fun s hs h => ?_, fun s hs h => ?_, fun s t hs h => ?_⟩
    · unfold readPrimary at h
      split at h
      · next s =>
        have hle := hskip s
        rw [List.length_cons] at hs
        rcases bind_eq_error.mp h with h | ⟨⟨t, r⟩, -, h⟩
        · exact hchain _ (by omega) h
        · rcases bind_eq_error.mp h with h | ⟨r', -, h⟩
          · exact readCloser_ne_exhausted h
          · cases h
      · rcases bind_eq_error.mp h with h | ⟨⟨name, r⟩, -, h⟩
        · exact readName_ne_exhausted h
        · cases h
    · rcases bind_eq_error.mp h with h | ⟨⟨t, r⟩, hread, h⟩
      · exact hprimary s (by omega) h
      · obtain ⟨u, hu, hu'⟩ := (reads_sound n).1 _ _ _ hread
        have hpos := hu.length_pos
        rw [hu', List.length_append] at hs
        exact hslashes r t (by omega) h
    · unfold readSlashes at h
      split at h
      · cases h
      · next slash r hslash =>
        have hlength : r.length + 1 ≤ s.length := by
          have := congrArg List.length (readSlash?_eq_some.mp hslash)
          rw [List.length_cons] at this
          exact this ▸ hskip s
        have hle := hskip r
        rcases bind_eq_error.mp h with h | ⟨⟨arg, r'⟩, hread, h⟩
        · exact hprimary _ (by omega) h
        · obtain ⟨u, hu, hr⟩ := (reads_sound n).1 _ _ _ hread
          have hpos := hu.length_pos
          rw [hr, List.length_append] at hle
          exact hslashes r' _ (by omega) h

theorem read_ne_exhausted : SynType.read s ≠ .error .exhausted :=
  (reads_ne_exhausted _).2.1 s (by omega)

end SynType

namespace Term

variable {e : Extent} {t t' fn : Term}

theorem Spells.exists_head (h : Spells e u t) :
    ∃ c r, u = c :: r ∧ (NameClass.constant.starts c = true ∨ c = '(') := by
  induction h with
  | name hu =>
    obtain ⟨c, r, rfl, hc, -⟩ := hu
    exact ⟨c, r, rfl, .inl hc⟩
  | comp => exact ⟨_, _, rfl, .inr rfl⟩
  | group => exact ⟨_, _, rfl, .inr rfl⟩
  | single _ ih => exact ih
  | app _ _ _ _ ih =>
    obtain ⟨c, r, rfl, hc⟩ := ih
    exact ⟨c, _, rfl, hc⟩

theorem Spells.ne_nil (h : Spells e u t) : u ≠ [] := by
  obtain ⟨c, r, rfl, -⟩ := h.exists_head
  exact List.cons_ne_nil c r

theorem Spells.length_pos (h : Spells e u t) : 0 < u.length :=
  List.length_pos_iff.mpr h.ne_nil

theorem Spells.stops_isSpacing (h : Spells e u t) : Stops isSpacing (u ++ rest) := by
  obtain ⟨c, r, rfl, hc | rfl⟩ := h.exists_head
  · exact stops_cons.mpr (NameClass.isSpacing_of_starts hc)
  · exact stops_cons.mpr rfl

theorem Spells.head_ne (h : Spells e u t) : u.head? ≠ some '.' ∧ u.head? ≠ some ')' := by
  obtain ⟨c, r, rfl, hc | rfl⟩ := h.exists_head
  · constructor
    · rintro ⟨⟩
      exact absurd hc (by decide)
    · rintro ⟨⟩
      exact absurd hc (by decide)
  · exact ⟨nofun, nofun⟩

theorem apart_of_stops (h : Stops NameClass.constant.starts v) : Apart u v :=
  fun _ _ _ => h

theorem apart_closed : Apart (u ++ [')']) v := by
  intro c hc hstarts
  rw [List.getLast?_concat] at hc
  obtain rfl := Option.some.inj hc
  exact absurd hstarts (by decide)

theorem apart_append (hv : v ≠ []) : Apart (u ++ v) w ↔ Apart v w := by
  rw [Apart, Apart, List.getLast?_append_of_ne_nil u hv]

theorem apart_of_names (hu : NameClass.constant.Names u) :
    Apart u v ↔ Stops NameClass.constant.starts v := by
  refine ⟨fun h => ?_, apart_of_stops⟩
  have hlast := List.getLast?_eq_some_getLast hu.ne_nil
  exact h _ hlast (hu.continues _ (List.getLast_mem hu.ne_nil))

theorem apart_append_right (hv : v ≠ []) : Apart u (v ++ w) ↔ Apart u v := by
  rw [Apart, Apart, Stops, Stops, List.head?_append_of_ne_nil v hv]

theorem apart_spacing {c : Char} (hw : Spacing w) (hc : NameClass.constant.starts c = false) :
    Apart u (w ++ c :: rest) :=
  apart_of_stops (hw.stops (fun _ => NameClass.starts_of_isSpacing) hc)

theorem readArgs_skipSpacing : readArgs n fn (skipSpacing s) = readArgs n fn s := by
  cases n with
  | zero => rfl
  | succ n => rw [readArgs, readArgs, skipSpacing_skipSpacing]

theorem readArgs_of_closer (h : skipSpacing s = ')' :: rest) :
    readArgs (n + 1) fn s = .ok (fn, rest) := by
  rw [readArgs, h]
  rfl

theorem readArgs_of_term (h : readTerm n (skipSpacing s) = .ok (t, rest))
    (hs : (skipSpacing s).head? ≠ some ')') :
    readArgs (n + 1) fn s = readArgs n (.app fn t) rest := by
  rw [readArgs]
  split
  · next hcloser => exact absurd (by rw [hcloser]; rfl) hs
  · next hnil =>
    rw [hnil] at h
    cases n <;> cases h
  · rw [h]
    rfl

/-- What the readers of terms take spells what they return. Whatever `readArgs` takes goes on from a
spelling of what came before. -/
theorem reads_sound (n : Nat) :
    (∀ s t rest, readTerm n s = .ok (t, rest) →
      ∃ u, Spells .primary u t ∧ s = u ++ rest ∧ Apart u rest) ∧
    (∀ s t rest fn v, Spells .chain v fn → Apart v s → readArgs n fn s = .ok (t, rest) →
      ∃ u w, Spells .chain (v ++ u) t ∧ Spacing w ∧ s = u ++ (w ++ ')' :: rest)) := by
  induction n with
  | zero => exact ⟨nofun, nofun⟩
  | succ n ih =>
    obtain ⟨hterm, hargs⟩ := ih
    refine ⟨fun s t rest h => ?_, fun s t rest fn v hv hapart h => ?_⟩
    · unfold readTerm at h
      split at h
      · next s =>
        obtain ⟨w, hw, hs⟩ := exists_spacing s
        obtain ⟨⟨head, r⟩, hhead, h⟩ := bind_eq_ok.mp h
        obtain ⟨u, hu, hskip, hapart⟩ := hterm _ _ _ hhead
        obtain ⟨w₁, hw₁, hr⟩ := exists_spacing r
        dsimp only at h
        split at h
        · next r₁ hdot =>
          obtain ⟨⟨inner, r₂⟩, hinner, h⟩ := bind_eq_ok.mp h
          obtain ⟨r₃, hcloser, h⟩ := bind_eq_ok.mp h
          obtain ⟨rfl, rfl⟩ := Prod.mk.inj (Except.ok.inj h)
          obtain ⟨v, hv, hskip', -⟩ := hterm _ _ _ hinner
          obtain ⟨w₂, hw₂, hr₁⟩ := exists_spacing r₁
          obtain ⟨w₃, hw₃, rfl⟩ := readCloser_eq_ok.mp hcloser
          refine ⟨_, .comp hw hu hw₁ hw₂ hv hw₃, ?_, ?_⟩
          · rw [hs, hskip, hr, hdot, hr₁, hskip']
            simp [Opened.closer]
          · have hclosed := apart_closed
              (u := '(' :: (w ++ (u ++ (w₁ ++ '.' :: (w₂ ++ (v ++ w₃)))))) (v := r₃)
            simpa using hclosed
        · obtain ⟨u', w', hu', hw', hr'⟩ := hargs _ _ _ _ _ (.single hu) hapart
            (readArgs_skipSpacing.symm.trans h)
          refine ⟨_, .group hw hu' hw', ?_, ?_⟩
          · rw [hs, hskip, hr']
            simp
          · have hclosed := apart_closed (u := '(' :: (w ++ (u ++ (u' ++ w')))) (v := rest)
            simpa using hclosed
      · obtain ⟨⟨name, r⟩, hname, h⟩ := bind_eq_ok.mp h
        obtain ⟨rfl, rfl⟩ := Prod.mk.inj (Except.ok.inj h)
        obtain ⟨u, hu, rfl, hstops, rfl⟩ := readName_eq_ok.mp hname
        exact ⟨u, .name hu, rfl, apart_of_stops hstops⟩
    · obtain ⟨w, hw, hs⟩ := exists_spacing s
      unfold readArgs at h
      split at h
      · next r hcloser =>
        obtain ⟨rfl, rfl⟩ := Prod.mk.inj (Except.ok.inj h)
        refine ⟨[], w, by rwa [List.append_nil], hw, ?_⟩
        rw [hs, hcloser, List.nil_append]
      · cases h
      · obtain ⟨⟨arg, r⟩, harg, h⟩ := bind_eq_ok.mp h
        obtain ⟨u, hu, hskip, hnext⟩ := hterm _ _ _ harg
        have hsplit : s = (w ++ u) ++ r := by rw [List.append_assoc, ← hskip, ← hs]
        have hne : w ++ u ≠ [] := List.append_ne_nil_of_right_ne_nil w hu.ne_nil
        have hargs' := hargs r t rest _ _
          (.app hv hw hu ((apart_append_right hne).mp (hsplit ▸ hapart)))
        rw [← List.append_assoc, apart_append hu.ne_nil] at hargs'
        obtain ⟨u', w', hu', hw', rfl⟩ := hargs' hnext h
        refine ⟨w ++ u ++ u', w', ?_, hw', hsplit.trans (List.append_assoc ..).symm⟩
        rwa [← List.append_assoc, ← List.append_assoc]

theorem readTerm_of_names (hu : NameClass.constant.Names u)
    (hstops : Stops NameClass.constant.starts rest) :
    readTerm (n + 1) (u ++ rest) = .ok (.const (String.ofList u), rest) := by
  have hname : readName .constant (u ++ rest) = .ok (String.ofList u, rest) :=
    readName_eq_ok.mpr ⟨u, hu, rfl, hstops, rfl⟩
  obtain ⟨c, r, rfl, hc, -⟩ := hu
  have hne : c ≠ '(' := by
    rintro rfl
    exact absurd hc (by decide)
  unfold readTerm
  split
  · next hs => exact absurd (List.cons.inj hs).1 hne
  · rw [hname]
    rfl

theorem readTerm_of_comp (hw : Spacing w) (hs : Stops isSpacing s) (hw₁ : Spacing w₁)
    (hw₂ : Spacing w₂) (hs' : Stops isSpacing s') (hw₃ : Spacing w₃)
    (houter : readTerm n s = .ok (t, w₁ ++ '.' :: (w₂ ++ s')))
    (hinner : readTerm n s' = .ok (t', w₃ ++ ')' :: rest)) :
    readTerm (n + 1) ('(' :: (w ++ s)) = .ok (.comp t t', rest) := by
  rw [readTerm, skipSpacing_append hw hs, houter]
  refine bind_eq_ok.mpr ⟨_, rfl, ?_⟩
  simp only
  rw [skipSpacing_append hw₁ (stops_cons.mpr rfl)]
  simp only
  rw [skipSpacing_append hw₂ hs', hinner]
  exact bind_eq_ok.mpr ⟨_, rfl, bind_eq_ok.mpr ⟨rest, readCloser_eq_ok.mpr ⟨w₃, hw₃, rfl⟩, rfl⟩⟩

theorem readTerm_of_args (hw : Spacing w) (hs : Stops isSpacing s)
    (hhead : readTerm n s = .ok (fn, s')) (hdot : (skipSpacing s').head? ≠ some '.') :
    readTerm (n + 1) ('(' :: (w ++ s)) = readArgs n fn s' := by
  rw [readTerm, skipSpacing_append hw hs, hhead]
  simp only [bind, Except.bind]
  split
  · next r hr => exact absurd (congrArg List.head? hr) hdot
  · exact readArgs_skipSpacing

/-- Two units of allowance for each character are enough to read a spelling. Of a chain the head is
read first, and the arguments from where the head ends. -/
theorem Spells.reads (h : Spells e u t) : match e with
    | .primary => ∀ rest, Apart u rest → ∀ n, 2 * u.length ≤ n + 1 →
        readTerm n (u ++ rest) = .ok (t, rest)
    | .chain => ∀ rest, Apart u rest → (skipSpacing rest).head? ≠ some '.' →
        ∀ n, 2 * u.length ≤ n + 1 → ∃ head s m, n < m + 2 * u.length ∧
          readTerm n (u ++ rest) = .ok (head, s) ∧ (skipSpacing s).head? ≠ some '.' ∧
          readArgs n head s = readArgs m t rest := by
  induction h with
  | @name u hu =>
    intro rest hapart n hn
    have hpos := hu.length_pos
    obtain ⟨n, rfl⟩ : ∃ m, n = m + 1 := ⟨n - 1, by omega⟩
    exact readTerm_of_names hu ((apart_of_names hu).mp hapart)
  | @comp w u w₁ w₂ v w₃ outer inner hw hu hw₁ hw₂ hv hw₃ ihu ihv =>
    intro rest _ n hn
    simp only [List.length_cons, List.length_append] at hn
    obtain ⟨n, rfl⟩ : ∃ m, n = m + 1 := ⟨n - 1, by omega⟩
    have htext : '(' :: (w ++ (u ++ (w₁ ++ '.' :: (w₂ ++ (v ++ (w₃ ++ [')'])))))) ++ rest =
        '(' :: (w ++ (u ++ (w₁ ++ '.' :: (w₂ ++ (v ++ (w₃ ++ ')' :: rest)))))) := by simp
    rw [htext]
    exact readTerm_of_comp hw hu.stops_isSpacing hw₁ hw₂ hv.stops_isSpacing hw₃
      (ihu _ (apart_spacing hw₁ (by decide)) n (by omega))
      (ihv _ (apart_spacing hw₃ (by decide)) n (by omega))
  | @group w u w' t hw hu hw' ih =>
    intro rest _ n hn
    simp only [List.length_cons, List.length_append] at hn
    obtain ⟨n, rfl⟩ : ∃ m, n = m + 1 := ⟨n - 1, by omega⟩
    have hcloser : skipSpacing (w' ++ ')' :: rest) = ')' :: rest :=
      skipSpacing_append hw' (stops_cons.mpr rfl)
    obtain ⟨head, s, m, hm, hhead, hdot, hread⟩ := ih (w' ++ ')' :: rest)
      (apart_spacing hw' (by decide)) (by rw [hcloser]; exact nofun) n (by omega)
    have htext : '(' :: (w ++ (u ++ (w' ++ [')']))) ++ rest =
        '(' :: (w ++ (u ++ (w' ++ ')' :: rest))) := by simp
    obtain ⟨m, rfl⟩ : ∃ k, m = k + 1 := ⟨m - 1, by omega⟩
    rw [htext, readTerm_of_args hw hu.stops_isSpacing hhead hdot, hread,
      readArgs_of_closer hcloser]
  | @single u t hu ih =>
    intro rest hapart hdot n hn
    have hpos := hu.length_pos
    exact ⟨t, rest, n, by omega, ih rest hapart n hn, hdot, rfl⟩
  | @app u w v fn arg hu hw hv hapart ihu ihv =>
    intro rest hrest _ n hn
    simp only [List.length_append] at hn ⊢
    have hne : w ++ v ≠ [] := List.append_ne_nil_of_right_ne_nil w hv.ne_nil
    have hskip : skipSpacing (w ++ (v ++ rest)) = v ++ rest :=
      skipSpacing_append hw hv.stops_isSpacing
    have hhead : (v ++ rest).head? ≠ some '.' ∧ (v ++ rest).head? ≠ some ')' := by
      rw [List.head?_append_of_ne_nil v hv.ne_nil]
      exact hv.head_ne
    obtain ⟨head, s, m, hm, hread, hdot, hargs⟩ := ihu (w ++ (v ++ rest))
      (by rw [← List.append_assoc]; exact (apart_append_right hne).mpr hapart)
      (by rw [hskip]; exact hhead.1) n (by omega)
    have hpos := hv.length_pos
    obtain ⟨m, rfl⟩ : ∃ k, m = k + 1 := ⟨m - 1, by omega⟩
    rw [← List.append_assoc, apart_append hv.ne_nil] at hrest
    refine ⟨head, s, m, by omega, by simpa using hread, hdot, hargs.trans ?_⟩
    apply readArgs_of_term
    · rw [hskip]
      exact ihv rest hrest m (by omega)
    · rw [hskip]
      exact hhead.2

theorem Spells.read (h : Spells .primary u t) (hapart : Apart u rest) :
    Term.read (u ++ rest) = .ok (t, rest) := by
  have hlength : (u ++ rest).length = u.length + rest.length := List.length_append
  exact h.reads rest hapart _ (by omega)

theorem read_sound (h : Term.read s = .ok (t, rest)) :
    ∃ u, Spells .primary u t ∧ s = u ++ rest := by
  obtain ⟨u, hu, hs, -⟩ := (reads_sound _).1 s t rest h
  exact ⟨u, hu, hs⟩

theorem reads_ne_exhausted (n : Nat) :
    (∀ s, 2 * s.length < n → readTerm n s ≠ .error .exhausted) ∧
    (∀ s fn, 2 * s.length + 1 < n → readArgs n fn s ≠ .error .exhausted) := by
  induction n with
  | zero => exact ⟨nofun, nofun⟩
  | succ n ih =>
    obtain ⟨hterm, hargs⟩ := ih
    have hskip : ∀ r, (skipSpacing r).length ≤ r.length := fun r =>
      (List.dropWhile_sublist _).length_le
    have hshorter : ∀ s t r, readTerm n s = .ok (t, r) → r.length < s.length := by
      intro s t r h
      obtain ⟨u, hu, rfl, -⟩ := (reads_sound n).1 _ _ _ h
      have hpos := hu.length_pos
      rw [List.length_append]
      omega
    refine ⟨fun s hs h => ?_, fun s fn hs h => ?_⟩
    · unfold readTerm at h
      split at h
      · next s =>
        have hle := hskip s
        rw [List.length_cons] at hs
        rcases bind_eq_error.mp h with h | ⟨⟨head, r⟩, hhead, h⟩
        · exact hterm _ (by omega) h
        · have hlt := hshorter _ _ _ hhead
          have hle' := hskip r
          dsimp only at h
          split at h
          · next r₁ hdot =>
            have hle₁ := hskip r₁
            rw [hdot, List.length_cons] at hle'
            rcases bind_eq_error.mp h with h | ⟨⟨inner, r₂⟩, -, h⟩
            · exact hterm _ (by omega) h
            · rcases bind_eq_error.mp h with h | ⟨r₃, -, h⟩
              · exact readCloser_ne_exhausted h
              · cases h
          · exact hargs _ _ (by omega) h
      · rcases bind_eq_error.mp h with h | ⟨⟨name, r⟩, -, h⟩
        · exact readName_ne_exhausted h
        · cases h
    · have hle := hskip s
      unfold readArgs at h
      split at h
      · cases h
      · cases h
      · rcases bind_eq_error.mp h with h | ⟨⟨arg, r⟩, harg, h⟩
        · exact hterm _ (by omega) h
        · have hlt := hshorter _ _ _ harg
          exact hargs r _ (by omega) h

theorem read_ne_exhausted : Term.read s ≠ .error .exhausted :=
  (reads_ne_exhausted _).1 s (by omega)

end Term

end Categorial
