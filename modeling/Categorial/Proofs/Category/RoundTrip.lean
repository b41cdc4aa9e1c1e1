import Categorial.Proofs.Category.Printing
import Categorial.Proofs.Category.Reading

/-! # Printing and reading undo each other

A text is read if there is a spelling between the blanks around it. What is printed is such a
spelling with no blanks around it, so reading it gives back what was printed, unless it has a name
that no text can give it.
-/

namespace Categorial

open Text

variable {s u v w : List Char} {e : Extent}

theorem Text.stops_reverse {p : Char → Bool} :
    Stops p s.reverse ↔ ∀ c ∈ s.getLast?, p c = false := by
  rw [Stops, List.head?_reverse]

theorem NameClass.Names.stops_reverse {cls : NameClass} (h : cls.Names u) :
    Stops isBlank u.reverse :=
  Text.stops_reverse.mpr fun _ hc => isBlank_of_continues (h.continues _ (List.mem_of_getLast? hc))

theorem Text.stops_reverse_closed (u : List Char) :
    Stops isBlank ('(' :: (u ++ [')'])).reverse := by
  rw [← List.cons_append, List.reverse_concat]
  exact stops_cons.mpr (by decide)

theorem Text.stops_reverse_append (hv : v ≠ []) (h : Stops isBlank v.reverse) :
    Stops isBlank (u ++ v).reverse := by
  rw [stops_reverse, List.getLast?_append_of_ne_nil u hv]
  exact stops_reverse.mp h

theorem whole_eq_ok {α : Type} {read : Except ReadError (α × List Char)} {t : α}
    {trailing : List Char → ReadError} :
    (read >>= fun (t, rest) => if rest.isEmpty then .ok t else .error (trailing rest)) = .ok t ↔
      read = .ok (t, []) := by
  constructor
  · intro h
    obtain ⟨⟨t', rest⟩, rfl, h⟩ := bind_eq_ok.mp h
    cases rest with
    | nil => rw [Except.ok.inj h]
    | cons c rest => cases h
  · rintro rfl
    rfl

namespace SynType

variable {t : SynType}

theorem Spells.stops_reverse (h : Spells e u t) : Stops isBlank u.reverse := by
  induction h with
  | name hu => exact hu.stops_reverse
  | @group w u w' =>
    have hclosed := stops_reverse_closed (w ++ (u ++ w'))
    simpa using hclosed
  | single _ ih => exact ih
  | @slash u w w' v t arg _ _ slash _ hv _ ih =>
    have hne : v ≠ [] := List.length_pos_iff.mp hv.length_pos
    have hlast := stops_reverse_append (u := u ++ (w ++ slash.symbol :: w')) hne ih
    simpa using hlast

theorem Spells.trim_eq (h : Spells e u t) : trim u = u := by
  obtain ⟨c, r, rfl, hc | rfl⟩ := h.exists_head
  · exact trim_eq_self (stops_cons.mpr (NameClass.isBlank_of_starts hc)) h.stops_reverse
  · exact trim_eq_self (stops_cons.mpr (by decide)) h.stops_reverse

theorem ends_nil : Ends [] where
  name := stops_nil
  slash := rfl

/-- A text is read as the type that is spelled between the blanks around it. -/
theorem ofChars_eq_ok : ofChars s = .ok t ↔ Spells .chain (trim s) t := by
  refine whole_eq_ok.trans ⟨fun h => ?_, fun h => ?_⟩
  · obtain ⟨u, hu, htrim⟩ := read_sound h
    rwa [htrim, List.append_nil]
  · have hread := h.read ends_nil
    rwa [List.append_nil] at hread

theorem ofString_render (h : t.Named) : ofString t.render = .ok t := by
  have hspells := (spells_chars h).1
  rw [ofString, render, String.toList_ofList, ofChars_eq_ok, hspells.trim_eq]
  exact hspells

theorem named_of_ofString {text : String} (h : ofString text = .ok t) : t.Named :=
  (ofChars_eq_ok.mp h).named

end SynType

namespace Term

variable {t : Term}

/-- All constants in the term can be told apart from what stands around them. -/
def Named (t : Term) : Prop :=
  ∀ name ∈ t.names, name ≠ "" ∧
    ∀ c ∈ name.toList, isBlank c = false ∧ c ∉ ['(', ')', '\x7b', '\x7d', '.']

theorem names_constant_iff {name : String} : NameClass.constant.Names name.toList ↔
    name ≠ "" ∧ ∀ c ∈ name.toList, isBlank c = false ∧ c ∉ ['(', ')', '\x7b', '\x7d', '.'] := by
  have hcontinues : ∀ c, NameClass.constant.continues c = true ↔
      isBlank c = false ∧ c ∉ ['(', ')', '\x7b', '\x7d', '.'] := by
    intro c
    simp [NameClass.continues, NameClass.starts]
  simp only [← hcontinues, ne_eq, ← String.toList_eq_nil_iff]
  constructor
  · intro h
    exact ⟨h.ne_nil, h.continues⟩
  · rintro ⟨hne, hall⟩
    obtain ⟨c, r, hcons⟩ := List.exists_cons_of_ne_nil hne
    rw [hcons] at hall ⊢
    obtain ⟨hc, hr⟩ := List.forall_mem_cons.mp hall
    exact ⟨c, r, rfl, hc, hr⟩

theorem named_iff : t.Named ↔ ∀ name ∈ t.names, NameClass.constant.Names name.toList := by
  simp only [Named, names_constant_iff]

theorem Spells.stops_reverse (h : Spells e u t) : Stops isBlank u.reverse := by
  induction h with
  | name hu => exact hu.stops_reverse
  | @comp w u w₁ w₂ v w₃ =>
    have hclosed := stops_reverse_closed (w ++ (u ++ (w₁ ++ '.' :: (w₂ ++ (v ++ w₃)))))
    simpa using hclosed
  | @group w u w' =>
    have hclosed := stops_reverse_closed (w ++ (u ++ w'))
    simpa using hclosed
  | single _ ih => exact ih
  | @app u w v fn arg _ _ hv _ _ ih =>
    rw [← List.append_assoc]
    exact stops_reverse_append hv.ne_nil ih

theorem Spells.trim_eq (h : Spells e u t) : trim u = u := by
  obtain ⟨c, r, rfl, hc | rfl⟩ := h.exists_head
  · exact trim_eq_self (stops_cons.mpr (NameClass.isBlank_of_starts hc)) h.stops_reverse
  · exact trim_eq_self (stops_cons.mpr (by decide)) h.stops_reverse

theorem ofChars_eq_ok : ofChars s = .ok t ↔ Spells .primary (trim s) t := by
  refine whole_eq_ok.trans ⟨fun h => ?_, fun h => ?_⟩
  · obtain ⟨u, hu, htrim⟩ := read_sound h
    rwa [htrim, List.append_nil]
  · have hread := h.read (apart_of_stops stops_nil)
    rwa [List.append_nil] at hread

theorem ofString_render (h : t.Named) : ofString t.render = .ok t := by
  have hspells := spells_chars (named_iff.mp h)
  rw [ofString, render, String.toList_ofList, ofChars_eq_ok, hspells.trim_eq]
  exact hspells

theorem named_of_ofString {text : String} (h : ofString text = .ok t) : t.Named :=
  named_iff.mpr fun name hname => ((ofChars_eq_ok.mp h).names name hname).1

end Term

/-- Printing and reading undo each other on the values of a kind, and no others are read. -/
structure Inverts {α : Type} (print : α → String) (read : String → Except ReadError α)
    (Kind : α → Prop) : Prop where
  back : ∀ t, Kind t → read (print t) = .ok t
  kind : ∀ text t, read text = .ok t → Kind t
  injective : ∀ text text' t t', read text = .ok t → read text' = .ok t' → print t = print t' →
    t = t'
  again : ∀ text, (read text >>= fun t => read (print t)) = read text

theorem Inverts.of_back {α : Type} {print : α → String} {read : String → Except ReadError α}
    {Kind : α → Prop} (hback : ∀ t, Kind t → read (print t) = .ok t)
    (hkind : ∀ text t, read text = .ok t → Kind t) : Inverts print read Kind where
  back := hback
  kind := hkind
  injective := by
    intro text text' t t' ht ht' hprint
    have hread := hback t (hkind text t ht)
    rw [hprint, hback t' (hkind text' t' ht')] at hread
    exact (Except.ok.inj hread).symm
  again := by
    intro text
    cases hread : read text with
    | error e => rfl
    | ok t => exact hback t (hkind text t hread)

/-- Types print as texts that are read as the same types, and so do terms. -/
theorem reading_inverts_printing :
    Inverts SynType.render SynType.ofString SynType.Named ∧
      Inverts Term.render Term.ofString Term.Named :=
  ⟨.of_back (fun _ => SynType.ofString_render) fun _ _ => SynType.named_of_ofString,
    .of_back (fun _ => Term.ofString_render) fun _ _ => Term.named_of_ofString⟩

end Categorial
