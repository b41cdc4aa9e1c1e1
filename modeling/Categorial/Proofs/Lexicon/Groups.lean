import Categorial.Lexicon.Basic
import Mathlib.Data.List.Induction
import Mathlib.Data.List.Nodup

/-! # Groups of entries

A lexicon that is built entry by entry has one group for each sequence of tokens, where it came
first, with the entries for these tokens, each where it came first. Its entries build it again.
-/

namespace Categorial

variable {α : Type} [DecidableEq α] {xs ys : List α} {x y : α}

theorem mem_insertLast : y ∈ insertLast xs x ↔ y ∈ xs ∨ y = x := by
  unfold insertLast
  split
  · next hx => exact ⟨.inl, fun h => h.elim id fun h => h ▸ hx⟩
  · simp

theorem nodup_insertLast (h : xs.Nodup) : (insertLast xs x).Nodup := by
  unfold insertLast
  split
  · exact h
  · next hx => exact List.Nodup.append h (List.nodup_singleton x) (by simpa using hx)

theorem distinct_concat (xs : List α) (x : α) :
    distinct (xs ++ [x]) = insertLast (distinct xs) x := by
  rw [distinct, List.foldl_append]
  rfl

theorem mem_distinct : y ∈ distinct xs ↔ y ∈ xs := by
  induction xs using List.reverseRecOn with
  | nil => rfl
  | append_singleton xs x ih => rw [distinct_concat, mem_insertLast, ih, List.mem_append,
      List.mem_singleton]

theorem nodup_distinct (xs : List α) : (distinct xs).Nodup := by
  induction xs using List.reverseRecOn with
  | nil => exact List.nodup_nil
  | append_singleton xs x ih =>
    rw [distinct_concat]
    exact nodup_insertLast ih

theorem EntrySource.mem_union {sources : List EntrySource} {tokens : List String}
    {entry : LexicalEntry} : entry ∈ (union sources).entriesFor tokens ↔
      ∃ source ∈ sources, entry ∈ source.entriesFor tokens :=
  mem_distinct.trans List.mem_flatMap

namespace Lexicon

variable {entries : List LexicalEntry} {groups done : List EntryGroup} {entry e : LexicalEntry}
  {lexicon : Lexicon} {tokens : List String}

theorem addToGroups_append (h : ∀ group ∈ done, group.tokens ≠ entry.tokens) :
    addToGroups entry (done ++ groups) = done ++ addToGroups entry groups := by
  induction done with
  | nil => rfl
  | cons group done ih =>
    rw [List.cons_append, addToGroups, if_neg (h group (.head _)),
      ih fun g hg => h g (.tail _ hg), List.cons_append]

/-- One group for each sequence of tokens, with the entries for it. -/
def grouped (entries : List LexicalEntry) : Lexicon where
  groups := (distinct (entries.map (·.tokens))).map fun tokens =>
    ⟨tokens, distinct (entries.filter (·.tokens = tokens))⟩

theorem map_groups_concat {keys : List (List String)} (h : entry.tokens ∉ keys) :
    (keys.map fun tokens => EntryGroup.mk tokens
      (distinct ((entries ++ [entry]).filter (·.tokens = tokens)))) =
    keys.map fun tokens => ⟨tokens, distinct (entries.filter (·.tokens = tokens))⟩ := by
  refine List.map_congr_left fun tokens htokens => ?_
  have hne : ¬ entry.tokens = tokens := fun heq => h (heq ▸ htokens)
  rw [List.filter_append, List.filter_cons_of_neg (by simpa using hne), List.filter_nil,
    List.append_nil]

theorem grouped_concat : grouped (entries ++ [entry]) = (grouped entries).add entry := by
  unfold grouped add
  congr 1
  rw [List.map_append, List.map_singleton, distinct_concat]
  unfold insertLast
  split
  · next hmem =>
    -- the keys before and after that of the entry
    obtain ⟨before, after, hkeys⟩ := List.append_of_mem hmem
    have hnodup := nodup_distinct (entries.map (·.tokens))
    rw [hkeys] at hnodup ⊢
    have hbefore : entry.tokens ∉ before := fun h =>
      (List.nodup_append.mp hnodup).2.2 _ h _ (.head _) rfl
    have hafter : entry.tokens ∉ after :=
      (List.nodup_cons.mp (List.nodup_append.mp hnodup).2.1).1
    rw [List.map_append, List.map_append, List.map_cons, List.map_cons, map_groups_concat hbefore,
      map_groups_concat hafter, addToGroups_append]
    · rw [addToGroups, if_pos rfl, List.filter_append, List.filter_cons_of_pos (by simp),
        List.filter_nil, distinct_concat]
    · intro group hgroup
      obtain ⟨tokens, htokens, rfl⟩ := List.mem_map.mp hgroup
      exact fun heq => hbefore (heq ▸ htokens)
  · next hmem =>
    rw [List.map_append, map_groups_concat hmem, List.map_singleton,
      ← List.append_nil (List.map _ (distinct (entries.map (·.tokens)))), addToGroups_append,
      List.append_nil]
    · have hnone : entries.filter (·.tokens = entry.tokens) = [] := by
        refine List.filter_eq_nil_iff.mpr fun e he heq => hmem (mem_distinct.mpr ?_)
        exact List.mem_map.mpr ⟨e, he, by simpa using heq⟩
      rw [List.filter_append, hnone, List.filter_cons_of_pos (by simp)]
      rfl
    · intro group hgroup
      obtain ⟨tokens, htokens, rfl⟩ := List.mem_map.mp hgroup
      exact fun heq => hmem (heq ▸ htokens)

theorem ofEntries_concat : ofEntries (entries ++ [entry]) = (ofEntries entries).add entry := by
  rw [ofEntries, List.foldl_append]
  rfl

/-- Adding entries one by one groups them. -/
theorem ofEntries_eq_grouped (entries : List LexicalEntry) :
    ofEntries entries = grouped entries := by
  induction entries using List.reverseRecOn with
  | nil => rfl
  | append_singleton entries entry ih => rw [ofEntries_concat, grouped_concat, ih]

/-- One group for each sequence of tokens, and in a group at least one entry, none of them twice and
all for the tokens of the group. -/
structure Tabular (lexicon : Lexicon) : Prop where
  distinct_tokens : (lexicon.groups.map (·.tokens)).Nodup
  nonempty : ∀ group ∈ lexicon.groups, group.entries ≠ []
  distinct_entries : ∀ group ∈ lexicon.groups, group.entries.Nodup
  tokens_eq : ∀ group ∈ lexicon.groups, ∀ e ∈ group.entries, e.tokens = group.tokens

theorem tabular_grouped (entries : List LexicalEntry) : (grouped entries).Tabular := by
  have hgroup : ∀ group ∈ (grouped entries).groups, ∃ tokens ∈ entries.map (·.tokens),
      group = ⟨tokens, distinct (entries.filter (·.tokens = tokens))⟩ := by
    intro group hgroup
    obtain ⟨tokens, htokens, rfl⟩ := List.mem_map.mp hgroup
    exact ⟨tokens, mem_distinct.mp htokens, rfl⟩
  constructor
  · have hkeys : (grouped entries).groups.map (·.tokens) = distinct (entries.map (·.tokens)) := by
      rw [grouped, List.map_map]
      exact List.map_id _
    rw [hkeys]
    exact nodup_distinct _
  · intro group hmem
    obtain ⟨tokens, htokens, rfl⟩ := hgroup group hmem
    obtain ⟨e, he, rfl⟩ := List.mem_map.mp htokens
    exact List.ne_nil_of_mem (mem_distinct.mpr (List.mem_filter.mpr ⟨he, by simp⟩))
  · intro group hmem
    obtain ⟨tokens, htokens, rfl⟩ := hgroup group hmem
    exact nodup_distinct _
  · intro group hmem e he
    obtain ⟨tokens, htokens, rfl⟩ := hgroup group hmem
    simpa using (List.mem_filter.mp (mem_distinct.mp he)).2

theorem tabular_ofEntries (entries : List LexicalEntry) : (ofEntries entries).Tabular :=
  ofEntries_eq_grouped entries ▸ tabular_grouped entries

theorem mem_entries_ofEntries : e ∈ (ofEntries entries).entries ↔ e ∈ entries := by
  rw [ofEntries_eq_grouped, Lexicon.entries, grouped, List.mem_flatMap]
  constructor
  · rintro ⟨group, hgroup, he⟩
    obtain ⟨tokens, -, rfl⟩ := List.mem_map.mp hgroup
    exact (List.mem_filter.mp (mem_distinct.mp he)).1
  · intro he
    refine ⟨_, List.mem_map.mpr ⟨e.tokens, mem_distinct.mpr (List.mem_map_of_mem he), rfl⟩, ?_⟩
    exact mem_distinct.mpr (List.mem_filter.mpr ⟨he, by simp⟩)

theorem foldl_add_group (hdone : ∀ group ∈ done, group.tokens ≠ tokens) (hne : entries ≠ [])
    (hnodup : entries.Nodup) (htokens : ∀ e ∈ entries, e.tokens = tokens) :
    entries.foldl add ⟨done⟩ = ⟨done ++ [⟨tokens, entries⟩]⟩ := by
  induction entries using List.reverseRecOn with
  | nil => exact absurd rfl hne
  | append_singleton entries entry ih =>
    have hentry : entry.tokens = tokens := htokens entry (by simp)
    have hdone' : ∀ group ∈ done, group.tokens ≠ entry.tokens := by rwa [hentry]
    rw [List.foldl_append]
    by_cases hnil : entries = []
    · subst hnil
      show Lexicon.mk (addToGroups entry done) = _
      rw [← List.append_nil done, addToGroups_append hdone', addToGroups, hentry, List.append_nil]
      rfl
    · rw [List.nodup_append] at hnodup
      have hfresh : entry ∉ entries := fun h => hnodup.2.2 entry h entry (.head _) rfl
      rw [ih hnil hnodup.1 fun e he => htokens e (List.mem_append_left _ he)]
      show Lexicon.mk (addToGroups entry _) = _
      rw [addToGroups_append hdone', addToGroups, if_pos hentry.symm, insertLast, if_neg hfresh]

/-- The entries of a table build it again. -/
theorem Tabular.ofEntries_entries (h : lexicon.Tabular) : ofEntries lexicon.entries = lexicon := by
  obtain ⟨groups⟩ := lexicon
  unfold ofEntries Lexicon.entries
  induction groups using List.reverseRecOn with
  | nil => rfl
  | append_singleton groups group ih =>
    obtain ⟨htokens, hne, hnodup, heq⟩ := h
    rw [List.map_append, List.nodup_append] at htokens
    have hbefore : (Lexicon.mk groups).Tabular := ⟨htokens.1,
      fun g hg => hne g (List.mem_append_left _ hg),
      fun g hg => hnodup g (List.mem_append_left _ hg),
      fun g hg => heq g (List.mem_append_left _ hg)⟩
    have hgroup : group ∈ (Lexicon.mk (groups ++ [group])).groups := by simp
    rw [List.flatMap_append, List.foldl_append, ih hbefore, List.flatMap_singleton,
      foldl_add_group (fun g hg => htokens.2.2 _ (List.mem_map_of_mem hg) _ (.head _))
        (hne group hgroup) (hnodup group hgroup) (heq group hgroup)]

theorem exists_group_of_mem_entriesFor (he : e ∈ lexicon.entriesFor tokens) :
    ∃ group ∈ lexicon.groups, group.tokens = tokens ∧ e ∈ group.entries := by
  unfold entriesFor at he
  split at he
  · next group hfind =>
    exact ⟨group, List.mem_of_find?_eq_some hfind, by simpa using List.find?_some hfind, he⟩
  · cases he

theorem mem_entries_of_mem_entriesFor (he : e ∈ lexicon.entriesFor tokens) :
    e ∈ lexicon.entries := by
  obtain ⟨group, hgroup, _, hmem⟩ := exists_group_of_mem_entriesFor he
  exact List.mem_flatMap.mpr ⟨group, hgroup, hmem⟩

theorem Tabular.tokens_of_mem_entriesFor (h : lexicon.Tabular)
    (he : e ∈ lexicon.entriesFor tokens) : e.tokens = tokens := by
  obtain ⟨group, hgroup, htokens, hmem⟩ := exists_group_of_mem_entriesFor he
  exact (h.tokens_eq group hgroup e hmem).trans htokens

end Lexicon

end Categorial
