import Categorial.Proofs.Chart.BeamMoves

/-! # Beams whose parts are in step

A beam says the same thing more than once: the index repeats the categories in the slots, the count
repeats how many slots are bounded, and a mark repeats whether a cell has a lexical step. Each move
of cells keeps all of them in step, in either order of pruning and without any law of arithmetic.
-/

namespace Categorial.Beam

variable {S : Type}

/-- The parts of a beam with these settings are in step, and each category is held or set aside once
at most. Cells with a lexical step are outside the bound if they are kept apart, and nothing is set
aside if ties break by arrival. -/
structure Consistent (b : Beam S) (capacity : Nat) (order : PruneOrder) (separateLexical : Bool) :
    Prop where
  capacity_eq : b.capacity = capacity
  order_eq : b.order = order
  separateLexical_eq : b.separateLexical = separateLexical
  indexed : b.Indexed
  apart : (b.stock.map (·.category)).Nodup
  unbounded_iff : ∀ e ∈ b.entries, e.2 = (separateLexical && e.1.hasLexicalStep)
  aside_bounded : ∀ c ∈ b.setAside, (separateLexical && c.hasLexicalStep) = false
  in_turn : order = .insertionOrder → b.setAside = [] ∧ b.threshold = none

variable {b b' : Beam S} {capacity : Nat} {order : PruneOrder} {separateLexical : Bool}
  {cell : Cell S} {cells : List (Cell S)} {key : Nat} {held : Held S}

theorem consistent_empty (capacity : Nat) (order : PruneOrder) (separateLexical : Bool) :
    (empty capacity order separateLexical : Beam S).Consistent capacity order separateLexical where
  capacity_eq := rfl
  order_eq := rfl
  separateLexical_eq := rfl
  indexed := indexed_empty ..
  apart := by simp [stock, entries, empty, Slots.toList, Slots.empty]
  unbounded_iff := by simp [entries, empty, Slots.toList, Slots.empty]
  aside_bounded := by simp [empty]
  in_turn _ := ⟨rfl, rfl⟩

section Parts

theorem bounded_keys_eq [Scalar S] (b : Beam S) :
    b.bounded.map (·.2.cell.pruneKey) = b.competing.map Cell.pruneKey := by
  rw [← bounded_cells_eq, List.map_map]
  rfl

theorem accept_of_lexical [Scalar S]
    (hlex : (b.separateLexical && cell.hasLexicalStep) = true) :
    b.accept cell = ((b.insert cell true).1, .inserted b.slots.nextKey) := by
  rw [accept, if_pos hlex]
  rfl

def ranking [Scalar S] (b : Beam S) : List (PruneKey S) :=
  (b.bounded.map (·.2.cell.pruneKey) ++ b.setAside.map Cell.pruneKey).mergeSort fun x y => y.ble x

/-- When the bounded part is built again, either all cells set aside come back, or first the bounded
cells are set aside that do not beat the threshold and then the others come back that do. -/
theorem rebalance_cases [Scalar S] (hb : b.Indexed) (hapart : (b.stock.map (·.category)).Nodup)
    (ho : b.order = .orderInvariant) :
    b.ranking[b.capacity]? = none ∧
        ((b.withThreshold none).withAside []).TakenBack b.setAside b.rebalance ∨
      ∃ t mid, b.ranking[b.capacity]? = some t ∧
        (b.withThreshold (some t)).Sifted (fun c => c.pruneKey.ble t) mid ∧
        (mid.withAside (mid.setAside.filter fun c => !t.blt c.pruneKey)).TakenBack
          (mid.setAside.filter fun c => t.blt c.pruneKey) b.rebalance := by
  generalize hre : b.rebalance = b'
  unfold Beam.rebalance at hre
  dsimp only at hre
  split at hre
  next hnone =>
    have hall : b.setAside.Perm (b.setAside ++ []) := by rw [List.append_nil]
    have hback := (hb.withThreshold none).takenBack hapart hall
    rw [hnone] at hre
    subst hre
    exact .inl ⟨hnone, hback⟩
  next t ht =>
    have hs := sifted_evict (hb.withThreshold (some t)) ho fun c => c.pruneKey.ble t
    have hstock : b.stock.Perm _ := hs.stock_perm
    rw [List.partition_eq_filter_filter, ht] at hre
    subst hre
    exact .inr ⟨t, _, ht, hs, hs.indexed.takenBack ((hstock.map _).nodup_iff.mp hapart)
      (List.filter_append_perm _ _).symm⟩

variable {winners : List (Cell S)} {p : Cell S → Bool}

theorem Sifted.competing_perm (hs : b.Sifted p b') :
    b'.competing.Perm (b.competing.filter fun c => !p c) := by
  have hleft : (b.competing.filter fun c => !p c) =
      ((b.entries.filter fun e => e.2 || !p e.1).filter (!·.2)).map (·.1) := by
    rw [competing, List.filter_map, List.filter_filter, List.filter_filter]
    congr 1
    refine List.filter_congr fun e _ => ?_
    cases e.2 <;> simp
  rw [hleft]
  exact (hs.entries.filter (!·.2)).map _

theorem TakenBack.competing_perm (hre : b.TakenBack winners b') :
    b'.competing.Perm (winners ++ b.competing) := by
  simpa [competing, List.filter_map, Function.comp_def] using
    (hre.entries.filter (!·.2)).map (·.1)

end Parts

namespace Consistent

section Settings

variable (hb : b.Consistent capacity order separateLexical)

include hb

theorem withFlags (rejected externallyPruned : Bool) :
    { b with rejected, externallyPruned }.Consistent capacity order separateLexical where
  capacity_eq := hb.capacity_eq
  order_eq := hb.order_eq
  separateLexical_eq := hb.separateLexical_eq
  indexed := ⟨hb.indexed.index_iff, hb.indexed.numBounded_eq⟩
  apart := hb.apart
  unbounded_iff := hb.unbounded_iff
  aside_bounded := hb.aside_bounded
  in_turn := hb.in_turn

theorem withAside (hcells : cells ⊆ b.setAside)
    (hapart : ((b.withAside cells).stock.map (·.category)).Nodup) :
    (b.withAside cells).Consistent capacity order separateLexical where
  capacity_eq := hb.capacity_eq
  order_eq := hb.order_eq
  separateLexical_eq := hb.separateLexical_eq
  indexed := hb.indexed.withAside cells
  apart := hapart
  unbounded_iff := hb.unbounded_iff
  aside_bounded c hc := hb.aside_bounded c (hcells hc)
  in_turn ho := by
    obtain ⟨hnil, hnone⟩ := hb.in_turn ho
    rw [hnil] at hcells
    exact ⟨List.subset_nil.mp hcells, hnone⟩

theorem reordered (hp : b.setAside.Perm cells) :
    (b.withAside cells).Consistent capacity order separateLexical :=
  hb.withAside hp.symm.subset (((hp.append_left _).map _).nodup_iff.mp hb.apart)

theorem forget (hs : cells.Sublist b.setAside) :
    (b.withAside cells).Consistent capacity order separateLexical :=
  hb.withAside hs.subset (hb.apart.sublist ((hs.append_left _).map _))

end Settings

theorem insert (hb : b.Consistent capacity order separateLexical)
    (hfresh : ∀ c ∈ b.stock, c.category ≠ cell.category) :
    (b.insert cell (separateLexical && cell.hasLexicalStep)).1.Consistent capacity order
      separateLexical where
  capacity_eq := hb.capacity_eq
  order_eq := hb.order_eq
  separateLexical_eq := hb.separateLexical_eq
  indexed := hb.indexed.insert fun e he =>
    hfresh _ (List.mem_append_left _ (List.mem_map_of_mem he))
  apart := by
    rw [((b.stock_insert_perm cell _).map _).nodup_iff, List.map_cons, List.nodup_cons]
    refine ⟨fun hc => ?_, hb.apart⟩
    obtain ⟨c, hc, hcat⟩ := List.mem_map.mp hc
    exact hfresh c hc hcat
  unbounded_iff e he := by
    rcases List.mem_cons.mp ((b.entries_insert_perm cell _).mem_iff.mp he) with rfl | he
    · rfl
    · exact hb.unbounded_iff e he
  aside_bounded := hb.aside_bounded
  in_turn := hb.in_turn

theorem remove (hb : b.Consistent capacity order separateLexical)
    (hk : b.slots.get? key = some held) :
    (b.remove key).Consistent capacity order separateLexical := by
  have hset := b.settings_remove key
  have hentries := entries_remove_perm hk
  refine ⟨hset.capacity.trans hb.capacity_eq, hset.order.trans hb.order_eq,
    hset.separateLexical.trans hb.separateLexical_eq, hb.indexed.remove hk, ?_, ?_, ?_, ?_⟩
  · have hstock : b.stock.Perm (held.cell :: (b.remove key).stock) := by
      rw [stock, stock, setAside_remove]
      exact (hentries.map (·.1)).append_right _
    exact (List.nodup_cons.mp ((hstock.map _).nodup_iff.mp hb.apart)).2
  · exact fun e he => hb.unbounded_iff e (hentries.mem_iff.mpr (.tail _ he))
  · rw [setAside_remove]
    exact hb.aside_bounded
  · rw [setAside_remove, threshold_remove]
    exact hb.in_turn

/-- The cell in a slot makes room for one of the same category with more steps. If that has become
lexical, it no longer counts against the capacity. -/
theorem replace {m : Cell S} (hb : b.Consistent capacity order separateLexical)
    (hk : b.slots.get? key = some held) (hcat : m.category = held.cell.category)
    (hsteps : held.cell.hasLexicalStep = true → m.hasLexicalStep = true) (seq : Nat) :
    let lexical := separateLexical && !held.unbounded && m.hasLexicalStep
    (b.replace key ⟨m, seq, held.unbounded || lexical⟩
      (if lexical then b.numBounded - 1 else b.numBounded)).Consistent capacity order
        separateLexical := by
  intro lexical
  have hentry : (held.cell, held.unbounded) ∈ b.entries :=
    mem_entries_iff.mpr ⟨key, held, hk, rfl⟩
  have hold := entries_remove_perm hk
  have hnew := entries_replace_perm hk ⟨m, seq, held.unbounded || lexical⟩
    (if lexical then b.numBounded - 1 else b.numBounded)
  have hboth : held.unbounded = true → lexical = false := fun hu => by simp [lexical, hu]
  refine ⟨hb.capacity_eq, hb.order_eq, hb.separateLexical_eq,
    hb.indexed.replace_lexical hk hcat hboth seq, ?_, ?_, hb.aside_bounded, hb.in_turn⟩
  · have hcats := ((hold.map (·.1)).append_right b.setAside).map (·.category)
    have hcats' := ((hnew.map (·.1)).append_right b.setAside).map (·.category)
    rw [List.map_cons, List.cons_append, List.map_cons] at hcats hcats'
    rw [hcat] at hcats'
    exact hcats'.nodup_iff.mpr (hcats.nodup_iff.mp hb.apart)
  · intro e he
    rcases List.mem_cons.mp (hnew.mem_iff.mp he) with rfl | he
    · have hu : held.unbounded = (separateLexical && held.cell.hasLexicalStep) :=
        hb.unbounded_iff _ hentry
      show (held.unbounded || lexical) = (separateLexical && m.hasLexicalStep)
      cases hlex : held.cell.hasLexicalStep with
      | true => simp [lexical, hu, hlex, hsteps hlex]
      | false => simp [lexical, hu, hlex]
    · exact hb.unbounded_iff e (hold.mem_iff.mpr (.tail _ he))

variable (hb : b.Consistent capacity .orderInvariant separateLexical)

include hb

theorem withThreshold (t : Option (PruneKey S)) :
    (b.withThreshold t).Consistent capacity .orderInvariant separateLexical :=
  ⟨hb.capacity_eq, hb.order_eq, hb.separateLexical_eq, hb.indexed.withThreshold t, hb.apart,
    hb.unbounded_iff, hb.aside_bounded, nofun⟩

theorem turnAway (hfresh : ∀ c ∈ b.stock, c.category ≠ cell.category)
    (hlex : (separateLexical && cell.hasLexicalStep) = false) :
    (b.turnAway cell).Consistent capacity .orderInvariant separateLexical := by
  rw [turnAway_eq hb.order_eq]
  refine ⟨hb.capacity_eq, hb.order_eq, hb.separateLexical_eq, hb.indexed.withAside _, ?_,
    hb.unbounded_iff, ?_, nofun⟩
  · have hstock : (b.withAside (cell :: b.setAside)).stock.Perm (cell :: b.stock) :=
      List.perm_middle
    rw [(hstock.map _).nodup_iff, List.map_cons, List.nodup_cons]
    refine ⟨fun hc => ?_, hb.apart⟩
    obtain ⟨c, hc, hcat⟩ := List.mem_map.mp hc
    exact hfresh c hc hcat
  · rintro c (_ | ⟨_, hc⟩)
    · exact hlex
    · exact hb.aside_bounded c hc

theorem sifted {p : Cell S → Bool} (hs : b.Sifted p b') :
    b'.Consistent capacity .orderInvariant separateLexical where
  capacity_eq := hs.settings.capacity.trans hb.capacity_eq
  order_eq := hs.settings.order.trans hb.order_eq
  separateLexical_eq := hs.settings.separateLexical.trans hb.separateLexical_eq
  indexed := hs.indexed
  apart := (hs.stock_perm.map _).nodup_iff.mp hb.apart
  unbounded_iff e he := hb.unbounded_iff e (List.mem_of_mem_filter (hs.entries.mem_iff.mp he))
  aside_bounded c hc := by
    rcases List.mem_append.mp (hs.setAside.mem_iff.mp hc) with hc | hc
    · exact (hb.unbounded_iff _ (mem_competing_iff.mp (List.mem_of_mem_filter hc))).symm
    · exact hb.aside_bounded c hc
  in_turn := nofun

theorem takenBack {winners losers : List (Cell S)} (haside : b.setAside.Perm (winners ++ losers))
    (hre : (b.withAside losers).TakenBack winners b') :
    b'.Consistent capacity .orderInvariant separateLexical where
  capacity_eq := hre.settings.capacity.trans hb.capacity_eq
  order_eq := hre.settings.order.trans hb.order_eq
  separateLexical_eq := hre.settings.separateLexical.trans hb.separateLexical_eq
  indexed := hre.indexed
  apart := ((hre.stock_perm haside).map _).nodup_iff.mp hb.apart
  unbounded_iff e he := by
    rcases List.mem_append.mp (hre.entries.mem_iff.mp he) with he | he
    · obtain ⟨c, hc, rfl⟩ := List.mem_map.mp he
      exact (hb.aside_bounded c (haside.mem_iff.mpr (List.mem_append_left _ hc))).symm
    · exact hb.unbounded_iff e he
  aside_bounded c hc := by
    rw [hre.setAside] at hc
    exact hb.aside_bounded c (haside.mem_iff.mpr (List.mem_append_right _ hc))
  in_turn := nofun

end Consistent

end Categorial.Beam
