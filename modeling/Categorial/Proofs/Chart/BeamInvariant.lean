import Categorial.Proofs.Chart.Consistency
import Categorial.Proofs.Chart.Cutoff
import Categorial.Proofs.Chart.Stocks

/-! # The invariant of an order-invariant beam

At any time the held cells and those set aside together pack all steps offered so far, one cell per
category. The competing cells and those set aside are divided at the threshold. Each way that an
offered cell can take through a beam keeps this.
-/

namespace Categorial

variable {S : Type}

namespace Beam

variable [ExactScalar S]

/-- All but the division at the threshold. -/
structure Tidy (b : Beam S) (span : Span) (offered : List (PackedStep S)) : Prop where
  indexed : b.Indexed
  order : b.order = .orderInvariant
  rejected : b.rejected = false
  stocks : Stocks span offered b.stock
  unbounded_iff : ∀ e ∈ b.entries, e.2 = (b.separateLexical && e.1.hasLexicalStep)
  aside_bounded : ∀ c ∈ b.setAside, (b.separateLexical && c.hasLexicalStep) = false

/-- The beam has taken in exactly these steps. -/
structure Holds (b : Beam S) (span : Span) (offered : List (PackedStep S)) : Prop
    extends b.Tidy span offered where
  divides : Divides b.capacity b.threshold (b.competing.map Cell.pruneKey)
    (b.setAside.map Cell.pruneKey)

variable {b : Beam S} {span : Span} {offered more : List (PackedStep S)} {cell : Cell S}

theorem holds_empty (capacity : Nat) (separateLexical : Bool) (span : Span) :
    (empty capacity .orderInvariant separateLexical : Beam S).Holds span [] where
  indexed := indexed_empty ..
  order := rfl
  rejected := rfl
  stocks := ⟨by simp [stock, entries, empty, Slots.toList, Slots.empty],
    by simp [stock, entries, empty, Slots.toList, Slots.empty], by simp⟩
  unbounded_iff := by simp [entries, empty, Slots.toList, Slots.empty]
  aside_bounded := by simp [empty]
  divides := by simp [Divides, competing, entries, empty, Slots.toList, Slots.empty]

theorem Tidy.consistent (hb : b.Tidy span offered) :
    b.Consistent b.capacity .orderInvariant b.separateLexical where
  capacity_eq := rfl
  order_eq := hb.order
  separateLexical_eq := rfl
  indexed := hb.indexed
  apart := hb.stocks.apart
  unbounded_iff := hb.unbounded_iff
  aside_bounded := hb.aside_bounded
  in_turn := nofun

theorem Consistent.tidy {capacity : Nat} {separateLexical : Bool}
    (hb : b.Consistent capacity .orderInvariant separateLexical) (hrejected : b.rejected = false)
    (hstocks : Stocks span offered b.stock) : b.Tidy span offered where
  indexed := hb.indexed
  order := hb.order_eq
  rejected := hrejected
  stocks := hstocks
  unbounded_iff := hb.separateLexical_eq ▸ hb.unbounded_iff
  aside_bounded := hb.separateLexical_eq ▸ hb.aside_bounded

theorem Tidy.category_ne (hb : b.Tidy span offered) {a c : Cell S} (ha : a ∈ b.cells.map (·.2))
    (hc : c ∈ b.setAside) : a.category ≠ c.category := by
  intro hcat
  have hapart := hb.stocks.apart
  rw [stock, List.map_append, ← kept_eq] at hapart
  exact List.disjoint_of_nodup_append hapart (List.mem_map_of_mem ha)
    (hcat ▸ List.mem_map_of_mem hc)

theorem Tidy.insert (hb : b.Tidy span offered) (hcell : cell.Packs span more)
    (hfresh : ∀ c ∈ b.stock, c.category ≠ cell.category)
    (hmore : ∀ p, p ∈ more ↔ p ∈ offered ∨ p ∈ cell.steps) :
    (b.insert cell (b.separateLexical && cell.hasLexicalStep)).1.Tidy span more :=
  (hb.consistent.insert hfresh).tidy hb.rejected
    ((hb.stocks.cons hcell hfresh hmore).perm (b.stock_insert_perm cell _).symm)

theorem cutoff_eq (keys : List (PruneKey S)) (capacity : Nat) :
    (keys.mergeSort fun x y => y.ble x)[capacity]? = cutoff capacity keys := by
  simp only [cutoff, PruneKey.ble_eq]

theorem Tidy.takenBack {b' : Beam S} {winners losers : List (Cell S)}
    (hb : b.Tidy span offered) (haside : b.setAside.Perm (winners ++ losers))
    (hre : (b.withAside losers).TakenBack winners b') :
    b'.Tidy span offered ∧ b'.competing.Perm (winners ++ b.competing) ∧ b'.setAside = losers :=
  ⟨(hb.consistent.takenBack haside hre).tidy (hre.settings.rejected.trans hb.rejected)
    (hb.stocks.perm (hre.stock_perm haside)), hre.competing_perm, hre.setAside⟩

theorem Tidy.sifted {b' : Beam S} {p : Cell S → Bool} (hb : b.Tidy span offered)
    (hs : b.Sifted p b') :
    b'.Tidy span offered ∧ b'.competing.Perm (b.competing.filter fun c => !p c) :=
  ⟨(hb.consistent.sifted hs).tidy (hs.settings.rejected.trans hb.rejected)
    (hb.stocks.perm hs.stock_perm), hs.competing_perm⟩

def candidates (b : Beam S) : List (Cell S) :=
  b.competing ++ b.setAside

theorem rebalance_scores_eq (b : Beam S) :
    ((b.bounded.map (·.2.cell.pruneKey) ++ b.setAside.map Cell.pruneKey).mergeSort
      fun x y => y.ble x)[b.capacity]? = cutoff b.capacity (b.candidates.map Cell.pruneKey) := by
  rw [cutoff_eq, candidates, bounded_keys_eq, List.map_append]

theorem rebalance_of_room (h : cutoff b.capacity (b.candidates.map Cell.pruneKey) = none) :
    b.rebalance = ((b.withThreshold none).withAside []).takeBack b.setAside := by
  simp only [Beam.rebalance, rebalance_scores_eq, h]
  rfl

def resettle (b : Beam S) (t : PruneKey S) : Beam S :=
  let b' := b.evict (b.bounded.filter (·.2.cell.pruneKey.ble t))
  (b'.withAside (b'.setAside.filter fun c => !t.blt c.pruneKey)).takeBack
    (b'.setAside.filter fun c => t.blt c.pruneKey)

theorem rebalance_of_cutoff {t : PruneKey S}
    (h : cutoff b.capacity (b.candidates.map Cell.pruneKey) = some t) :
    b.rebalance = (b.withThreshold (some t)).resettle t := by
  simp only [Beam.rebalance, rebalance_scores_eq, h, List.partition_eq_filter_filter]
  rfl

theorem Tidy.withThreshold (hb : b.Tidy span offered) (t : Option (PruneKey S)) :
    (b.withThreshold t).Tidy span offered :=
  (hb.consistent.withThreshold t).tidy hb.rejected hb.stocks

theorem Tidy.resettle (hb : b.Tidy span offered) (t : PruneKey S) :
    (b.resettle t).Tidy span offered ∧ b.Settings (b.resettle t) ∧
      (b.resettle t).threshold = b.threshold ∧
      (b.resettle t).competing.Perm (b.candidates.filter fun c => !c.pruneKey.ble t) ∧
      (b.resettle t).setAside.Perm (b.candidates.filter fun c => c.pruneKey.ble t) := by
  have hsift := sifted_evict hb.indexed hb.order fun c => c.pruneKey.ble t
  obtain ⟨hmid, hstay⟩ := hb.sifted hsift
  unfold Beam.resettle
  generalize b.evict _ = b' at hsift hmid hstay ⊢
  simp only [PruneKey.blt_eq_not_ble, Bool.not_not]
  have hsplit := List.filter_append_perm (fun c => !c.pruneKey.ble t) b'.setAside
  simp only [Bool.not_not] at hsplit
  have hre := hmid.indexed.takenBack hmid.stocks.apart hsplit.symm
  obtain ⟨htidy, hcomp, haside⟩ := hmid.takenBack hsplit.symm hre
  -- the cells that came through the first test are all above the key
  have hnone : b'.competing.filter (fun c => c.pruneKey.ble t) = [] := by
    rw [List.filter_eq_nil_iff]
    intro c hc
    simpa using (List.mem_filter.mp (hstay.mem_iff.mp hc)).2
  have hall : b'.competing.filter (fun c => !c.pruneKey.ble t) = b'.competing := by
    rw [List.filter_eq_self]
    intro c hc
    exact (List.mem_filter.mp (hstay.mem_iff.mp hc)).2
  have hcand : b'.candidates.Perm b.candidates := by
    have hparts := List.filter_append_perm (fun c => !c.pruneKey.ble t) b.competing
    simp only [Bool.not_not] at hparts
    calc
      List.Perm b'.candidates ((b.competing.filter fun c => !c.pruneKey.ble t) ++
          ((b.competing.filter fun c => c.pruneKey.ble t) ++ b.setAside)) :=
        hstay.append hsift.setAside
      List.Perm _ b.candidates := by
        rw [← List.append_assoc]
        exact hparts.append_right _
  refine ⟨htidy, hsift.settings.trans ((settings_withAside _ _).trans hre.settings),
    hre.threshold.trans hsift.threshold, ?_, ?_⟩
  · have := hcand.filter fun c => !c.pruneKey.ble t
    rw [candidates, List.filter_append, hall] at this
    exact hcomp.trans (List.perm_append_comm.trans this)
  · have := hcand.filter fun c => c.pruneKey.ble t
    rw [candidates, List.filter_append, hnone] at this
    exact (List.Perm.of_eq haside).trans this

/-- Rebuilding the bounded part divides the cells at their cutoff. -/
theorem Tidy.rebalance (hb : b.Tidy span offered) :
    b.rebalance.Holds span offered ∧ b.Settings b.rebalance := by
  have hdiv := @divides_cutoff _ _ b.capacity (b.candidates.map Cell.pruneKey)
  cases hc : cutoff b.capacity (b.candidates.map Cell.pruneKey) with
  | none =>
    -- all cells fit in, so those set aside come back
    have hall : b.setAside.Perm (b.setAside ++ []) := by rw [List.append_nil]
    have hre := (hb.indexed.withThreshold none).takenBack hb.stocks.apart hall
    obtain ⟨htidy, hcomp, haside⟩ := (hb.withThreshold none).takenBack hall hre
    rw [rebalance_of_room hc]
    refine ⟨⟨htidy, ?_⟩, (b.settings_withThreshold none).trans
      ((settings_withAside _ []).trans hre.settings)⟩
    rw [hre.threshold, hre.settings.capacity, haside]
    rw [hc] at hdiv
    have hkept : (b.candidates.map Cell.pruneKey).Perm
        ((((b.withThreshold none).withAside []).takeBack b.setAside).competing.map
          Cell.pruneKey) :=
      (List.perm_append_comm.trans hcomp.symm).map _
    refine hdiv.perm ?_ (by simp)
    simpa using hkept
  | some t =>
    obtain ⟨htidy, hset, hthr, hcomp, haside⟩ := (hb.withThreshold (some t)).resettle t
    rw [rebalance_of_cutoff hc]
    refine ⟨⟨htidy, ?_⟩, (b.settings_withThreshold (some t)).trans hset⟩
    rw [hthr, hset.capacity]
    rw [hc] at hdiv
    refine hdiv.perm ?_ ?_
    · refine .trans (.of_eq ?_) (hcomp.map Cell.pruneKey).symm
      rw [List.filter_map]
      refine congrArg _ (List.filter_congr fun c _ => ?_)
      simp only [Option.all_some, Function.comp, PruneKey.ble_eq, ← decide_not, not_le]
    · refine .trans (.of_eq ?_) (haside.map Cell.pruneKey).symm
      rw [List.filter_map]
      refine congrArg _ (List.filter_congr fun c _ => ?_)
      simp [PruneKey.ble_eq]

theorem foldl_lower (low : PruneKey S) (keys : List (PruneKey S)) :
    let least := keys.foldl (fun low k => if k.blt low then k else low) low
    least ∈ low :: keys ∧ ∀ k ∈ low :: keys, least ≤ k := by
  induction keys generalizing low with
  | nil => simp
  | cons key keys ih =>
    obtain ⟨hmem, hle⟩ := ih (if key.blt low then key else low)
    simp only [List.foldl_cons, List.mem_cons, forall_eq_or_imp] at hmem hle ⊢
    simp only [PruneKey.blt_iff] at hmem hle ⊢
    split_ifs at hmem hle ⊢ with hlt
    · exact ⟨.inr hmem, hle.1.trans hlt.le, hle.1, hle.2⟩
    · exact ⟨hmem.imp_right .inr, hle.1, hle.1.trans (not_lt.mp hlt), hle.2⟩

theorem exists_lowest {keys : List (PruneKey S)} (hne : keys ≠ []) :
    ∃ low, lowest? keys = some low ∧ low ∈ keys ∧ ∀ k ∈ keys, low ≤ k := by
  obtain ⟨key, rest, rfl⟩ := List.exists_cons_of_ne_nil hne
  exact ⟨_, rfl, foldl_lower key rest⟩

theorem evictMinimumTies_eq {low : PruneKey S}
    (hlow : lowest? (b.competing.map Cell.pruneKey) = some low)
    (habove : ∀ t ∈ b.threshold, t < low) :
    b.evictMinimumTies.1 =
      (b.evict (b.bounded.filter (·.2.cell.pruneKey.beq low))).withThreshold (some low) := by
  simp only [evictMinimumTies, bounded_keys_eq, hlow]
  cases hthr : b.threshold with
  | none => rfl
  | some old =>
    have hnot : low.blt old = false := by
      rw [← Bool.not_eq_true, PruneKey.blt_iff]
      exact not_lt.mpr (habove old hthr).le
    simp only [hnot, Bool.false_eq_true, if_false]
    rfl

theorem Tidy.turned_away (hb : b.Tidy span offered) (hcell : cell.Packs span more)
    (hfresh : ∀ c ∈ b.stock, c.category ≠ cell.category)
    (hmore : ∀ p, p ∈ more ↔ p ∈ offered ∨ p ∈ cell.steps)
    (hlex : (b.separateLexical && cell.hasLexicalStep) = false) :
    (b.withAside (cell :: b.setAside)).Tidy span more := by
  have haway := hb.consistent.turnAway hfresh hlex
  rw [turnAway_eq hb.order] at haway
  exact haway.tidy hb.rejected ((hb.stocks.cons hcell hfresh hmore).perm List.perm_middle.symm)

/-- When the competing cells are too many, those tied at the lowest key are set aside. -/
theorem Tidy.evictMinimumTies (hb : b.Tidy span offered) {kept : List (PruneKey S)}
    {key : PruneKey S} (hperm : (b.competing.map Cell.pruneKey).Perm (key :: kept))
    (haw : Awaits b.capacity key b.threshold kept (b.setAside.map Cell.pruneKey))
    (habove : ∀ t ∈ b.threshold, t < key) (hfull : b.capacity ≤ kept.length) :
    b.evictMinimumTies.1.Holds span offered ∧ b.Settings b.evictMinimumTies.1 := by
  have hne : b.competing.map Cell.pruneKey ≠ [] := fun h => by simp [h] at hperm
  obtain ⟨low, hlow, hmem, hmin⟩ := exists_lowest hne
  have habove_low : ∀ t ∈ b.threshold, t < low := by
    intro t ht
    rcases List.mem_cons.mp (hperm.mem_iff.mp hmem) with rfl | hm
    · exact habove t ht
    · rw [Option.mem_def.mp ht] at haw
      exact haw.1 low hm
  have hsift := sifted_evict hb.indexed hb.order fun c => c.pruneKey.beq low
  obtain ⟨htidy, hstay⟩ := hb.sifted hsift
  rw [evictMinimumTies_eq hlow habove_low]
  refine ⟨⟨htidy.withThreshold (some low), ?_⟩,
    hsift.settings.trans (settings_withThreshold _ _)⟩
  have hdiv := haw.overflow habove hfull (hperm.mem_iff.mp hmem)
    fun k hk => hmin k (hperm.mem_iff.mpr hk)
  show Divides (b.evict _).capacity (some low) ((b.evict _).competing.map Cell.pruneKey)
    ((b.evict _).setAside.map Cell.pruneKey)
  have hbeq (c : Cell S) : c.pruneKey.beq low = decide (c.pruneKey = low) := by
    rw [Bool.eq_iff_iff, PruneKey.beq_iff, decide_eq_true_eq]
  rw [hsift.settings.capacity]
  refine hdiv.perm ?_ ?_
  · refine ((hperm.symm.filter _).trans (.of_eq ?_)).trans (hstay.map Cell.pruneKey).symm
    simp [List.filter_map, Function.comp_def, hbeq]
  · refine .trans ?_ (hsift.setAside.map Cell.pruneKey).symm
    rw [List.map_append]
    refine ((hperm.symm.filter _).trans (.of_eq ?_)).append_right _
    simp [List.filter_map, Function.comp_def, hbeq]

theorem Tidy.accept_sheltered (hb : b.Tidy span offered) (hcell : cell.Packs span more)
    (hfresh : ∀ c ∈ b.stock, c.category ≠ cell.category)
    (hmore : ∀ p, p ∈ more ↔ p ∈ offered ∨ p ∈ cell.steps)
    (hlex : (b.separateLexical && cell.hasLexicalStep) = true) :
    (b.accept cell).1 = (b.insert cell true).1 ∧ (b.insert cell true).1.Tidy span more := by
  refine ⟨by rw [accept_of_lexical hlex], ?_⟩
  have := hb.insert hcell hfresh hmore
  rwa [hlex] at this

theorem Tidy.accept_bounded (hb : b.Tidy span offered) (hcell : cell.Packs span more)
    (hfresh : ∀ c ∈ b.stock, c.category ≠ cell.category)
    (hmore : ∀ p, p ∈ more ↔ p ∈ offered ∨ p ∈ cell.steps)
    (hlex : (b.separateLexical && cell.hasLexicalStep) = false)
    (haw : Awaits b.capacity cell.pruneKey b.threshold (b.competing.map Cell.pruneKey)
      (b.setAside.map Cell.pruneKey)) :
    (b.accept cell).1.Holds span more ∧ b.Settings (b.accept cell).1 := by
  unfold accept
  rw [hlex]
  simp only [Bool.false_eq_true, if_false]
  by_cases hthr : b.threshold.any cell.pruneKey.ble = true
  · obtain ⟨t, ht, hle⟩ := (Option.any_eq_true _ _).mp hthr
    rw [if_pos hthr, turnAway_eq hb.order]
    refine ⟨⟨hb.turned_away hcell hfresh hmore hlex, ?_⟩, b.settings_withAside _⟩
    show Divides b.capacity b.threshold _ _
    rw [ht] at haw ⊢
    exact haw.turned_away ((PruneKey.ble_iff _ _).mp hle)
  · have habove : ∀ t ∈ b.threshold, t < cell.pruneKey := by
      intro t ht
      rw [← not_le, ← PruneKey.ble_iff]
      exact fun hle => hthr ((Option.any_eq_true _ _).mpr ⟨t, ht, hle⟩)
    rw [if_neg hthr, hb.order]
    have htidy := hb.insert hcell hfresh hmore
    rw [hlex] at htidy
    have hcomp := b.competing_insert_perm cell false
    have hkeys := hcomp.map Cell.pruneKey
    have hnum : (b.insert cell false).1.numBounded = b.competing.length + 1 := by
      rw [htidy.indexed.numBounded_eq, hcomp.length_eq]
      rfl
    by_cases hfull : (b.insert cell false).1.capacity < (b.insert cell false).1.numBounded
    · simp only [hfull, if_true]
      have hlen : b.capacity ≤ (b.competing.map Cell.pruneKey).length := by
        rw [hnum] at hfull
        rw [List.length_map]
        exact Nat.lt_succ_iff.mp hfull
      obtain ⟨hholds, hset⟩ := htidy.evictMinimumTies hkeys haw habove hlen
      exact ⟨hholds, (b.settings_insert cell false).trans hset⟩
    · simp only [hfull, if_false]
      refine ⟨⟨htidy, ?_⟩, b.settings_insert cell false⟩
      have hroom : (b.competing.map Cell.pruneKey).length < b.capacity := by
        rw [hnum] at hfull
        rw [List.length_map]
        exact Nat.succ_le_iff.mp (not_lt.mp hfull)
      exact (haw.taken_in habove hroom).perm hkeys.symm (.refl _)

theorem mergeHeld_eq (ho : b.order = .orderInvariant) {key : Nat} {held : Held S} {m : Cell S}
    {changed : Bool} (hm : held.cell.merge cell = .ok (m, changed)) :
    b.mergeHeld key held cell =
      let lexical := b.separateLexical && !held.unbounded && m.hasLexicalStep
      let b' := b.replace key ⟨m, held.seq, held.unbounded || lexical⟩
        (if lexical then b.numBounded - 1 else b.numBounded)
      .ok (if lexical then b'.rebalance else b', .merged key changed) := by
  simp only [mergeHeld, hm, ho, reduceCtorEq, decide_false, decide_true, Bool.and_false,
    Bool.and_true, Bool.false_eq_true, if_false, replace]
  rfl

theorem Tidy.replace (hb : b.Tidy span offered) {key : Nat} {held : Held S} {m : Cell S} {seq : Nat}
    (hk : b.slots.get? key = some held) (hj : held.cell.Joins cell m)
    (hroot : ∀ p ∈ cell.steps, p.step.root = held.cell.category)
    (hmore : ∀ p, p ∈ more ↔ p ∈ offered ∨ p ∈ cell.steps) :
    let lexical := b.separateLexical && !held.unbounded && m.hasLexicalStep
    (b.replace key ⟨m, seq, held.unbounded || lexical⟩
      (if lexical then b.numBounded - 1 else b.numBounded)).Tidy span more := by
  intro lexical
  have hstock : Stocks span offered (held.cell :: (b.remove key).stock) := by
    refine hb.stocks.perm ?_
    rw [stock, stock, setAside_remove]
    exact ((entries_remove_perm hk).map (·.1)).append_right _
  have hlex : held.cell.hasLexicalStep = true → m.hasLexicalStep = true := fun h => by
    rw [hj.hasLexicalStep, h, Bool.true_or]
  refine (hb.consistent.replace hk hj.category hlex seq).tidy hb.rejected ?_
  have hnew := entries_replace_perm hk ⟨m, seq, held.unbounded || lexical⟩
    (if lexical then b.numBounded - 1 else b.numBounded)
  refine (hstock.join hj hroot hmore).perm ?_
  rw [stock, stock, setAside_remove]
  exact (hnew.map (·.1)).symm.append_right _

theorem Holds.mergeHeld (hb : b.Holds span offered) (hcell : cell.Fits span offered) {key : Nat}
    {held : Held S} (hk : b.slots.get? key = some held)
    (hcat : held.cell.category = cell.category) :
    ∃ b' admission, b.mergeHeld key held cell = .ok (b', admission) ∧
      b'.Holds span (offered ++ cell.steps) ∧ b.Settings b' := by
  have hheld : held.cell ∈ b.stock :=
    List.mem_append_left _ (List.mem_map.mpr ⟨_, mem_entries_iff.mpr ⟨key, held, hk, rfl⟩, rfl⟩)
  obtain ⟨m, changed, hm, hj⟩ := hcell.merge (hb.stocks.packs _ hheld) hcat.symm
  have htidy := @Tidy.replace _ _ _ _ _ (offered ++ cell.steps) _ hb.toTidy key held m held.seq hk
    hj
    (fun p hp => (hcell.packed.root p hp).trans hcat.symm) fun p => List.mem_append
  rw [mergeHeld_eq hb.order hm]
  refine ⟨_, _, rfl, ?_⟩
  cases hl : b.separateLexical && !held.unbounded && m.hasLexicalStep with
  | true =>
    rw [hl] at htidy
    obtain ⟨hholds, hset⟩ := htidy.rebalance
    exact ⟨hholds, (settings_replace ..).trans hset⟩
  | false =>
    rw [hl] at htidy
    refine ⟨⟨htidy, ?_⟩, settings_replace ..⟩
    have hnew := (competing_replace_perm hk ⟨m, held.seq, held.unbounded || false⟩
      b.numBounded).map Cell.pruneKey
    have hold := hb.divides.perm ((competing_remove_perm hk).map Cell.pruneKey) (.refl _)
    cases hu : held.unbounded with
    | true =>
      simp only [hu, Bool.or_false, if_true] at hnew hold
      exact hold.perm hnew.symm (.refl _)
    | false =>
      simp only [hu, Bool.or_false, Bool.false_eq_true, if_false, List.map_cons] at hnew hold
      exact (hold.raise hj.key_le).perm hnew.symm (.refl _)

theorem Holds.reconsider (hb : b.Holds span offered) (hcell : cell.Fits span offered)
    {previous : Cell S} (hmem : previous ∈ b.setAside) (hcat : previous.category = cell.category) :
    ∃ b' admission, b.reconsider previous cell = .ok (b', admission) ∧
      b'.Holds span (offered ++ cell.steps) ∧ b.Settings b' := by
  obtain ⟨m, changed, hm, hj⟩ :=
    hcell.merge (hb.stocks.packs _ (List.mem_append_right _ hmem)) hcat.symm
  -- all cells set aside but the one that is taken up again
  set rest := b.setAside.filter (·.category != cell.category)
  have haside : b.setAside.Perm (previous :: rest) :=
    perm_cons_filter (hb.stocks.apart.sublist ((List.sublist_append_right _ _).map _)) hmem hcat
  have hstock : Stocks span offered (previous :: (b.withAside rest).stock) :=
    hb.stocks.perm ((haside.append_left _).trans List.perm_middle)
  have htidy : (b.withAside rest).Tidy span
      (offered.filter (·.step.root ≠ previous.category)) :=
    ⟨hb.indexed.withAside rest, hb.order, hb.rejected, hstock.tail, hb.unbounded_iff,
      fun c hc => hb.aside_bounded c (List.mem_of_mem_filter hc)⟩
  have hpacks : m.Packs span (offered ++ cell.steps) :=
    (hstock.packs _ (.head _)).join hj
      (fun p hp => (hcell.packed.root p hp).trans hcat.symm) fun p => List.mem_append
  have hfresh : ∀ c ∈ (b.withAside rest).stock, c.category ≠ m.category := by
    intro c hc he
    exact (List.nodup_cons.mp hstock.apart).1
      (List.mem_map.mpr ⟨c, hc, he.trans hj.category⟩)
  have hmore : ∀ p, p ∈ offered ++ cell.steps ↔
      p ∈ offered.filter (·.step.root ≠ previous.category) ∨ p ∈ m.steps := by
    intro p
    have hheld := (hstock.packs _ (.head _)).mem_steps p
    rw [List.mem_append, hj.mem_steps, hheld, List.mem_filter, decide_eq_true_eq]
    tauto
  have hresult : b.reconsider previous cell =
      .ok (if ((b.withAside rest).accept m).1.separateLexical && m.hasLexicalStep then
          ((b.withAside rest).accept m).1.rebalance
        else ((b.withAside rest).accept m).1, ((b.withAside rest).accept m).2) := by
    simp only [Beam.reconsider, hm]
    rfl
  refine ⟨_, _, hresult, ?_⟩
  cases hlex : b.separateLexical && m.hasLexicalStep with
  | true =>
    obtain ⟨haccept, hinsert⟩ := htidy.accept_sheltered hpacks hfresh hmore hlex
    obtain ⟨hholds, hset⟩ := hinsert.rebalance
    have hif : (((b.withAside rest).insert m true).1.separateLexical && m.hasLexicalStep) = true :=
      hlex
    rw [haccept, if_pos hif]
    exact ⟨hholds, (b.settings_withAside rest).trans ((settings_insert ..).trans hset)⟩
  | false =>
    have haw := (hb.divides.perm (.refl _) (haside.map Cell.pruneKey)).awaits_of_le hj.key_le
    obtain ⟨hholds, hset⟩ := htidy.accept_bounded hpacks hfresh hmore hlex haw
    have hif : ¬ (((b.withAside rest).accept m).1.separateLexical && m.hasLexicalStep) = true := by
      rw [hset.separateLexical, Bool.not_eq_true]
      exact hlex
    rw [if_neg hif]
    exact ⟨hholds, (b.settings_withAside rest).trans hset⟩

/-- Offering a cell takes its steps in and keeps the invariant. -/
theorem Holds.offer (hb : b.Holds span offered) (hcell : cell.Fits span offered) :
    ∃ b' admission, b.offer cell = .ok (b', admission) ∧
      b'.Holds span (offered ++ cell.steps) ∧ b.Settings b' := by
  cases hb.indexed.meets cell with
  | held hk hcat hoffer =>
    rw [hoffer]
    exact hb.mergeHeld hcell hk hcat
  | aside hprevious hcat hoffer =>
    rw [hoffer]
    exact hb.reconsider hcell hprevious hcat
  | fresh hfresh hoffer =>
    have hpacks := hb.stocks.packs_fresh hcell.packed hcell.span_eq hfresh
    have hmore : ∀ p, p ∈ offered ++ cell.steps ↔ p ∈ offered ∨ p ∈ cell.steps :=
      fun p => List.mem_append
    refine ⟨(b.accept cell).1, (b.accept cell).2, hoffer, ?_⟩
    cases hlex : b.separateLexical && cell.hasLexicalStep with
    | true =>
      obtain ⟨haccept, htidy⟩ := hb.accept_sheltered hpacks hfresh hmore hlex
      rw [haccept]
      refine ⟨⟨htidy, ?_⟩, settings_insert ..⟩
      exact hb.divides.perm ((b.competing_insert_perm cell true).symm.map _) (.refl _)
    | false =>
      exact hb.accept_bounded hpacks hfresh hmore hlex (hb.divides.awaits _)

end Beam

end Categorial
