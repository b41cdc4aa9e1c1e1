import Std.Data.HashMap
import Categorial.Chart.Cell
import Categorial.Chart.Slots

/-! # Beams

A beam is a bounded set of cells of one span with at most one cell per category. When ties are not
broken, a cell that is turned away is set aside and still takes in later steps of its category. It
comes back once it is good enough, so that the kept cells are those that a beam over the fully
merged cells would keep.
-/

namespace Categorial

/-- How a full beam decides what to drop. -/
inductive PruneOrder where
  /-- All cells tied at the minimum go, and what comes later has to be better than they were. -/
  | orderInvariant
  /-- One cell at the minimum goes, the one that came last. -/
  | insertionOrder
  deriving DecidableEq, Repr

/-- What became of a cell that was offered. -/
inductive Admission where
  | inserted (key : Nat)
  | merged (key : Nat) (viterbiChanged : Bool)
  | rejected
  deriving DecidableEq, Repr

/-- A cell with its time of arrival. An unbounded cell does not count against the capacity. -/
structure Held (S : Type) where
  cell : Cell S
  seq : Nat
  unbounded : Bool

structure Beam (S : Type) where
  slots : Slots (Held S)
  /-- The key of each held category. -/
  index : Std.HashMap Category Nat
  setAside : List (Cell S)
  capacity : Nat
  order : PruneOrder
  /-- Lexical cells are kept outside the bound. -/
  separateLexical : Bool
  numBounded : Nat
  /-- Cells at or below this key are turned away. -/
  threshold : Option (PruneKey S)
  rejected : Bool
  externallyPruned : Bool
  nextSeq : Nat

namespace Beam

variable {S : Type} [Scalar S]

def empty (capacity : Nat) (order : PruneOrder) (separateLexical : Bool) : Beam S :=
  { slots := .empty, index := ∅, setAside := [], capacity, order, separateLexical
    numBounded := 0, threshold := none, rejected := false, externallyPruned := false, nextSeq := 0 }

/-- An empty beam that has room for something. -/
def new (capacity : Nat) (order : PruneOrder) (separateLexical : Bool) : Except Fault (Beam S) :=
  if capacity = 0 then .error .noCapacity else .ok (empty capacity order separateLexical)

def cells (b : Beam S) : List (Nat × Cell S) :=
  b.slots.toList.map fun (key, held) => (key, held.cell)

def keys (b : Beam S) : List Nat :=
  b.slots.toList.map (·.1)

def size (b : Beam S) : Nat :=
  b.slots.size

def cell? (b : Beam S) (key : Nat) : Option (Cell S) :=
  (b.slots.get? key).map (·.cell)

def find? (b : Beam S) (category : Category) : Option (Nat × Cell S) := do
  let key ← b.index[category]?
  let cell ← b.cell? key
  some (key, cell)

/-- Whether a cell is missing because of the bound, or the beam was marked. A cell that was set
aside and came back does not count. -/
def isPruned (b : Beam S) : Bool :=
  b.rejected || b.externallyPruned || !b.setAside.isEmpty

def hasThreshold (b : Beam S) : Bool :=
  b.threshold.isSome

def markPruned (b : Beam S) : Beam S :=
  { b with externallyPruned := true }

/-- Forgets the cells set aside once nothing more will be offered. -/
def close (b : Beam S) : Beam S :=
  { b with rejected := b.rejected || !b.setAside.isEmpty, setAside := [] }

/-- The keys and cells that count against the capacity. -/
def bounded (b : Beam S) : List (Nat × Held S) :=
  b.slots.toList.filter (!·.2.unbounded)

def insert (b : Beam S) (cell : Cell S) (unbounded : Bool) : Beam S × Nat :=
  let seq := b.nextSeq + 1
  let key := b.slots.nextKey
  ({ b with
      slots := b.slots.insert ⟨cell, seq, unbounded⟩
      index := b.index.insert cell.category key
      numBounded := if unbounded then b.numBounded else b.numBounded + 1
      nextSeq := seq },
    key)

def remove (b : Beam S) (key : Nat) : Beam S :=
  match b.slots.get? key with
  | some held =>
    { b with
      slots := b.slots.erase key
      index := b.index.erase held.cell.category
      numBounded := if held.unbounded then b.numBounded else b.numBounded - 1 }
  | none => b

/-- Sets a cell aside that lost its place, or forgets it when ties break by arrival. -/
def turnAway (b : Beam S) (cell : Cell S) : Beam S :=
  match b.order with
  | .orderInvariant => { b with setAside := cell :: b.setAside }
  | .insertionOrder => { b with rejected := true }

/-- Removes held cells and turns them away. -/
def evict (b : Beam S) (losers : List (Nat × Held S)) : Beam S :=
  losers.foldl (fun b (key, held) => (b.remove key).turnAway held.cell) b

def lowest? (keys : List (PruneKey S)) : Option (PruneKey S) :=
  match keys with
  | [] => none
  | key :: rest => some (rest.foldl (fun low k => if k.blt low then k else low) key)

/-- Drops every bounded cell tied at the lowest key, makes that key the threshold, and returns the
slots that were freed. -/
def evictMinimumTies (b : Beam S) : Beam S × List Nat :=
  match lowest? (b.bounded.map (·.2.cell.pruneKey)) with
  | none => (b, [])
  | some low =>
    let losers := b.bounded.filter (·.2.cell.pruneKey.beq low)
    let threshold := match b.threshold with
      | some old => if low.blt old then old else low
      | none => low
    ({ b.evict losers with threshold := some threshold }, losers.map (·.1))

/-- Builds the bounded part again from all bounded candidates so far. A cell that joins the lexical
part can leave room that an earlier eviction took away. -/
def rebalance (b : Beam S) : Beam S :=
  let scores := b.bounded.map (·.2.cell.pruneKey) ++ b.setAside.map Cell.pruneKey
  let b := { b with threshold := (scores.mergeSort fun x y => y.ble x)[b.capacity]? }
  match b.threshold with
  | none =>
    b.setAside.foldl (fun b cell => (b.insert cell false).1) { b with setAside := [] }
  | some threshold =>
    let b := b.evict (b.bounded.filter (·.2.cell.pruneKey.ble threshold))
    let (winners, losers) := b.setAside.partition (threshold.blt ·.pruneKey)
    winners.foldl (fun b cell => (b.insert cell false).1) { b with setAside := losers }

/-- The bounded cell that would go first: lowest key, latest arrival. -/
def latestMinimum? (b : Beam S) : Option (Nat × Held S) :=
  match b.bounded with
  | [] => none
  | first :: rest =>
    some (rest.foldl
      (fun low x =>
        let cmp := (x.2.cell.pruneKey.cmp low.2.cell.pruneKey).then (compare low.2.seq x.2.seq)
        if cmp == .lt then x else low)
      first)

/-- Takes in a cell of a category that is neither held nor set aside, if the bound allows it. -/
def accept (b : Beam S) (cell : Cell S) : Beam S × Admission :=
  if b.separateLexical && cell.hasLexicalStep then
    let (b, key) := b.insert cell true
    (b, .inserted key)
  else if b.threshold.any cell.pruneKey.ble then
    (b.turnAway cell, .rejected)
  else
    match b.order with
    | .orderInvariant =>
      let (b, key) := b.insert cell false
      if b.capacity < b.numBounded then
        let (b, evicted) := b.evictMinimumTies
        (b, if evicted.contains key then .rejected else .inserted key)
      else (b, .inserted key)
    | .insertionOrder =>
      if b.numBounded < b.capacity then
        let (b, key) := b.insert cell false
        (b, .inserted key)
      else
        match b.latestMinimum? with
        | some (low, held) =>
          if held.cell.pruneKey.blt cell.pruneKey then
            let (b, key) := { b.remove low with rejected := true }.insert cell false
            (b, .inserted key)
          else ({ b with rejected := true }, .rejected)
        | none => ({ b with rejected := true }, .rejected)

/-- Merges a cell into the held cell at `key`. -/
def mergeHeld (b : Beam S) (key : Nat) (held : Held S) (cell : Cell S) :
    Except Fault (Beam S × Admission) := do
  let (merged, changed) ← held.cell.merge cell
  let becameLexical := b.separateLexical && !held.unbounded && merged.hasLexicalStep
  let renewed := changed && b.order = .insertionOrder
  let seq := if renewed then b.nextSeq + 1 else held.seq
  let b := { b with
    slots := b.slots.modify key fun _ => ⟨merged, seq, held.unbounded || becameLexical⟩
    numBounded := if becameLexical then b.numBounded - 1 else b.numBounded
    nextSeq := if renewed then b.nextSeq + 1 else b.nextSeq }
  let b := if becameLexical && b.order = .orderInvariant then b.rebalance else b
  .ok (b, .merged key changed)

/-- Merges a cell with the one set aside for its category and tries again to take that in. -/
def reconsider (b : Beam S) (previous cell : Cell S) : Except Fault (Beam S × Admission) := do
  let (merged, _) ← previous.merge cell
  let setAside := b.setAside.filter (·.category != cell.category)
  let (b, admission) := { b with setAside }.accept merged
  .ok (if b.separateLexical && merged.hasLexicalStep then b.rebalance else b, admission)

/-- Merges a cell into the one of its category, or takes it in if the bound allows it. -/
def offer (b : Beam S) (cell : Cell S) : Except Fault (Beam S × Admission) :=
  match b.index[cell.category]? with
  | some key =>
    match b.slots.get? key with
    | some held => b.mergeHeld key held cell
    | none => .ok (b.accept cell)
  | none =>
    match b.setAside.find? (·.category == cell.category) with
    | some previous => b.reconsider previous cell
    | none => .ok (b.accept cell)

def offerAll (b : Beam S) (cells : List (Cell S)) : Except Fault (Beam S) :=
  cells.foldlM (fun b cell => (·.1) <$> b.offer cell) b

end Beam

end Categorial
