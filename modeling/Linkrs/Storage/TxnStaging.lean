import Linkrs.Core.Value
import Linkrs.Lib.EntryJournal
import Linkrs.Vertex.IdManager

namespace Linkrs

open EntryJournal List

abbrev LabelId := UInt32

abbrev PropertyRowList (α : Type) := List (String × Value α)

abbrev StagedKey := LabelId × IdKey

def maxTxnStagingKeys : ℕ := 2 ^ 20

-- Index maintenance that waits for the commit.
inductive StagedIndexOp (α : Type) where
  | insert (spaceId : UInt64) (vid : Value α) (tag : String) (properties : PropertyRowList α)
  | update (spaceId : UInt64) (vid : Value α) (tag : String) (properties : PropertyRowList α)
  | delete (spaceId : UInt64) (vid : Value α) (tag : String)

structure TxnStagingMark where
  journalLen : ℕ
  indexLen : ℕ
  deriving DecidableEq, Repr

-- A change of one of the maps, with what was there before.
inductive StagingUndoOp (α : Type) where
  | inserts (pair : StagedKey) (prev : Option (UInt32 × PropertyRowList α))
  | updates (pair : StagedKey) (prev : Option (PropertyRowList α))
  | deletes (pair : StagedKey) (prevPresent : Bool)
  | propertyDeletes (pair : StagedKey) (prev : Option (List String))

def StagingUndoOp.pair {α : Type} : StagingUndoOp α → StagedKey
  | inserts pair _ | updates pair _ | deletes pair _ | propertyDeletes pair _ => pair

-- The reservations that left the buffer and those that came back to it.
structure StagingRollback where
  released : Finset (LabelId × UInt32)
  reclaimed : Finset (LabelId × IdKey × UInt32)

structure StagedRows (α : Type) where
  inserts : Table StagedKey (UInt32 × PropertyRowList α)
  updates : Table StagedKey (PropertyRowList α)
  deletes : Finset StagedKey
  propertyDeletes : Table StagedKey (List String)

-- The cache of resolved keys and the write timestamp are left out.
structure TxnStaging (α : Type) extends StagedRows α where
  journal : List (StagingUndoOp α)
  indexOps : List (StagedIndexOp α)

namespace StagedRows

variable {α : Type}

def undo (rows : StagedRows α) : StagingUndoOp α → StagedRows α
  | .inserts pair prev => { rows with inserts := setEntry rows.inserts pair prev }
  | .updates pair prev => { rows with updates := setEntry rows.updates pair prev }
  | .deletes pair prevPresent => { rows with deletes := setMember rows.deletes pair prevPresent }
  | .propertyDeletes pair prev => { rows with propertyDeletes := setEntry rows.propertyDeletes pair prev }

def reservations (rows : StagedRows α) : Finset (LabelId × UInt32) :=
  (rows.inserts.entries.map fun entry => (entry.1.1, entry.2.1)).toFinset

end StagedRows

namespace TxnStaging

variable {α : Type} (s : TxnStaging α)

def new : TxnStaging α where
  inserts := ∅
  updates := ∅
  deletes := ∅
  propertyDeletes := ∅
  journal := []
  indexOps := []

def len : ℕ :=
  s.inserts.keys.card + s.updates.keys.card + s.deletes.card + s.propertyDeletes.keys.card

def countsAsNew (pair : StagedKey) : Bool :=
  pair ∉ s.inserts && pair ∉ s.updates && pair ∉ s.deletes && pair ∉ s.propertyDeletes

def ensureCapacity : StorageResult Unit :=
  if maxTxnStagingKeys ≤ s.len then
    .error ⟨.capacityExceeded, s!"transaction staging holds {s.len} rows at the limit {maxTxnStagingKeys}: " ++
      "commit or split the batch by label into smaller statements instead of growing one transaction"⟩
  else .ok ()

-- Only a key that has nothing staged yet needs room.
def checkBudget (pair : StagedKey) : StorageResult Unit :=
  if s.countsAsNew pair then s.ensureCapacity else .ok ()

-- Each change of a map is preceded by its journal entry.
def writeInserts (pair : StagedKey) (entry : Option (UInt32 × PropertyRowList α)) : TxnStaging α :=
  { s with
    inserts := setEntry s.inserts pair entry
    journal := s.journal ++ [.inserts pair (s.inserts.lookup pair)] }

def writeUpdates (pair : StagedKey) (entry : Option (PropertyRowList α)) : TxnStaging α :=
  { s with
    updates := setEntry s.updates pair entry
    journal := s.journal ++ [.updates pair (s.updates.lookup pair)] }

def writeDeletes (pair : StagedKey) (present : Bool) : TxnStaging α :=
  { s with
    deletes := setMember s.deletes pair present
    journal := s.journal ++ [.deletes pair (pair ∈ s.deletes)] }

def writePropertyDeletes (pair : StagedKey) (entry : Option (List String)) : TxnStaging α :=
  { s with
    propertyDeletes := setEntry s.propertyDeletes pair entry
    journal := s.journal ++ [.propertyDeletes pair (s.propertyDeletes.lookup pair)] }

-- The entries that are there already are taken out.
def dropUpdates (pair : StagedKey) : TxnStaging α :=
  if pair ∈ s.updates then s.writeUpdates pair none else s

def dropPropertyDeletes (pair : StagedKey) : TxnStaging α :=
  if pair ∈ s.propertyDeletes then s.writePropertyDeletes pair none else s

-- Columns that are given a value again are no longer deleted. An empty list is not kept.
def prunePropertyDeletes (pair : StagedKey) (names : List String) : TxnStaging α :=
  match s.propertyDeletes.lookup pair with
  | none => s
  | some deleted =>
    let kept := deleted.filter (· ∉ names)
    s.writePropertyDeletes pair (if kept = [] then none else some kept)

end TxnStaging

-- A column keeps its place, and a new one is added at the end.
def applyStagedColumn {α : Type} (row : PropertyRowList α) (column : String × Value α) : PropertyRowList α :=
  match row with
  | [] => [column]
  | slot :: row => if slot.1 = column.1 then (slot.1, column.2) :: row else slot :: applyStagedColumn row column

def applyStagedColumns {α : Type} (properties columns : PropertyRowList α) : PropertyRowList α :=
  columns.foldl applyStagedColumn properties

def applyStagedPropertyDeletes {α : Type} (properties : PropertyRowList α) (deleted : List String) :
    PropertyRowList α :=
  properties.filter (·.1 ∉ deleted)

namespace TxnStaging

variable {α : Type} (s : TxnStaging α)

-- Updates of columns that are deleted are taken out.
def pruneUpdates (pair : StagedKey) (names : List String) : TxnStaging α :=
  match s.updates.lookup pair with
  | none => s
  | some staged =>
    let kept := applyStagedPropertyDeletes staged names
    s.writeUpdates pair (if kept = [] then none else some kept)

def stageInsert (pair : StagedKey) (reserved : UInt32) (properties : PropertyRowList α) :
    StorageResult (Option UInt32) × TxnStaging α :=
  match s.checkBudget pair with
  | .error e => (.error e, s)
  | .ok () =>
    if pair ∈ s.deletes then
      -- The row that is there already is updated. The reservation is not used.
      (.ok (some reserved), ((s.writeDeletes pair false).dropPropertyDeletes pair).writeUpdates pair (some properties))
    else
      let superseded := ((s.inserts.lookup pair).filter (·.1 ≠ reserved)).map (·.1)
      (.ok superseded, s.writeInserts pair (some (reserved, properties)))

def stageUpdate (pair : StagedKey) (columns : PropertyRowList α) : StorageResult Unit × TxnStaging α :=
  match s.inserts.lookup pair with
  | some (reserved, row) =>
    let row := applyStagedColumns row columns
    (.ok (), (s.writeInserts pair (some (reserved, row))).prunePropertyDeletes pair (row.map (·.1)))
  | none =>
    match s.checkBudget pair with
    | .error e => (.error e, s)
    | .ok () =>
      let s := s.prunePropertyDeletes pair (columns.map (·.1))
      (.ok (), s.writeUpdates pair (some ((s.updates.lookup pair).getD [] ++ columns)))

def stagePropertyDelete (pair : StagedKey) (columns : List String) : StorageResult Unit × TxnStaging α :=
  if columns = [] then (.ok (), s) else
  match s.inserts.lookup pair with
  | some (reserved, row) =>
    (.ok (), (s.writeInserts pair (some (reserved, applyStagedPropertyDeletes row columns))).prunePropertyDeletes
      pair columns)
  | none =>
    match s.checkBudget pair with
    | .error e => (.error e, s)
    | .ok () =>
      let s := s.pruneUpdates pair columns
      let entry := columns.foldl (fun entry name => if name ∈ entry then entry else entry ++ [name])
        ((s.propertyDeletes.lookup pair).getD [])
      (.ok (), s.writePropertyDeletes pair (some entry))

-- Earlier updates and column deletions are gone even if there is no room for the delete.
def stageDelete (pair : StagedKey) : StorageResult (Option UInt32) × TxnStaging α :=
  match s.inserts.lookup pair with
  | some (reserved, _) =>
    (.ok (some reserved), ((s.writeInserts pair none).dropUpdates pair).dropPropertyDeletes pair)
  | none =>
    let s := (s.dropUpdates pair).dropPropertyDeletes pair
    match if pair ∈ s.deletes then .ok () else s.ensureCapacity with
    | .error e => (.error e, s)
    | .ok () => (.ok none, s.writeDeletes pair true)

def stageIndexOp (op : StagedIndexOp α) : TxnStaging α :=
  { s with indexOps := s.indexOps ++ [op] }

def mark : TxnStagingMark :=
  ⟨s.journal.length, s.indexOps.length⟩

def rollbackTo (mark : TxnStagingMark) : StagingRollback × TxnStaging α :=
  let before := s.reservations
  let rows := rewind StagedRows.undo s.toStagedRows (s.journal.drop mark.journalLen)
  let after := rows.reservations
  let reclaimed := (rows.inserts.entries.filter fun entry => (entry.1.1, entry.2.1) ∉ before).map
    fun entry => (entry.1.1, entry.1.2, entry.2.1)
  (⟨before \ after, reclaimed.toFinset⟩,
    { toStagedRows := rows
      journal := s.journal.take mark.journalLen
      indexOps := s.indexOps.take mark.indexLen })

end TxnStaging

inductive StagingCall (α : Type) where
  | stageInsert (pair : StagedKey) (reserved : UInt32) (properties : PropertyRowList α)
  | stageUpdate (pair : StagedKey) (columns : PropertyRowList α)
  | stagePropertyDelete (pair : StagedKey) (columns : List String)
  | stageDelete (pair : StagedKey)
  | stageIndexOp (op : StagedIndexOp α)

def StagingCall.pair? {α : Type} : StagingCall α → Option StagedKey
  | stageInsert pair _ _ | stageUpdate pair _ | stagePropertyDelete pair _ | stageDelete pair => some pair
  | stageIndexOp _ => none

namespace TxnStaging

variable {α : Type} {s s' s'' : TxnStaging α} {pair : StagedKey}

def call (s : TxnStaging α) : StagingCall α → TxnStaging α
  | .stageInsert pair reserved properties => (s.stageInsert pair reserved properties).2
  | .stageUpdate pair columns => (s.stageUpdate pair columns).2
  | .stagePropertyDelete pair columns => (s.stagePropertyDelete pair columns).2
  | .stageDelete pair => (s.stageDelete pair).2
  | .stageIndexOp op => s.stageIndexOp op

-- What was journalled since `s` takes the buffer back to it, and it is about some of the keys only.
structure Extends (P : StagedKey → Prop) (s s' : TxnStaging α) : Prop where
  journal : ∃ ops, s'.journal = s.journal ++ ops ∧ (∀ op ∈ ops, P op.pair) ∧
    rewind StagedRows.undo s'.toStagedRows ops = s.toStagedRows
  indexOps : s.indexOps <+: s'.indexOps

namespace Extends

variable {P Q : StagedKey → Prop}

theorem refl : Extends P s s :=
  ⟨⟨[], (append_nil _).symm, nofun, rfl⟩, prefix_rfl⟩

theorem trans (h : Extends P s s') (h' : Extends P s' s'') : Extends P s s'' := by
  have ⟨ops, hj, hp, hr⟩ := h.journal
  have ⟨ops', hj', hp', hr'⟩ := h'.journal
  refine ⟨⟨ops ++ ops', by rw [hj', hj, append_assoc], ?_, ?_⟩, h.indexOps.trans h'.indexOps⟩
  · exact forall_mem_append.mpr ⟨hp, hp'⟩
  · rw [rewind_append, hr', hr]

theorem mono (h : Extends P s s') (hpq : ∀ pair, P pair → Q pair) : Extends Q s s' := by
  have ⟨ops, hj, hp, hr⟩ := h.journal
  exact ⟨⟨ops, hj, fun op hop => hpq _ (hp op hop), hr⟩, h.indexOps⟩

theorem of_undo (hj : s'.journal = s.journal ++ [op]) (hp : op.pair = pair)
    (hr : s'.toStagedRows.undo op = s.toStagedRows) (hi : s'.indexOps = s.indexOps) : Extends (· = pair) s s' :=
  ⟨⟨[op], hj, forall_mem_singleton.mpr hp, hr⟩, hi ▸ prefix_rfl⟩

theorem writeInserts (entry : Option (UInt32 × PropertyRowList α)) :
    Extends (· = pair) s (s.writeInserts pair entry) := by
  refine .of_undo rfl rfl ?_ rfl
  simp [StagedRows.undo, TxnStaging.writeInserts, setEntry_lookup]

theorem writeUpdates (entry : Option (PropertyRowList α)) : Extends (· = pair) s (s.writeUpdates pair entry) := by
  refine .of_undo rfl rfl ?_ rfl
  simp [StagedRows.undo, TxnStaging.writeUpdates, setEntry_lookup]

theorem writeDeletes (present : Bool) : Extends (· = pair) s (s.writeDeletes pair present) := by
  refine .of_undo rfl rfl ?_ rfl
  simp [StagedRows.undo, TxnStaging.writeDeletes, setMember_mem]

theorem writePropertyDeletes (entry : Option (List String)) :
    Extends (· = pair) s (s.writePropertyDeletes pair entry) := by
  refine .of_undo rfl rfl ?_ rfl
  simp [StagedRows.undo, TxnStaging.writePropertyDeletes, setEntry_lookup]

theorem dropUpdates : Extends (· = pair) s (s.dropUpdates pair) := by
  unfold TxnStaging.dropUpdates
  split
  case isTrue => exact writeUpdates none
  case isFalse => exact refl

theorem dropPropertyDeletes : Extends (· = pair) s (s.dropPropertyDeletes pair) := by
  unfold TxnStaging.dropPropertyDeletes
  split
  case isTrue => exact writePropertyDeletes none
  case isFalse => exact refl

theorem prunePropertyDeletes (names : List String) : Extends (· = pair) s (s.prunePropertyDeletes pair names) := by
  unfold TxnStaging.prunePropertyDeletes
  split
  case h_1 => exact refl
  case h_2 => exact writePropertyDeletes _

theorem pruneUpdates (names : List String) : Extends (· = pair) s (s.pruneUpdates pair names) := by
  unfold TxnStaging.pruneUpdates
  split
  case h_1 => exact refl
  case h_2 => exact writeUpdates _

end Extends

theorem extends_stageInsert (reserved : UInt32) (properties : PropertyRowList α) :
    Extends (· = pair) s (s.stageInsert pair reserved properties).2 := by
  unfold stageInsert
  split
  case h_1 => exact .refl
  case h_2 =>
    split
    case isTrue => exact ((Extends.writeDeletes false).trans .dropPropertyDeletes).trans (.writeUpdates _)
    case isFalse => exact .writeInserts _

theorem extends_stageUpdate (columns : PropertyRowList α) : Extends (· = pair) s (s.stageUpdate pair columns).2 := by
  unfold stageUpdate
  split
  case h_1 => exact (Extends.writeInserts _).trans (.prunePropertyDeletes _)
  case h_2 =>
    split
    case h_1 => exact .refl
    case h_2 => exact (Extends.prunePropertyDeletes _).trans (.writeUpdates _)

theorem extends_stagePropertyDelete (columns : List String) :
    Extends (· = pair) s (s.stagePropertyDelete pair columns).2 := by
  unfold stagePropertyDelete
  split
  case isTrue => exact .refl
  case isFalse =>
    split
    case h_1 => exact (Extends.writeInserts _).trans (.prunePropertyDeletes _)
    case h_2 =>
      split
      case h_1 => exact .refl
      case h_2 => exact (Extends.pruneUpdates _).trans (.writePropertyDeletes _)

theorem extends_stageDelete : Extends (· = pair) s (s.stageDelete pair).2 := by
  unfold stageDelete
  split
  case h_1 => exact ((Extends.writeInserts none).trans .dropUpdates).trans .dropPropertyDeletes
  case h_2 =>
    have hdrop : Extends (· = pair) s ((s.dropUpdates pair).dropPropertyDeletes pair) :=
      Extends.dropUpdates.trans .dropPropertyDeletes
    simp only
    split
    case h_1 => exact hdrop
    case h_2 => exact hdrop.trans (.writeDeletes true)

theorem extends_call (c : StagingCall α) : Extends (c.pair? = some ·) s (s.call c) := by
  cases c with
  | stageInsert pair reserved properties => exact (extends_stageInsert reserved properties).mono fun _ h => h ▸ rfl
  | stageUpdate pair columns => exact (extends_stageUpdate columns).mono fun _ h => h ▸ rfl
  | stagePropertyDelete pair columns => exact (extends_stagePropertyDelete columns).mono fun _ h => h ▸ rfl
  | stageDelete pair => exact extends_stageDelete.mono fun _ h => h ▸ rfl
  | stageIndexOp op => exact ⟨⟨[], (append_nil _).symm, nofun, rfl⟩, prefix_append _ _⟩

theorem extends_calls (calls : List (StagingCall α)) : Extends (fun _ => True) s (calls.foldl call s) := by
  induction calls generalizing s with
  | nil => exact .refl
  | cons c calls ind => exact ((extends_call c).mono fun _ _ => trivial).trans ind

-- A reservation that a staged row holds.
def Holds (s : TxnStaging α) (label : LabelId) (id : UInt32) : Prop :=
  ∃ key properties, s.inserts.lookup (label, key) = some (id, properties)

theorem mem_reservations {id : UInt32} : (label, id) ∈ s.reservations ↔ s.Holds label id := by
  simp only [StagedRows.reservations, Multiset.mem_toFinset, Multiset.mem_map, Holds]
  constructor
  · rintro ⟨⟨⟨_, key⟩, _, properties⟩, hmem, heq⟩
    cases heq
    exact ⟨key, properties, Finmap.mem_lookup_iff.mpr hmem⟩
  · rintro ⟨key, properties, h⟩
    exact ⟨⟨(label, key), (id, properties)⟩, Finmap.mem_lookup_iff.mp h, rfl⟩

theorem mem_reclaimed {id : UInt32} {before : Finset (LabelId × UInt32)} :
    (label, key, id) ∈ ((s.inserts.entries.filter fun entry => (entry.1.1, entry.2.1) ∉ before).map
      fun entry => (entry.1.1, entry.1.2, entry.2.1)).toFinset ↔
    (∃ properties, s.inserts.lookup (label, key) = some (id, properties)) ∧ (label, id) ∉ before := by
  simp only [Multiset.mem_toFinset, Multiset.mem_map, Multiset.mem_filter]
  constructor
  · rintro ⟨⟨⟨_, _⟩, _, properties⟩, ⟨hmem, hbefore⟩, heq⟩
    cases heq
    exact ⟨⟨properties, Finmap.mem_lookup_iff.mpr hmem⟩, hbefore⟩
  · rintro ⟨⟨properties, h⟩, hbefore⟩
    exact ⟨⟨(label, key), (id, properties)⟩, ⟨Finmap.mem_lookup_iff.mp h, hbefore⟩, rfl⟩

-- A rollback undoes whatever calls came after the mark, and it settles the reservations between the
-- two states.
theorem rollbackTo_mark (s : TxnStaging α) (calls : List (StagingCall α)) :
    let s' := calls.foldl call s
    let (rollback, back) := s'.rollbackTo s.mark
    back = s ∧ (∀ label id, (label, id) ∈ rollback.released ↔ s'.Holds label id ∧ ¬back.Holds label id) ∧
    (∀ label key id, (label, key, id) ∈ rollback.reclaimed ↔
      (∃ properties, back.inserts.lookup (label, key) = some (id, properties)) ∧ ¬s'.Holds label id) := by
  intro s'
  have ⟨⟨ops, hjournal, _, hrows⟩, ⟨more, hmore⟩⟩ : Extends (fun _ => True) s s' := extends_calls calls
  have hrewind : rewind StagedRows.undo s'.toStagedRows (s'.journal.drop s.mark.journalLen) = s.toStagedRows := by
    rw [hjournal, mark, drop_left, hrows]
  have hback : (s'.rollbackTo s.mark).2 = s := by
    simp only [rollbackTo, hrewind]
    rw [hjournal, ← hmore, mark, take_left, take_left]
  refine ⟨hback, fun label id => ?_, fun label key id => ?_⟩
  · show _ ↔ s'.Holds label id ∧ ¬(s'.rollbackTo s.mark).2.Holds label id
    rw [hback, hrewind, Finset.mem_sdiff, mem_reservations, mem_reservations]
  · show _ ↔ (∃ properties, (s'.rollbackTo s.mark).2.inserts.lookup (label, key) = some (id, properties)) ∧ _
    rw [hback, hrewind, mem_reclaimed, mem_reservations]

end TxnStaging

end Linkrs
