import Linkrs.Core.Ids
import Linkrs.Lib.KeyOrder
import Linkrs.Storage.TxnStaging
import Mathlib.Data.List.DropRight

namespace Linkrs

open EntryJournal List Option

-- The external id of a key. Negative numbers and long texts are not ids.
def vidOfKey : IdKey → Option VertexId
  | .int id => if 0 ≤ id then some ⟨.int, Bytes.be 8 id.toInt.toNat, by simp⟩ else none
  | .text id =>
    if h : id.toUTF8.data.toList.length ≤ 32 then
      some ⟨if id.toUTF8.data.toList = [] then .empty else .text, id.toUTF8.data.toList, h⟩
    else none

structure VertexRecord (α : Type) where
  internalId : UInt32
  vid : VertexId
  properties : PropertyRowList α

namespace TxnStaging

variable {α : Type} (s : TxnStaging α)

-- What a transaction reads of a row, from the committed record and its own staged changes.
def composeFullRecord (pair : StagedKey) (global : Option (VertexRecord α)) : Option (VertexRecord α) :=
  let composed : Option (Option (UInt32 × PropertyRowList α)) :=
    if pair ∈ s.deletes then some none
    else match s.inserts.lookup pair with
      | some (reserved, properties) => some (some (reserved, properties))
      | none =>
        if pair ∈ s.updates ∨ pair ∈ s.propertyDeletes then
          some <| global.map fun record =>
            let merged := (s.updates.lookup pair).elim record.properties (applyStagedColumns record.properties)
            (record.internalId, (s.propertyDeletes.lookup pair).elim merged (applyStagedPropertyDeletes merged))
        else none
  match composed with
  | none => global
  | some composed => do
    let (internalId, properties) ← composed
    return ⟨internalId, ← vidOfKey pair.2, properties⟩

-- The entry points of online writes look for the row in the buffer first and then in the table.
def checkLive (pair : StagedKey) (internalId : Option UInt32) : StorageResult Unit :=
  if pair ∈ s.inserts then .ok ()
  else if pair ∈ s.deletes then .error .vertexNotFound
  else match internalId with
    | none => .error .vertexNotFound
    | some _ => .ok ()

def stageVertexUpdate (prepare : PropertyRowList α → StorageResult (PropertyRowList α)) (pair : StagedKey)
    (internalId : Option UInt32) (columns : PropertyRowList α) : StorageResult Unit × TxnStaging α :=
  match prepare columns with
  | .error e => (.error e, s)
  | .ok columns =>
    match s.checkLive pair internalId with
    | .error e => (.error e, s)
    | .ok () => s.stageUpdate pair columns

def stageVertexPropertyDelete (pair : StagedKey) (internalId : Option UInt32) (column : String) :
    StorageResult Unit × TxnStaging α :=
  match s.checkLive pair internalId with
  | .error e => (.error e, s)
  | .ok () => s.stagePropertyDelete pair [column]

-- The reservation of a cancelled insert is given back by the caller.
def stageVertexDelete (pair : StagedKey) (internalId : Option UInt32) :
    StorageResult (Option UInt32) × TxnStaging α :=
  match s.checkLive pair internalId with
  | .error e => (.error e, s)
  | .ok () => s.stageDelete pair

end TxnStaging

structure StagedSlot (α : Type) where
  insert : Option (UInt32 × PropertyRowList α)
  update : Option (PropertyRowList α)
  deleted : Bool
  propertyDeletes : Option (List String)

inductive RowOp (α : Type) where
  | insert (reserved : UInt32) (properties : PropertyRowList α)
  | update (columns : PropertyRowList α)
  | propertyDelete (columns : List String)
  | delete

namespace RowOp

variable {α : Type}

-- The columns that an operation gives a value or takes the value from.
def names : RowOp α → List String
  | insert _ properties => properties.map (·.1)
  | update columns => columns.map (·.1)
  | propertyDelete columns => columns
  | delete => []

def isDelete : RowOp α → Bool
  | delete => true
  | _ => false

-- An operation on the row itself, seen as a function from columns to values. Inserts want a row that
-- does not exist, and everything else wants one that does.
def exec (row : Option (String → Option (Value α))) : RowOp α → Option (Option (String → Option (Value α)))
  | insert _ properties => if row.isNone then some (some fun name => properties.lookup name) else none
  | update columns => row.map fun f => some fun name => (columns.reverse.lookup name).or (f name)
  | propertyDelete columns => row.map fun f => some fun name => if name ∈ columns then none else f name
  | delete => row.map fun _ => none

end RowOp

section

variable {α : Type} (row : PropertyRowList α)

theorem lookup_applyStagedColumn (column : String × Value α) (name : String) :
    (applyStagedColumn row column).lookup name = if name = column.1 then some column.2 else row.lookup name := by
  induction row with
  | nil => grind [applyStagedColumn]
  | cons slot row ind => grind [applyStagedColumn]

theorem lookup_applyStagedColumns (columns : PropertyRowList α) (name : String) :
    (applyStagedColumns row columns).lookup name = (columns.reverse.lookup name).or (row.lookup name) := by
  unfold applyStagedColumns
  induction columns generalizing row with
  | nil => rfl
  | cons column columns ind =>
    rw [foldl_cons, ind, lookup_applyStagedColumn, reverse_cons, lookup_append, Option.or_assoc]
    obtain ⟨column, value⟩ := column
    by_cases h : name = column
    · simp [h]
    · have hne : (name == column) = false := beq_eq_false_iff_ne.mpr h
      simp [h, lookup_cons, hne]

theorem lookup_applyStagedPropertyDeletes (deleted : List String) (name : String) :
    (applyStagedPropertyDeletes row deleted).lookup name = if name ∈ deleted then none else row.lookup name := by
  unfold applyStagedPropertyDeletes
  induction row with
  | nil => simp
  | cons slot row ind => grind

end

namespace StagedSlot

variable {α : Type} (slot : StagedSlot α)

def empty : StagedSlot α where
  insert := none
  update := none
  deleted := false
  propertyDeletes := none

-- Lists that have become empty are not kept.
def prune (deleted : Option (List String)) (names : List String) : Option (List String) :=
  deleted.bind fun deleted =>
    let kept := deleted.filter (· ∉ names)
    if kept = [] then none else some kept

def pruneColumns (update : Option (PropertyRowList α)) (names : List String) : Option (PropertyRowList α) :=
  update.bind fun staged =>
    let kept := applyStagedPropertyDeletes staged names
    if kept = [] then none else some kept

-- What an operation that is accepted does to the slot of its key.
def stage : RowOp α → StagedSlot α
  | .insert reserved properties =>
    if slot.deleted then { insert := slot.insert, update := some properties, deleted := false, propertyDeletes := none }
    else { slot with insert := some (reserved, properties) }
  | .update columns =>
    match slot.insert with
    | some (reserved, row) =>
      let row := applyStagedColumns row columns
      { slot with
        insert := some (reserved, row)
        propertyDeletes := prune slot.propertyDeletes (row.map (·.1)) }
    | none =>
      { slot with
        update := some (slot.update.getD [] ++ columns)
        propertyDeletes := prune slot.propertyDeletes (columns.map (·.1)) }
  | .propertyDelete columns =>
    if columns = [] then slot else
    match slot.insert with
    | some (reserved, row) =>
      { slot with
        insert := some (reserved, applyStagedPropertyDeletes row columns)
        propertyDeletes := prune slot.propertyDeletes columns }
    | none =>
      { slot with
        update := pruneColumns slot.update columns
        propertyDeletes := some <| columns.foldl (fun entry name => if name ∈ entry then entry else entry ++ [name])
          (slot.propertyDeletes.getD []) }
  | .delete =>
    match slot.insert with
    | some _ => { slot with insert := none, update := none, propertyDeletes := none }
    | none => { slot with update := none, propertyDeletes := none, deleted := true }

end StagedSlot

namespace StagedRows

variable {α : Type}

def slot (rows : StagedRows α) (pair : StagedKey) : StagedSlot α where
  insert := rows.inserts.lookup pair
  update := rows.updates.lookup pair
  deleted := pair ∈ rows.deletes
  propertyDeletes := rows.propertyDeletes.lookup pair

variable {rows : StagedRows α} {pair : StagedKey}

theorem slot_congr {rows' : StagedRows α} (hi : rows'.inserts.lookup pair = rows.inserts.lookup pair)
    (hu : rows'.updates.lookup pair = rows.updates.lookup pair) (hd : pair ∈ rows'.deletes ↔ pair ∈ rows.deletes)
    (hp : rows'.propertyDeletes.lookup pair = rows.propertyDeletes.lookup pair) :
    rows'.slot pair = rows.slot pair := by
  rw [slot, hi, hu, hp, decide_eq_decide.mpr hd, slot]

theorem slot_undo_of_ne (h : pair ≠ op.pair) : (rows.undo op).slot pair = rows.slot pair := by
  cases op with
  | inserts pair' prev => exact slot_congr (lookup_setEntry_of_ne h) rfl Iff.rfl rfl
  | updates pair' prev => exact slot_congr rfl (lookup_setEntry_of_ne h) Iff.rfl rfl
  | deletes pair' prev => exact slot_congr rfl rfl (mem_setMember_of_ne h) rfl
  | propertyDeletes pair' prev => exact slot_congr rfl rfl Iff.rfl (lookup_setEntry_of_ne h)

theorem slot_rewind_of_ne (h : ∀ op ∈ ops, pair ≠ op.pair) :
    (rewind undo rows ops).slot pair = rows.slot pair := by
  induction ops with
  | nil => rfl
  | cons op ops ind =>
    have ⟨hop, hops⟩ := forall_mem_cons.mp h
    exact (slot_undo_of_ne hop).trans (ind hops)

end StagedRows

namespace TxnStaging

open StagedRows (slot)

variable {α : Type} {s : TxnStaging α} {pair : StagedKey}

@[simp]
theorem slot_writeInserts (entry : Option (UInt32 × PropertyRowList α)) :
    (s.writeInserts pair entry).slot pair = { s.slot pair with insert := entry } := by
  simp only [slot, writeInserts, lookup_setEntry]
  rfl

@[simp]
theorem slot_writeUpdates (entry : Option (PropertyRowList α)) :
    (s.writeUpdates pair entry).slot pair = { s.slot pair with update := entry } := by
  simp only [slot, writeUpdates, lookup_setEntry]
  rfl

@[simp]
theorem slot_writeDeletes (present : Bool) :
    (s.writeDeletes pair present).slot pair = { s.slot pair with deleted := present } := by
  simp [slot, writeDeletes]

@[simp]
theorem slot_writePropertyDeletes (entry : Option (List String)) :
    (s.writePropertyDeletes pair entry).slot pair = { s.slot pair with propertyDeletes := entry } := by
  simp only [slot, writePropertyDeletes, lookup_setEntry]
  rfl

@[simp]
theorem slot_dropUpdates : (s.dropUpdates pair).slot pair = { s.slot pair with update := none } := by
  unfold dropUpdates
  split
  case isTrue => exact slot_writeUpdates none
  case isFalse h => simp [slot, Finmap.lookup_eq_none.mpr h]

@[simp]
theorem slot_dropPropertyDeletes :
    (s.dropPropertyDeletes pair).slot pair = { s.slot pair with propertyDeletes := none } := by
  unfold dropPropertyDeletes
  split
  case isTrue => exact slot_writePropertyDeletes none
  case isFalse h => simp [slot, Finmap.lookup_eq_none.mpr h]

@[simp]
theorem slot_prunePropertyDeletes (s : TxnStaging α) (pair : StagedKey) (names : List String) : (s.prunePropertyDeletes pair names).slot pair =
    { s.slot pair with propertyDeletes := StagedSlot.prune (s.slot pair).propertyDeletes names } := by
  unfold prunePropertyDeletes
  split
  case h_1 h => simp [slot, StagedSlot.prune, h]
  case h_2 h => simp [slot, StagedSlot.prune, writePropertyDeletes, h]

@[simp]
theorem slot_pruneUpdates (s : TxnStaging α) (pair : StagedKey) (names : List String) : (s.pruneUpdates pair names).slot pair =
    { s.slot pair with update := StagedSlot.pruneColumns (s.slot pair).update names } := by
  unfold pruneUpdates
  split
  case h_1 h => simp [slot, StagedSlot.pruneColumns, h]
  case h_2 h =>
    rw [slot_writeUpdates]
    simp [slot, StagedSlot.pruneColumns, h]

theorem Extends.slot_eq (h : Extends P s s') (hp : ¬P pair) : s'.slot pair = s.slot pair := by
  have ⟨ops, _, hops, hr⟩ := h.journal
  have hne : ∀ op ∈ ops, pair ≠ op.pair := fun op hop heq => hp (heq ▸ hops op hop)
  rw [← hr, StagedRows.slot_rewind_of_ne hne]

def stageRow (s : TxnStaging α) (pair : StagedKey) : RowOp α → StorageResult Unit × TxnStaging α
  | .insert reserved properties =>
    let (staged, s) := s.stageInsert pair reserved properties
    (staged.map fun _ => (), s)
  | .update columns => s.stageUpdate pair columns
  | .propertyDelete columns => s.stagePropertyDelete pair columns
  | .delete =>
    let (staged, s) := s.stageDelete pair
    (staged.map fun _ => (), s)

theorem slot_stageRow (h : (s.stageRow pair op).1 = .ok ()) :
    (s.stageRow pair op).2.slot pair = (s.slot pair).stage op := by
  cases op with
  | insert reserved properties =>
    cases ha : s.checkBudget pair with
    | error e => simp [stageRow, stageInsert, ha, Except.map] at h
    | ok _ =>
      simp only [stageRow, stageInsert, ha]
      by_cases hd : pair ∈ s.deletes
      · rw [if_pos hd, slot_writeUpdates, slot_dropPropertyDeletes, slot_writeDeletes]
        simp [StagedSlot.stage, slot, hd]
      · rw [if_neg hd, slot_writeInserts]
        simp [StagedSlot.stage, slot, hd]
  | update columns =>
    cases hi : s.inserts.lookup pair with
    | some held =>
      simp only [stageRow, stageUpdate, hi, slot_prunePropertyDeletes, slot_writeInserts]
      simp [StagedSlot.stage, slot, hi]
    | none =>
      cases ha : s.checkBudget pair with
      | error e => simp [stageRow, stageUpdate, hi, ha] at h
      | ok _ =>
        have hu : (s.prunePropertyDeletes pair (columns.map (·.1))).updates.lookup pair = s.updates.lookup pair :=
          congrArg StagedSlot.update (s.slot_prunePropertyDeletes pair _)
        simp only [stageRow, stageUpdate, hi, ha, slot_writeUpdates, slot_prunePropertyDeletes, hu]
        simp [StagedSlot.stage, slot, hi]
  | propertyDelete columns =>
    by_cases hc : columns = []
    · simp [stageRow, stagePropertyDelete, StagedSlot.stage, hc]
    cases hi : s.inserts.lookup pair with
    | some held =>
      simp only [stageRow, stagePropertyDelete, if_neg hc, hi, slot_prunePropertyDeletes, slot_writeInserts]
      simp [StagedSlot.stage, slot, hi, hc]
    | none =>
      cases ha : s.checkBudget pair with
      | error e => simp [stageRow, stagePropertyDelete, hc, hi, ha] at h
      | ok _ =>
        have hp : (s.pruneUpdates pair columns).propertyDeletes.lookup pair = s.propertyDeletes.lookup pair :=
          congrArg StagedSlot.propertyDeletes (s.slot_pruneUpdates pair _)
        simp only [stageRow, stagePropertyDelete, if_neg hc, hi, ha, slot_writePropertyDeletes, slot_pruneUpdates, hp]
        simp [StagedSlot.stage, slot, hi, hc]
  | delete =>
    cases hi : s.inserts.lookup pair with
    | some held =>
      simp only [stageRow, stageDelete, hi, slot_dropPropertyDeletes, slot_dropUpdates, slot_writeInserts]
      simp [StagedSlot.stage, slot, hi]
    | none =>
      have hdrop : ((s.dropUpdates pair).dropPropertyDeletes pair).slot pair =
          { s.slot pair with update := none, propertyDeletes := none } := by
        rw [slot_dropPropertyDeletes, slot_dropUpdates]
      simp only [stageRow, stageDelete, hi] at h ⊢
      split
      case h_1 he => simp [he, Except.map] at h
      case h_2 =>
        rw [slot_writeDeletes, hdrop]
        simp [StagedSlot.stage, slot, hi]

end TxnStaging

namespace StagedSlot

variable {α : Type} {slot : StagedSlot α} {base : PropertyRowList α} {name : String}

-- The value of a column of an existing row with the changes laid over it.
def merged (slot : StagedSlot α) (base : PropertyRowList α) (name : String) : Option (Value α) :=
  if name ∈ slot.propertyDeletes.getD [] then none
  else ((slot.update.getD []).reverse.lookup name).or (base.lookup name)

def view (slot : StagedSlot α) (base : Option (PropertyRowList α)) : Option (String → Option (Value α)) :=
  if slot.deleted then none
  else match slot.insert with
    | some (_, row) => some fun name => row.lookup name
    | none => base.map slot.merged

theorem mem_prune {deleted : Option (List String)} {names : List String} :
    name ∈ (prune deleted names).getD [] ↔ name ∈ deleted.getD [] ∧ name ∉ names := by
  cases deleted with
  | none => simp [prune]
  | some deleted =>
    simp only [prune, bind_some, getD_some]
    split <;> grind

theorem pruneColumns_getD {update : Option (PropertyRowList α)} {names : List String} :
    (pruneColumns update names).getD [] = applyStagedPropertyDeletes (update.getD []) names := by
  cases update with
  | none => rfl
  | some staged =>
    simp only [pruneColumns, bind_some, getD_some]
    split <;> simp_all

theorem lookup_reverse_eq_none_iff (row : PropertyRowList α) :
    row.reverse.lookup name = none ↔ name ∉ row.map (·.1) := by
  simp only [lookup_eq_none_iff, mem_reverse, List.mem_map, bne_iff_ne]
  grind

theorem merged_update (hi : slot.insert = none) (columns : PropertyRowList α) :
    (slot.stage (.update columns)).merged base name = (columns.reverse.lookup name).or (slot.merged base name) := by
  simp only [stage, hi, merged, mem_prune, getD_some, reverse_append, lookup_append, Option.or_assoc]
  cases h : columns.reverse.lookup name with
  | none =>
    have hnames := (lookup_reverse_eq_none_iff columns).mp h
    simp only [hnames, not_false_eq_true, and_true, none_or]
  | some value =>
    have hnames : name ∈ columns.map (·.1) := by
      by_contra hn
      rw [(lookup_reverse_eq_none_iff columns).mpr hn] at h
      cases h
    simp only [hnames, not_true_eq_false, and_false, if_false, some_or]

theorem mem_foldl_insert (columns entry : List String) :
    name ∈ columns.foldl (fun entry name => if name ∈ entry then entry else entry ++ [name]) entry ↔
      name ∈ entry ∨ name ∈ columns := by
  induction columns generalizing entry with
  | nil => simp
  | cons column columns ind =>
    rw [foldl_cons, ind]
    split <;> grind

theorem merged_propertyDelete (hi : slot.insert = none) (columns : List String) :
    (slot.stage (.propertyDelete columns)).merged base name =
      if name ∈ columns then none else slot.merged base name := by
  by_cases hc : columns = []
  · simp [stage, hc]
  simp only [stage, if_neg hc, hi, merged, getD_some, mem_foldl_insert, pruneColumns_getD]
  by_cases hn : name ∈ columns
  · simp [hn]
  · have hlookup : (applyStagedPropertyDeletes (slot.update.getD []) columns).reverse.lookup name =
        (slot.update.getD []).reverse.lookup name := by
      have hreverse : (applyStagedPropertyDeletes (slot.update.getD []) columns).reverse =
          applyStagedPropertyDeletes (slot.update.getD []).reverse columns := filter_reverse.symm
      rw [hreverse, lookup_applyStagedPropertyDeletes, if_neg hn]
    simp only [hn, or_false, if_false, hlookup]

end StagedSlot

-- The base row was deleted and inserted again, and the column is read as the update over the base row
-- leaves it. Nothing after that has given it a value or deleted it.
def Exposed {α : Type} (base : Option (PropertyRowList α)) (ops : List (RowOp α)) (name : String) : Prop :=
  ∃ row ∈ base, ∃ (before : List (RowOp α)) (reserved : UInt32) (properties : PropertyRowList α)
      (after : List (RowOp α)),
    ops = before ++ .delete :: .insert reserved properties :: after ∧
    (∀ op ∈ after, ¬op.isDelete ∧ name ∉ op.names) ∧
    (properties.reverse.lookup name).or (row.lookup name) ≠ properties.lookup name

namespace Exposed

variable {α : Type} {base : Option (PropertyRowList α)} {ops : List (RowOp α)} {op : RowOp α} {name : String}

theorem concat_iff : Exposed base (ops ++ [op]) name ↔
    (∃ row ∈ base, ∃ before reserved properties, ops = before ++ [RowOp.delete] ∧ op = .insert reserved properties ∧
      (properties.reverse.lookup name).or (row.lookup name) ≠ properties.lookup name) ∨
    Exposed base ops name ∧ ¬op.isDelete ∧ name ∉ op.names := by
  constructor
  · rintro ⟨row, hrow, before, reserved, properties, after, heq, hafter, hne⟩
    obtain rfl | ⟨after, last, rfl⟩ := after.eq_nil_or_concat'
    · have heq : ops ++ [op] = (before ++ [RowOp.delete]) ++ [RowOp.insert reserved properties] := by simp [heq]
      have ⟨hops, hop⟩ := append_singleton_inj.mp heq
      exact .inl ⟨row, hrow, before, reserved, properties, hops, hop, hne⟩
    · have heq : ops ++ [op] = (before ++ .delete :: .insert reserved properties :: after) ++ [last] := by simp [heq]
      have ⟨hops, hop⟩ := append_singleton_inj.mp heq
      obtain ⟨hafter, hlast⟩ := forall_mem_append.mp hafter
      exact .inr ⟨⟨row, hrow, before, reserved, properties, after, hops, hafter, hne⟩,
        hop ▸ hlast last (mem_singleton_self _)⟩
  · rintro (⟨row, hrow, before, reserved, properties, rfl, rfl, hne⟩ | ⟨h, hop⟩)
    · exact ⟨row, hrow, before, reserved, properties, [], by simp, nofun, hne⟩
    · obtain ⟨row, hrow, before, reserved, properties, after, rfl, hafter, hne⟩ := h
      exact ⟨row, hrow, before, reserved, properties, after ++ [op], by simp,
        forall_mem_append.mpr ⟨hafter, forall_mem_singleton.mpr hop⟩, hne⟩

theorem concat_update :
    Exposed base (ops ++ [RowOp.update columns]) name ↔ Exposed base ops name ∧ name ∉ columns.map (·.1) := by
  simp [concat_iff, RowOp.isDelete, RowOp.names]

theorem concat_propertyDelete :
    Exposed base (ops ++ [RowOp.propertyDelete columns]) name ↔ Exposed base ops name ∧ name ∉ columns := by
  simp [concat_iff, RowOp.isDelete, RowOp.names]

theorem not_concat_delete : ¬Exposed base (ops ++ [RowOp.delete]) name := by
  rw [concat_iff]
  rintro (⟨_, _, _, _, _, _, hop, _⟩ | ⟨_, hop, _⟩)
  · cases hop
  · exact hop rfl

end Exposed

namespace TxnStaging

variable {α : Type} {s : TxnStaging α} {pair : StagedKey} {base : Option (PropertyRowList α)} {ops : List (RowOp α)}
variable {row : Option (String → Option (Value α))}

-- Operations on the row of one key that the buffer has accepted, and the row after doing them one by
-- one. Other keys may be staged in between.
inductive Staged (pair : StagedKey) (base : Option (PropertyRowList α)) :
    List (RowOp α) → TxnStaging α → Option (String → Option (Value α)) → Prop where
  | start {s : TxnStaging α} (h : s.slot pair = .empty) :
    Staged pair base [] s (base.map fun row name => row.lookup name)
  | stage {ops : List (RowOp α)} {s : TxnStaging α} {row row' : Option (String → Option (Value α))} {op : RowOp α}
    (h : Staged pair base ops s row) (hs : (s.stageRow pair op).1 = .ok ()) (hr : op.exec row = some row') :
    Staged pair base (ops ++ [op]) (s.stageRow pair op).2 row'
  | other {ops : List (RowOp α)} {s : TxnStaging α} {row : Option (String → Option (Value α))} {c : StagingCall α}
    (h : Staged pair base ops s row) (hc : c.pair? ≠ some pair) : Staged pair base ops (s.call c) row

-- Without a base row the only thing staged is the row itself.
structure Fresh (slot : StagedSlot α) (row : Option (String → Option (Value α))) : Prop where
  update : slot.update = none
  deleted : slot.deleted = false
  propertyDeletes : slot.propertyDeletes = none
  row_eq : row = slot.insert.map fun held name => held.2.lookup name

-- A row that was there before is deleted or changed. It is never inserted again.
inductive Over (base : PropertyRowList α) (ops : List (RowOp α)) :
    StagedSlot α → Option (String → Option (Value α)) → Prop where
  | deleted (h : ∃ before, ops = before ++ [RowOp.delete]) : Over base ops ⟨none, none, true, none⟩ none
  | live {slot : StagedSlot α} {f : String → Option (Value α)} (hi : slot.insert = none) (hd : slot.deleted = false)
    (h : ∀ name, slot.merged base name = f name ↔ ¬Exposed (some base) ops name) : Over base ops slot (some f)

theorem Fresh.stage {slot : StagedSlot α}
    (h : Fresh slot row) (hr : op.exec row = some row') : Fresh (slot.stage op) row' := by
  obtain ⟨held, update, deleted, propertyDeletes⟩ := slot
  obtain ⟨rfl, rfl, rfl, rfl⟩ := h
  cases op with
  | insert reserved properties =>
    cases held with
    | some held => simp [RowOp.exec] at hr
    | none =>
      obtain rfl := Option.some.inj hr
      exact ⟨rfl, rfl, rfl, rfl⟩
  | update columns =>
    obtain _ | ⟨reserved, row⟩ := held
    · cases hr
    · obtain rfl := Option.some.inj hr
      refine ⟨rfl, rfl, rfl, congrArg some (funext fun name => ?_)⟩
      exact (lookup_applyStagedColumns row columns name).symm
  | propertyDelete columns =>
    obtain _ | ⟨reserved, row⟩ := held
    · cases hr
    · obtain rfl := Option.some.inj hr
      by_cases hc : columns = []
      · rw [StagedSlot.stage, if_pos hc]
        exact ⟨rfl, rfl, rfl, by simp [hc]⟩
      · rw [StagedSlot.stage, if_neg hc]
        refine ⟨rfl, rfl, rfl, congrArg some (funext fun name => ?_)⟩
        exact (lookup_applyStagedPropertyDeletes row columns name).symm
  | delete =>
    cases held with
    | none => cases hr
    | some held =>
      obtain rfl := Option.some.inj hr
      exact ⟨rfl, rfl, rfl, rfl⟩

theorem Over.stage {slot : StagedSlot α}
    {base : PropertyRowList α} (h : Over base ops slot row) (hr : op.exec row = some row') :
    Over base (ops ++ [op]) (slot.stage op) row' := by
  cases h with
  | deleted h =>
    obtain ⟨before, rfl⟩ := h
    cases op with
    | insert reserved properties =>
      obtain rfl := Option.some.inj hr
      refine .live rfl rfl fun name => ?_
      have hexposed : Exposed (some base) ((before ++ [RowOp.delete]) ++ [RowOp.insert reserved properties]) name ↔
          (properties.reverse.lookup name).or (base.lookup name) ≠ properties.lookup name := by
        rw [Exposed.concat_iff]
        simp [Exposed.not_concat_delete]
      rw [hexposed, not_not]
      rfl
    | update | propertyDelete | delete => cases hr
  | @live _ f hi hd h =>
    cases op with
    | insert reserved properties => cases hr
    | update columns =>
      obtain rfl := Option.some.inj hr
      refine .live (by simp [StagedSlot.stage, hi]) (by simp [StagedSlot.stage, hi, hd]) fun name => ?_
      rw [StagedSlot.merged_update hi, Exposed.concat_update]
      cases hc : columns.reverse.lookup name with
      | none =>
        have hn := (StagedSlot.lookup_reverse_eq_none_iff columns).mp hc
        rw [none_or, none_or, h name, and_iff_left hn]
      | some value =>
        refine iff_of_true rfl fun ⟨_, hn⟩ => ?_
        rw [(StagedSlot.lookup_reverse_eq_none_iff columns).mpr hn] at hc
        cases hc
    | propertyDelete columns =>
      obtain rfl := Option.some.inj hr
      have hstage : (slot.stage (.propertyDelete columns)).insert = none ∧
          (slot.stage (.propertyDelete columns)).deleted = false := by
        simp only [StagedSlot.stage, hi]
        split
        case isTrue => exact ⟨hi, hd⟩
        case isFalse => exact ⟨rfl, hd⟩
      refine .live hstage.1 hstage.2 fun name => ?_
      rw [StagedSlot.merged_propertyDelete hi, Exposed.concat_propertyDelete]
      by_cases hn : name ∈ columns
      · simp [hn]
      · rw [if_neg hn, if_neg hn, h name, and_iff_left hn]
    | delete =>
      obtain rfl := Option.some.inj hr
      have hslot : slot.stage .delete = ⟨none, none, true, none⟩ := by simp [StagedSlot.stage, hi]
      rw [hslot]
      exact .deleted ⟨ops, rfl⟩

theorem Staged.fresh (h : Staged pair none ops s row) : Fresh (s.slot pair) row := by
  generalize hbase : (none : Option (PropertyRowList α)) = base at h
  induction h with
  | start h => exact h ▸ hbase ▸ ⟨rfl, rfl, rfl, rfl⟩
  | stage h hs hr ind => exact slot_stageRow hs ▸ ind.stage hr
  | other h hc ind =>
    rw [(extends_call _).slot_eq hc]
    exact ind

theorem Staged.over {base : PropertyRowList α} (h : Staged pair (some base) ops s row) :
    Over base ops (s.slot pair) row := by
  generalize hbase : some base = base' at h
  induction h with
  | start h =>
    subst hbase
    rw [h]
    refine .live rfl rfl fun name => iff_of_true rfl ?_
    rintro ⟨_, _, before, _, _, _, hops, _⟩
    simp at hops
  | stage h hs hr ind => exact slot_stageRow hs ▸ ind.stage hr
  | other h hc ind =>
    rw [(extends_call _).slot_eq hc]
    exact ind

theorem view_eq_iff (h : Staged pair base ops s row) :
    (s.slot pair).view base = row ↔ ∀ name, ¬Exposed base ops name := by
  cases base with
  | none =>
    obtain ⟨-, hd, -, rfl⟩ := h.fresh
    refine iff_of_true ?_ fun name ⟨_, hrow, _⟩ => by cases hrow
    unfold StagedSlot.view
    rw [hd]
    cases (s.slot pair).insert <;> rfl
  | some base =>
    have ho := h.over
    generalize s.slot pair = slot at ho ⊢
    cases ho with
    | deleted hops =>
      obtain ⟨before, rfl⟩ := hops
      exact iff_of_true rfl fun name => Exposed.not_concat_delete
    | live hi hd hmerged =>
      have hview : slot.view (some base) = some (slot.merged base) := by simp [StagedSlot.view, hi, hd]
      rw [hview, some_inj, funext_iff]
      exact forall_congr' hmerged

theorem merged_slot (record : PropertyRowList α) (name : String) :
    let merged := (s.updates.lookup pair).elim record (applyStagedColumns record)
    ((s.propertyDeletes.lookup pair).elim merged (applyStagedPropertyDeletes merged)).lookup name =
      (s.slot pair).merged record name := by
  cases hu : s.updates.lookup pair <;> cases hp : s.propertyDeletes.lookup pair <;>
    simp [StagedSlot.merged, StagedRows.slot, hu, hp, lookup_applyStagedColumns, lookup_applyStagedPropertyDeletes]

theorem view_composeFullRecord (hkey : (vidOfKey pair.2).isSome) (global : Option (VertexRecord α)) :
    ((s.composeFullRecord pair global).map fun record name => record.properties.lookup name) =
      (s.slot pair).view (global.map (·.properties)) := by
  have ⟨vid, hvid⟩ := isSome_iff_exists.mp hkey
  unfold composeFullRecord StagedSlot.view
  by_cases hd : pair ∈ s.deletes
  · simp [hd, StagedRows.slot]
  cases hi : s.inserts.lookup pair with
  | some held => simp [hd, StagedRows.slot, hi, hvid]
  | none =>
    have hview : (if (s.slot pair).deleted then none else match (s.slot pair).insert with
        | some (_, row) => some fun name => row.lookup name
        | none => (global.map (·.properties)).map (s.slot pair).merged) =
        global.map fun record => (s.slot pair).merged record.properties := by
      simp [StagedRows.slot, hd, hi, Function.comp_def]
    rw [hview]
    by_cases hstaged : pair ∈ s.updates ∨ pair ∈ s.propertyDeletes
    · cases global with
      | none => simp [hd, hstaged]
      | some record =>
        simp only [if_neg hd, if_pos hstaged, map_some, bind_eq_bind, bind_some, hvid]
        exact congrArg some (funext (merged_slot record.properties))
    · have ⟨hu, hp⟩ := not_or.mp hstaged
      have hmerged (row : PropertyRowList α) : (s.slot pair).merged row = fun name => row.lookup name := by
        funext name
        simp [StagedSlot.merged, StagedRows.slot, Finmap.lookup_eq_none.mpr hu, Finmap.lookup_eq_none.mpr hp]
      simp only [if_neg hd, if_neg hstaged, hmerged]

-- The row that a transaction reads is the one that its operations lead to, unless a column shows
-- through a row that was deleted and inserted again.
theorem composeFullRecord_iff (hkey : (vidOfKey pair.2).isSome) (global : Option (VertexRecord α))
    (h : Staged pair (global.map (·.properties)) ops s row) :
    ((s.composeFullRecord pair global).map fun record name => record.properties.lookup name) = row ↔
      ∀ name, ¬Exposed (global.map (·.properties)) ops name := by
  rw [view_composeFullRecord hkey, view_eq_iff h]

section

def somePair : StagedKey :=
  (1, .int 5)

def someRecord : VertexRecord Empty where
  internalId := 7
  vid := ⟨.int, Bytes.be 8 5, by simp⟩
  properties := [("name", .string "Ann"), ("age", .int 30)]

-- The row is deleted and inserted again with the given properties.
def replaced (properties : PropertyRowList Empty) : TxnStaging Empty :=
  (((new.stageRow somePair .delete).2).stageRow somePair (.insert 9 properties)).2

theorem staged_replaced (properties : PropertyRowList Empty) :
    Staged somePair (some someRecord.properties) [.delete, .insert 9 properties] (replaced properties)
      (some fun name => properties.lookup name) := by
  have hstart : Staged somePair (some someRecord.properties) [] new _ := .start rfl
  have hdelete : Staged somePair (some someRecord.properties) ([] ++ [RowOp.delete]) _ none := hstart.stage rfl rfl
  exact hdelete.stage rfl rfl

theorem composeFullRecord_replaced :
    let properties := [("age", .int 31), ("name", .string "Bob")]
    (((replaced properties).composeFullRecord somePair (some someRecord)).map
      fun record name => record.properties.lookup name) = some fun name => properties.lookup name := by
  intro properties
  refine (composeFullRecord_iff rfl (some someRecord) (staged_replaced properties)).mpr fun name => ?_
  have hdeleted : ¬Exposed (some someRecord.properties) ([] ++ [RowOp.delete]) name := Exposed.not_concat_delete
  refine Exposed.concat_iff.not.mpr (not_or.mpr ⟨?_, fun h => hdeleted h.1⟩)
  rintro ⟨row, hrow, before, reserved, properties', -, hop, hne⟩
  cases hrow
  cases hop
  by_cases hage : name = "age"
  · exact hne (by rw [hage]; rfl)
  by_cases hname : name = "name"
  · exact hne (by rw [hname]; rfl)
  have hage  : (name == "age") = false := beq_eq_false_iff_ne.mpr hage
  have hname : (name == "name") = false := beq_eq_false_iff_ne.mpr hname
  exact hne (by simp [properties, someRecord, lookup_cons, hage, hname])

-- The age of the deleted row is read from the row that took its place.
theorem composeFullRecord_exposes_age :
    let properties := [("name", .string "Bob")]
    Staged somePair (some someRecord.properties) [.delete, .insert 9 properties] (replaced properties)
      (some fun name => properties.lookup name) ∧
    (((replaced properties).composeFullRecord somePair (some someRecord)).map (·.properties)) =
      some [("name", .string "Bob"), ("age", .int 30)] ∧ properties.lookup "age" = none :=
  ⟨staged_replaced _, rfl, rfl⟩

end

end TxnStaging

end Linkrs
