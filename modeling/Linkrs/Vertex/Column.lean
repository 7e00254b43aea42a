import Linkrs.Core.Error
import Linkrs.Core.Ids
import Linkrs.Core.Value
import Linkrs.Lib.VersionChain

namespace Linkrs

open VersionChain

-- A before-image, `None` where the value was missing.
abbrev VersionEntry (α : Type) := Entry (Option (Value α))

-- What of a column stays the same. `blank` is what a row reads as that is covered but was never
-- written: nothing, or the value of zeroed bytes where the width is fixed and nulls are not allowed.
-- `store` takes the values that fit the column's type, which come back unchanged. No other value is
-- described by it: the bytes of a wider number, for one, reach into the next row. `overflows` picks
-- those that are too long for the buffers.
structure ColumnSpec (α : Type) where
  name : String
  nullable : Bool
  blank : Option (Value α)
  store : Value α → StorageResult Unit
  overflows : Value α → Bool
  chunkCapacity : ℕ
  blank_none : nullable → blank = none
  blank_stored : ∀ v ∈ blank, store v = .ok ()

-- Where the value of a row can be. The raw buffers keep what they hold when their chunk is encoded.
structure Payload (α : Type) where
  raw : Option (Value α)
  rawNull : Bool
  encoding : Option (Option (Value α))
  overlay : Option (Option (Value α))
  overflow : Option (Value α)

-- A row of a column. The current value is valid from `createTs` on.
structure ColumnCell (α : Type) where
  payload : Payload α
  createTs : Timestamp
  chain : List (VersionEntry α)

structure Column (α : Type) where
  spec : ColumnSpec α
  cells : List (ColumnCell α)

-- A null is passed as `None`: an overlay would keep any other one as a value. `inPlace` is what the
-- encoding of the chunk says, if it has one: whether it takes the value itself.
structure ColumnWrite (α : Type) where
  row : ℕ
  value : Option (Value α)
  ts : Timestamp
  inPlace : Bool
  present : ∀ v ∈ value, v.isNull = false

-- A chunk is encoded, decoded, or evicted and then loaded again.
inductive Recode
  | encode
  | decode
  | reload

namespace ColumnSpec

variable {α : Type} (spec : ColumnSpec α)

def blankCell : ColumnCell α where
  payload := ⟨spec.blank, spec.nullable, none, none, none⟩
  createTs := 0
  chain := []

def checkNull (value : Option (Value α)) : StorageResult Unit :=
  if value.isNone ∧ !spec.nullable then .error (.nullValueNotAllowed spec.name) else .ok ()

def Typed (value : Option (Value α)) : Prop :=
  ∀ v ∈ value, spec.store v = .ok ()

end ColumnSpec

namespace Payload

variable {α : Type} (spec : ColumnSpec α) (p : Payload α)

def inner : Option (Value α) :=
  p.overlay.getD (p.encoding.getD p.raw)

def current : Option (Value α) :=
  p.overflow.or p.inner

-- A row in the overflow area leaves an empty text in its place.
def placeholder : Option (Value α) :=
  some (.scalar (.string ""))

def encodingBaseValue : Option (Value α) :=
  if p.overflow.isSome then placeholder else p.inner

def setRaw (value : Option (Value α)) : Payload α :=
  { p with raw := value, rawNull := spec.nullable && value.isNone }

-- An entry of the overlay stays even if the encoding takes the value.
def write (value : Option (Value α)) (inPlace : Bool) : Payload α :=
  match value.filter spec.overflows with
  | some v => { p.setRaw spec placeholder with overflow := some v, overlay := none }
  | none =>
    match p.encoding with
    | none => { p.setRaw spec value with overflow := none }
    | some _ =>
      if inPlace then { p with encoding := some value, overflow := none }
      else { p with overlay := some value, overflow := none }

def writeCore (value : Option (Value α)) (inPlace : Bool) : StorageResult (Payload α) := do
  spec.checkNull value
  value.forM spec.store
  return p.write spec value inPlace

def recode (kind : Recode) : Payload α :=
  match kind, p.encoding with
  | .encode, _ => { p with encoding := some p.encodingBaseValue, overlay := none }
  | .decode, some _ => { p.setRaw spec p.encodingBaseValue with encoding := none, overlay := none }
  | .reload, some _ =>
    { p.setRaw spec p.encodingBaseValue with encoding := some p.encodingBaseValue, overlay := none }
  | .decode, none | .reload, none => p

end Payload

namespace ColumnCell

variable {α : Type} (spec : ColumnSpec α) (bs : BinarySearch) (cell : ColumnCell α)

def recode (kind : Recode) : ColumnCell α :=
  { cell with payload := cell.payload.recode spec kind }

-- Whether a write at this time leaves the current value as a before-image.
def records (preCovered : Bool) (ts : Timestamp) : Bool :=
  preCovered && cell.createTs < ts && (cell.payload.current.isSome || cell.payload.rawNull)

def keepCurrent (preCovered : Bool) (ts : Timestamp) : ColumnCell α :=
  if cell.records preCovered ts then
    { cell with chain := cell.chain ++ [⟨cell.createTs, ts, cell.payload.current⟩] }
  else cell

-- The order of writes is checked against the newest before-image only. The before-image of this write
-- stays even if the value cannot be stored.
def setVersioned (preCovered : Bool) (w : ColumnWrite α) : StorageResult Unit × ColumnCell α :=
  if cell.chain.getLast?.any fun tail => w.ts ≤ tail.start || w.ts < tail.stop then
    (.error ⟨.invalidOperation, s!"out-of-order version write on column {spec.name} row {w.row}"⟩, cell)
  else
    let kept := cell.keepCurrent preCovered w.ts
    match cell.payload.writeCore spec w.value w.inPlace with
    | .error e => (.error e, kept)
    | .ok payload => (.ok (), { kept with payload := payload, createTs := w.ts })

def visibleEntry (chain : List (VersionEntry α)) (i : ℕ) (queryTs : Timestamp) :
    Option (Timestamp × Option (Value α)) :=
  (chain[i]?.filter (·.covers queryTs)).map fun entry => (entry.start, entry.value)

def searchChain (chain : List (VersionEntry α)) (queryTs : Timestamp) : Option (Timestamp × Option (Value α)) :=
  let find (idx : ℕ) := (visibleEntry chain idx queryTs).or (visibleEntry chain (idx + 1) queryTs)
  match bs.search (chain.map (·.start)) queryTs with
  | .ok i => find i
  | .error 0 => none
  | .error (i + 1) => find i

def getAtTs (queryTs : Timestamp) : Option (Value α) :=
  if cell.createTs ≤ queryTs then cell.payload.current
  else (searchChain bs cell.chain queryTs).bind (·.2)

-- Without a before-image that was closed at this time there is nothing to undo.
def undoLastVersionedWrite (ts : Timestamp) (inPlace : Bool) : StorageResult Unit × ColumnCell α :=
  match cell.chain.getLast? with
  | none => (.ok (), cell)
  | some entry =>
    if entry.stop ≠ ts then (.ok (), cell)
    else
      let cell := { cell with chain := cell.chain.dropLast, createTs := entry.start }
      match cell.payload.writeCore spec entry.value inPlace with
      | .error e => (.error e, cell)
      | .ok payload => (.ok (), { cell with payload := payload })

def isGcEligible (safe : Timestamp) (entry : VersionEntry α) : Bool :=
  entry.stop ≤ safe

-- The entry that was closed last among those that can go.
def lastBefore (safe : Timestamp) (chain : List (VersionEntry α)) : Option (VersionEntry α) :=
  chain.foldl (fun last entry =>
    if isGcEligible safe entry && last.all (·.stop < entry.stop) then some entry else last) none

-- One entry is kept as a baseline if what is left would start after the cutoff.
def gcChain (safe : Timestamp) (chain : List (VersionEntry α)) : List (VersionEntry α) :=
  let after := chain.filter (!isGcEligible safe ·)
  match lastBefore safe chain with
  | none => after
  | some entry =>
    if after = [] then [entry]
    else if safe < (after.map (·.start)).min?.getD invalidTimestamp then
      (after ++ [entry]).mergeSort fun a b => a.start ≤ b.start
    else after

end ColumnCell

namespace Column

variable {α : Type} (bs : BinarySearch) (column : Column α)

def new (spec : ColumnSpec α) : Column α where
  spec := spec
  cells := []

def cell (row : ℕ) : ColumnCell α :=
  column.cells.getD row column.spec.blankCell

def recodeRows (rows : ℕ → Bool) (kind : Recode) : Column α :=
  { column with
    cells := column.cells.mapIdx fun i cell => if rows i then cell.recode column.spec kind else cell }

def recodeChunk (chunk : ℕ) (kind : Recode) : Column α :=
  column.recodeRows (fun i => i / column.spec.chunkCapacity = chunk) kind

-- The rows up to the given one become covered. The last chunk is decoded if it grows.
def ensureCoverage (row : ℕ) : Column α :=
  let len := column.cells.length
  let capacity := column.spec.chunkCapacity
  let decoded := column.recodeRows (fun i => len ≤ row && i / capacity = len / capacity) .decode
  { decoded with cells := decoded.cells ++ List.replicate (row + 1 - len) column.spec.blankCell }

def put (row : ℕ) (cell : ColumnCell α) : Column α :=
  let covered := column.ensureCoverage row
  { covered with cells := covered.cells.set row cell }

def setVersioned (w : ColumnWrite α) : StorageResult Unit × Column α :=
  match column.spec.checkNull w.value with
  | .error e => (.error e, column)
  | .ok () =>
    let (result, cell) := (column.cell w.row).setVersioned column.spec (w.row < column.cells.length) w
    (result, column.put w.row cell)

def getAtTs (row : ℕ) (queryTs : Timestamp) : Option (Value α) :=
  column.cells[row]?.bind (·.getAtTs bs queryTs)

def undoLastVersionedWrite (row : ℕ) (ts : Timestamp) (inPlace : Bool) : StorageResult Unit × Column α :=
  let (result, cell) := (column.cell row).undoLastVersionedWrite column.spec ts inPlace
  (result, column.put row cell)

-- The number of entries that were removed comes with the column.
def gcVersions (minActiveSnapshotTs : Timestamp) : ℕ × Column α :=
  let collect (cell : ColumnCell α) := { cell with chain := ColumnCell.gcChain minActiveSnapshotTs cell.chain }
  ((column.cells.map fun cell => cell.chain.length - (collect cell).chain.length).sum,
    { column with cells := column.cells.map collect })

end Column

end Linkrs
