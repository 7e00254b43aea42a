import Mathlib.Data.Multiset.Basic
import Linkrs.Edge.Slot
import Linkrs.Lib.Blocks

namespace Linkrs

open Blocks (window splice)

def defaultVertexDegree : ℕ := 4
def liveSetWidthBound : ℕ := 8
def overflowRepackChunksPerVertex : ℕ := 8
def tombstoneReuseScanBound : ℕ := 64
def minRowCapacity : ℕ := 4
def overflowChunkMin : ℕ := 8
def overflowChunkMax : ℕ := 4096
def highDegreeLiveThreshold : ℕ := 16384
def highDegreeChunkEdges : ℕ := 16384
def highDegreeSpareDivisor : ℕ := 4

section

def divRoundEven (a b : ℕ) : ℕ :=
  let q := a / b
  let r := a % b
  if 2 * r < b ∨ 2 * r = b ∧ q % 2 = 0 then q else q + 1

-- The number of type `f32` closest to a fraction that is at least one, again as a fraction.
def roundF32 (num den : ℕ) : ℕ × ℕ :=
  let exponent := Nat.log2 (num / den)
  if exponent ≤ 23 then
    (divRoundEven (num * 2 ^ (23 - exponent)) den, 2 ^ (23 - exponent))
  else
    (divRoundEven num (den * 2 ^ (exponent - 23)) * 2 ^ (exponent - 23), 1)

-- `PACKED_CSR_DENSITY`, the number of type `f32` closest to 0.8.
def packedCsrDensity : ℕ × ℕ := (13421773, 2 ^ 24)

def sizedRowCapacity (live : ℕ) : ℕ :=
  if live = 0 then 0
  else
    let (num, den) := roundF32 live 1
    let (num, den) := roundF32 (num * packedCsrDensity.2) (den * packedCsrDensity.1)
    max ((num + den - 1) / den) (min minRowCapacity (max live 1))

def nextPowerOfTwo (n : ℕ) : ℕ :=
  if n ≤ 1 then 1 else 2 ^ (Nat.log2 (n - 1) + 1)

def gradedOverflowChunkEdges (live : ℕ) : ℕ :=
  min (max (nextPowerOfTwo live) overflowChunkMin) overflowChunkMax

-- Exact, since the indexes are of type `u32` and the factor 1.25 is taken in `f64`.
def grownVertexCapacity (minCapacity : ℕ) : ℕ :=
  max ((5 * minCapacity + 3) / 4) minCapacity

end

def OverflowChunk.repacked (entries : List Nbr) : OverflowChunk :=
  if highDegreeLiveThreshold ≤ entries.length then
    .consolidatedWithReserve entries
      (max (entries.length / highDegreeSpareDivisor) (highDegreeChunkEdges / 2))
  else
    .consolidated entries

@[simp]
theorem OverflowChunk.entries_consolidated (entries : List Nbr) : (consolidated entries).entries = entries :=
  rfl

@[simp]
theorem OverflowChunk.entries_repacked (entries : List Nbr) : (repacked entries).entries = entries := by
  rw [repacked]
  split <;> rfl

-- What is kept for each vertex: its entries in the arrays of `rows`, in `reuse_hint` and
-- `live_counts`, and in the sparse tables `overflow_chunks` and `live_sets`. No row is in the first
-- table without a chunk.
structure Row where
  adjOffset : ℕ
  degree : ℕ
  primaryCapacity : ℕ
  chunks : List OverflowChunk
  liveSet : Option LiveKeySet
  reuseHint : Option ℕ
  liveCount : ℕ

def Row.empty (adjOffset : ℕ) : Row :=
  ⟨adjOffset, 0, 0, [], none, none, 0⟩

-- Offsets, degrees, capacities and counts are of type `u32` and do not wrap as long as the table has
-- fewer than `2 ^ 32` slots, entries and rows (`Fits`).
structure MutableCsr where
  slots : List Nbr
  rows : List Row
  overflowChunkEdges : ℕ
  tombstoneReuseCutoff : UInt64
  edgeCount : UInt64

namespace MutableCsr

def withOverflowChunkEdges (vertexCapacity overflowChunkEdges : ℕ) : MutableCsr where
  slots := []
  rows := List.replicate (max vertexCapacity 1) (.empty 0)
  overflowChunkEdges := max overflowChunkEdges 1
  tombstoneReuseCutoff := neverDeleted
  edgeCount := 0

variable (c : MutableCsr)

def vertexCapacity : ℕ :=
  c.rows.length

-- A vertex beyond the capacity reads as one without edges.
def row (v : ℕ) : Row :=
  c.rows.getD v (.empty 0)

def primary (v : ℕ) : List Nbr :=
  window c.slots (c.row v).adjOffset (c.row v).degree

def overflow (v : ℕ) : List Nbr :=
  (c.row v).chunks.flatMap OverflowChunk.entries

def entries (v : ℕ) : List Nbr :=
  c.primary v ++ c.overflow v

-- The entries as `visit_physical` passes them to its visitor.
def visitPhysical (v : ℕ) : List Nbr :=
  (c.primary v).filter (·.edgeId ≠ invalidEdgeId) ++ c.overflow v

def positioned (v : ℕ) : List (EdgePosition × Nbr) :=
  (c.primary v).mapIdx (fun i n => (.primary i, n)) ++
    ((c.row v).chunks.mapIdx fun chunk ch =>
      ch.entries.mapIdx fun slot n => (EdgePosition.overflow chunk slot, n)).flatten

def slotAtPosition (v : ℕ) : EdgePosition → Option Nbr
  | .primary slot => (c.primary v)[slot]?
  | .overflow chunk slot => (c.row v).chunks[chunk]?.bind (·.entries[slot]?)

def modifyRow (v : ℕ) (f : Row → Row) : MutableCsr :=
  { c with rows := c.rows.modify v f }

-- Rewrites the entries in the primary block of a row. Slots that are vacated become gaps.
def setPrimary (v : ℕ) (entries : List Nbr) : MutableCsr :=
  { c with
    slots := splice c.slots (c.row v).adjOffset
      (entries ++ List.replicate ((c.row v).degree - entries.length) .deadGap)
    rows := c.rows.modify v fun r => { r with degree := entries.length } }

def modifyChunks (v : ℕ) (f : List OverflowChunk → List OverflowChunk) : MutableCsr :=
  c.modifyRow v fun r => { r with chunks := f r.chunks }

def modifyAt (v : ℕ) (f : Nbr → Nbr) : EdgePosition → MutableCsr
  | .primary slot => c.setPrimary v ((c.primary v).modify slot f)
  | .overflow chunk slot => c.modifyChunks v fun chunks =>
      chunks.modify chunk fun ch => { ch with entries := ch.entries.modify slot f }

def mapEntries (v : ℕ) (f : Nbr → Nbr) : MutableCsr :=
  (c.setPrimary v ((c.primary v).map f)).modifyChunks v fun chunks =>
    chunks.map fun ch => { ch with entries := ch.entries.map f }

def noteEdges (n : ℕ) : MutableCsr :=
  { c with edgeCount := c.edgeCount + UInt64.ofNat n }

def dropEdges (n : ℕ) : MutableCsr :=
  { c with edgeCount := c.edgeCount - UInt64.ofNat n }

def countLive (v n : ℕ) : MutableCsr :=
  c.modifyRow v fun r => { r with liveCount := r.liveCount + n }

def uncountLive (v n : ℕ) : MutableCsr :=
  c.modifyRow v fun r => { r with liveCount := r.liveCount - n }

def notePrimaryTombstone (v slot : ℕ) : MutableCsr :=
  c.modifyRow v fun r => { r with reuseHint := some (r.reuseHint.elim slot (min slot)) }

def invalidateReuseHint (v : ℕ) : MutableCsr :=
  c.modifyRow v fun r => { r with reuseHint := none }

section

def rebuildLiveSetForVertex (v : ℕ) : MutableCsr :=
  let live := (c.positioned v).filter (·.2.isLive)
  c.modifyRow v fun r => { r with
    liveCount := live.length
    liveSet :=
      if live.length ≤ liveSetWidthBound then none
      else some (.fromPositions (live.map fun (position, n) => (n.key, position))) }

def liveKeyCount (v : ℕ) : ℕ :=
  (c.row v).liveSet.elim (c.row v).liveCount LiveKeySet.len

-- The check for duplicates, against the live set of the row or by a scan.
def isKeyLive (v : ℕ) (key : EdgeKey) : Bool :=
  match (c.row v).liveSet with
  | some set => set.contains key
  | none => (c.entries v).any fun n => n.isLive && n.key = key

-- The width that decides whether a row gets a live set counts its tombstones too.
def trackLiveInsert (v : ℕ) (key : EdgeKey) (position : EdgePosition) : MutableCsr :=
  match (c.row v).liveSet with
  | some set => c.modifyRow v fun r => { r with liveSet := some (set.insert key position) }
  | none =>
    if liveSetWidthBound < (c.row v).degree + ((c.row v).chunks.map (·.entries.length)).sum then
      c.rebuildLiveSetForVertex v
    else
      c

def trackLiveRemove (v : ℕ) (key : EdgeKey) : MutableCsr :=
  match (c.row v).liveSet with
  | none => c
  | some set =>
    let set := set.remove key
    c.modifyRow v fun r => { r with liveSet := if set.len = 0 then none else some set }

end

section

def ensureVertexCapacity (minCapacity : ℕ) : MutableCsr :=
  if minCapacity ≤ c.vertexCapacity then c
  else
    let added := grownVertexCapacity minCapacity - c.vertexCapacity
    { c with rows := c.rows ++ List.replicate added (.empty c.slots.length) }

def allocatePrimaryBlock (v : ℕ) : MutableCsr :=
  { c with
    slots := c.slots ++ List.replicate defaultVertexDegree .deadGap
    rows := c.rows.modify v fun r => { r with
      adjOffset := c.slots.length
      primaryCapacity := defaultVertexDegree } }

-- A row gets its primary block when the first edge is about to be put there.
def openRow (v : ℕ) : MutableCsr :=
  let c := c.ensureVertexCapacity (v + 1)
  if (c.row v).primaryCapacity = 0 then c.allocatePrimaryBlock v else c

def effectiveChunkEdges (live : ℕ) : ℕ :=
  if highDegreeLiveThreshold ≤ live then
    max (max (gradedOverflowChunkEdges live) highDegreeChunkEdges) 1
  else
    max (min (gradedOverflowChunkEdges live) c.overflowChunkEdges) 1

-- The blocks are laid out one after the other.
def pack : ℕ → List (List Nbr × Row) → List Row
  | _, [] => []
  | base, (block, row) :: rest =>
    { row with adjOffset := base } :: pack (base + block.length) rest

end

-- The answer lists what is removed. Nothing is when there is no cutoff.
def compactOverflowForVertex (v : ℕ) (cutoff : UInt64) : List (UInt64 × UInt64) × MutableCsr :=
  if (c.row v).chunks = [] then ([], c)
  else
    let (removed, kept) :=
      if cutoff = neverDeleted then ([], c.overflow v)
      else (c.overflow v).partition (·.isReclaimable cutoff)
    let c := c.modifyChunks v fun _ => if kept = [] then [] else [.repacked kept]
    (removed.map fun n => (n.edgeId, n.deleteTs), c.rebuildLiveSetForVertex v)

def appendOverflow (v : ℕ) (n : Nbr) (liveHint : ℕ) : MutableCsr :=
  let chunkEdges := c.effectiveChunkEdges liveHint
  let c := c.modifyChunks v fun chunks => OverflowChunk.pushToRow chunks n chunkEdges
  let chunks := (c.row v).chunks
  let tail := EdgePosition.overflow (chunks.length - 1)
    ((chunks.getLast?.elim 0 (·.entries.length)) - 1)
  let c := if n.isLive then c.trackLiveInsert v n.key tail else c
  if overflowRepackChunksPerVertex < chunks.length then
    (c.compactOverflowForVertex v neverDeleted).2
  else
    c

section

-- A slot whose entry may be overwritten: the one that the hint names, or the first one near the
-- front of the row.
def reusableSlot (v : ℕ) : Option ℕ :=
  if c.tombstoneReuseCutoff = neverDeleted then none
  else
    let reclaimable := Nbr.isReclaimable c.tombstoneReuseCutoff
    match (c.row v).reuseHint.filter fun slot => (c.primary v)[slot]?.any reclaimable with
    | some slot => some slot
    | none => ((c.primary v).take tombstoneReuseScanBound).findIdx? reclaimable

def place (v : ℕ) (n : Nbr) : MutableCsr :=
  let live := c.liveKeyCount v
  let degree := (c.row v).degree
  if degree < (c.row v).primaryCapacity then
    let c := (c.setPrimary v (c.primary v ++ [n])).countLive v 1
    (c.trackLiveInsert v n.key (.primary degree)).noteEdges 1
  else
    match c.reusableSlot v with
    | some slot =>
      let c := c.setPrimary v ((c.primary v).set slot n)
      let c := (c.invalidateReuseHint v).countLive v 1
      (c.trackLiveInsert v n.key (.primary slot)).noteEdges 1
    | none =>
      let c := if c.tombstoneReuseCutoff = neverDeleted then c else c.invalidateReuseHint v
      ((c.appendOverflow v n (live + 1)).countLive v 1).noteEdges 1

-- The texts of vertex ids are left out of the messages.
def insertEdge (v : ℕ) (dst : VertexId) (edgeId : UInt64) : StorageResult Unit × MutableCsr :=
  match decodeEndpointPair dst with
  | none => (.error ⟨.invalidInput, "Malformed edge endpoint key"⟩, c)
  | some key =>
    let c := c.openRow v
    if c.isKeyLive v key then
      (.error ⟨.edgeAlreadyExists, s!"{v}"⟩, c)
    else
      (.ok (), c.place v (.new key edgeId))

end

section

variable (v : ℕ)

def locateEdgeId (edgeId : UInt64) : Option (EdgePosition × Nbr) :=
  (c.positioned v).find? (·.2.edgeId = edgeId)

def noteTombstone : EdgePosition → MutableCsr
  | .primary slot => c.notePrimaryTombstone v slot
  | .overflow .. => c

def stampAt (position : EdgePosition) (probe : Nbr) (ts : UInt64) : MutableCsr :=
  let c := (c.modifyAt v (Nbr.stamp ts) position).noteTombstone v position
  (c.trackLiveRemove v probe.key).dropEdges 1

def deleteEdge (edgeId ts : UInt64) : StorageResult Bool × MutableCsr :=
  match c.locateEdgeId v edgeId with
  | none => (.ok false, c)
  | some (position, probe) =>
    match probe.decideSlotDelete edgeId ts with
    | .error e => (.error e, c)
    | .ok .alreadyStamped => (.ok false, c)
    | .ok .stamped => (.ok true, (c.stampAt v position probe ts).uncountLive v 1)

-- A position that no longer holds the expected edge is refused.
def deleteEdgeAtPosition (position : EdgePosition) (expected ts : UInt64) : StorageResult Bool × MutableCsr :=
  match (c.slotAtPosition v position).filter (·.edgeId = expected) with
  | none => (.ok false, c)
  | some probe =>
    match probe.decideSlotDelete expected ts with
    | .error e => (.error e, c)
    | .ok .alreadyStamped => (.ok false, c)
    | .ok .stamped => (.ok true, c.stampAt v position probe ts)

-- Deletes every match and answers with what it deleted.
def deleteEdgeByDstReportingPositioned (dst : VertexId) (ts : UInt64) :
    List (UInt64 × EdgePosition) × MutableCsr :=
  match decodeEndpointPair dst with
  | none => ([], c)
  | some key =>
    let hit (n : Nbr) : Bool := n.key = key && n.isLive
    let deleted := (c.positioned v).filter (hit ·.2)
    if deleted = [] then ([], c)
    else
      let first := (c.primary v).findIdx? hit
      let c := c.mapEntries v fun n => if hit n then n.stamp ts else n
      let c := c.uncountLive v deleted.length
      let c := first.elim c (c.notePrimaryTombstone v)
      (deleted.map fun (position, n) => (n.edgeId, position), (c.trackLiveRemove v key).dropEdges deleted.length)

end

section

variable (v : ℕ)

def forgetTombstone : EdgePosition → MutableCsr
  | .primary _ => c.invalidateReuseHint v
  | .overflow .. => c

def reviveAt (position : EdgePosition) (probe : Nbr) : MutableCsr :=
  let c := (c.modifyAt v (Nbr.stamp neverDeleted) position).noteEdges 1
  (c.forgetTombstone v position).trackLiveInsert v probe.key position

-- In the primary block the search goes on past an entry that cannot be reverted.
def revertDeleteByEdgeId (edgeId ts : UInt64) : Bool × MutableCsr :=
  let isMatch (p : EdgePosition × Nbr) : Bool := p.2.edgeId = edgeId
  let found := ((c.positioned v).find? fun p =>
      p.1.isPrimary && isMatch p && p.2.canRevertDelete ts).or
    (((c.positioned v).find? fun p => !p.1.isPrimary && isMatch p).filter (·.2.canRevertDelete ts))
  match found with
  | none => (false, c)
  | some (position, probe) => (true, c.reviveAt v position probe)

def revertDeleteAtPosition (position : EdgePosition) (expected ts : UInt64) : Bool × MutableCsr :=
  match (c.slotAtPosition v position).filter fun n =>
    n.edgeId = expected && n.canRevertDelete ts with
  | none => (false, c)
  | some probe => (true, c.reviveAt v position probe)

-- The live set holds positions, which an erasure moves.
def rebuildIfIndexed : MutableCsr :=
  if (c.row v).liveSet.isSome then c.rebuildLiveSetForVertex v else c

-- The chunks of a row without one of their entries. An empty chunk is freed.
def chunksWithout (chunks : List OverflowChunk) (chunk slot : ℕ) : List OverflowChunk :=
  let chunks := chunks.modify chunk fun ch => { ch with entries := swapRemove ch.entries slot }
  if chunks[chunk]?.all (·.entries ≠ []) then chunks else chunks.eraseIdx chunk

-- Erases an entry without a trace.
def rollbackInsert (edgeId : UInt64) : Bool × MutableCsr :=
  match c.locateEdgeId v edgeId with
  | none => (false, c)
  | some (.primary slot, probe) =>
    let c := (c.setPrimary v ((c.primary v).eraseIdx slot)).invalidateReuseHint v
    (true, if probe.isLive then ((c.uncountLive v 1).rebuildIfIndexed v).dropEdges 1 else c)
  | some (.overflow chunk slot, probe) =>
    let c := c.modifyChunks v fun chunks => chunksWithout chunks chunk slot
    if (c.row v).chunks = [] then
      let c := if probe.isLive then (c.dropEdges 1).uncountLive v 1 else c
      (true, c.rebuildLiveSetForVertex v)
    else
      (true, if probe.isLive then ((c.rebuildIfIndexed v).dropEdges 1).uncountLive v 1 else c)

end

section

def addCount (counts : List (ℕ × ℕ)) (p : ℕ × ℕ) : List (ℕ × ℕ) :=
  match counts.getLast? with
  | some last =>
    if last.1 = p.1 then counts.dropLast ++ [(last.1, last.2 + p.2)] else counts ++ [p]
  | none => [p]

def aggregate (counts : List (ℕ × ℕ)) : List (ℕ × ℕ) :=
  (counts.insertionSort (·.1 ≤ ·.1)).foldl addCount []

def wantedCapacity (p : ℕ × ℕ) : ℕ :=
  sizedRowCapacity (c.liveKeyCount p.1 + p.2)

-- The last block of the array grows in place. Any other one moves to the end and leaves gaps.
def growRow (p : ℕ × ℕ) : MutableCsr :=
  let row := c.row p.1
  let want := c.wantedCapacity p
  if want ≤ row.primaryCapacity then c
  else if row.adjOffset + row.primaryCapacity = c.slots.length then
    { c with
      slots := c.slots ++ List.replicate (want - row.primaryCapacity) .deadGap
      rows := c.rows.modify p.1 fun r => { r with primaryCapacity := want } }
  else
    { c with
      slots := splice c.slots row.adjOffset (List.replicate row.primaryCapacity .deadGap) ++
        c.primary p.1 ++ List.replicate (want - row.degree) .deadGap
      rows := c.rows.modify p.1 fun r => { r with
        adjOffset := c.slots.length
        primaryCapacity := want } }

def relocate (capacities : List ℕ) : MutableCsr :=
  let blocks := (c.rows.zip capacities).map fun (row, want) =>
    (window c.slots row.adjOffset row.primaryCapacity ++ List.replicate (want - row.primaryCapacity) .deadGap,
     { row with primaryCapacity := want, reuseHint := none })
  { c with
    slots := (blocks.map Prod.fst).flatten
    rows := pack 0 blocks }

def reserveForBatch (counts : List (ℕ × ℕ)) : MutableCsr :=
  let counts := aggregate counts
  let c := counts.foldl (fun c p => c.openRow p.1) c
  let capacities := counts.foldl
    (fun caps p => caps.set p.1 (max (caps.getD p.1 0) (c.wantedCapacity p)))
    (c.rows.map Row.primaryCapacity)
  if capacities = c.rows.map Row.primaryCapacity then
    c
  else if 8 * counts.length < max c.vertexCapacity 1 then
    counts.foldl growRow c
  else
    c.relocate capacities

end

section

abbrev RowEdgeBatch := ℕ × List (EdgeKey × UInt64)

def checkGroup (group : RowEdgeBatch) : StorageResult Unit :=
  let v := group.1
  if ¬(group.2.map Prod.fst).Nodup then
    .error ⟨.edgeAlreadyExists, s!"duplicate key in bulk batch for vertex {v}"⟩
  else
    match group.2.find? fun e => (c.visitPhysical v).any fun n => n.isLive && n.key = e.1 with
    | some ((endpoint, rank), _) =>
      .error ⟨.edgeAlreadyExists, s!"{v} -> ({endpoint}, {rank})"⟩
    | none => .ok ()

-- `live` is the width of the row, counted along.
def putEdge (v : ℕ) (s : MutableCsr × ℕ) (e : EdgeKey × UInt64) : MutableCsr × ℕ :=
  let (c, live) := s
  let n := Nbr.new e.1 e.2
  let c :=
    if (c.row v).degree < (c.row v).primaryCapacity then c.setPrimary v (c.primary v ++ [n])
    else c.appendOverflow v n (live + 1)
  (c.noteEdges 1, live + 1)

def putGroup (group : RowEdgeBatch) : MutableCsr :=
  let v := group.1
  (group.2.foldl (putEdge v) (c, c.liveKeyCount v)).1.rebuildLiveSetForVertex v

def batchPutEdges (groups : List RowEdgeBatch) (checkDuplicates : Bool) : StorageResult ℕ × MutableCsr :=
  match if checkDuplicates then groups.forM c.checkGroup else .ok () with
  | .error e => (.error e, c)
  | .ok _ =>
    let c := c.reserveForBatch (groups.map fun (v, batch) => (v, batch.length))
    (.ok (groups.map fun (_, batch) => batch.length).sum, groups.foldl putGroup c)

end

section

def rewriteRow (v : ℕ) (primary : List Nbr) (chunks : List OverflowChunk) : MutableCsr :=
  let c := (c.setPrimary v primary).invalidateReuseHint v
  (c.modifyChunks v fun _ => chunks).rebuildLiveSetForVertex v

-- Entries that are not deleted come first. What does not fit the primary block goes into one chunk.
def rebalanceRow (v : ℕ) : Bool × MutableCsr :=
  if (c.row v).primaryCapacity = 0 ∨ (c.row v).chunks = [] then (false, c)
  else
    let ordered := (c.entries v).filter (·.isLive) ++ (c.entries v).filter (!·.isLive)
    let placed := min (c.row v).primaryCapacity ordered.length
    let rest := ordered.drop placed
    (rest = [], c.rewriteRow v (ordered.take placed) (if rest = [] then [] else [.repacked rest]))

def sortKey (n : Nbr) : ℕ ×ₗ ℤ ×ₗ ℕ :=
  toLex (n.endpoint.toNat, toLex (n.rank.toInt, n.edgeId.toNat))

def sortRow (v : ℕ) : Bool × MutableCsr :=
  let sorted := (c.primary v).insertionSort fun a b => sortKey a ≤ sortKey b
  if (c.row v).primaryCapacity = 0 ∨ sorted = c.primary v then (false, c)
  else (true, ((c.setPrimary v sorted).invalidateReuseHint v).rebuildLiveSetForVertex v)

def compactVertexWithReporting (v : ℕ) (cutoff : UInt64) : List (UInt64 × UInt64) × MutableCsr :=
  if cutoff = neverDeleted ∨ ¬(c.entries v).any (·.isReclaimable cutoff) then ([], c)
  else
    let (removed, kept) := (c.primary v).partition (·.isReclaimable cutoff)
    let (removed', kept') := (c.overflow v).partition (·.isReclaimable cutoff)
    ((removed ++ removed').map fun n => (n.edgeId, n.deleteTs),
      c.rewriteRow v kept (if kept' = [] then [] else [.consolidated kept']))

def setTombstoneReuseCutoff (cutoff : UInt64) : MutableCsr :=
  { c with tombstoneReuseCutoff := min c.tombstoneReuseCutoff cutoff }

def refreshTombstoneReuseCutoff (fresh : UInt64) : MutableCsr :=
  { c with tombstoneReuseCutoff := fresh }

end

end MutableCsr
end Linkrs
