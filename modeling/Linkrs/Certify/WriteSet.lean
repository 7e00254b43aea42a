import Mathlib.Data.Finset.Card
import Linkrs.Core.Ids

namespace Linkrs

open Finset

structure ReadRange where
  label : String
  column : Option String
  start : Option VertexId
  stop : Option VertexId
  deriving DecidableEq

-- The bounds are inclusive and compared bytewise; label and column are not looked at.
def ReadRange.contains (r : ReadRange) (vid : VertexId) : Bool :=
  r.start.all (fun start => !decide (vid.bytes < start.bytes)) &&
  r.stop.all (fun stop => !decide (stop.bytes < vid.bytes))

inductive ResourceId where
  | vertex (vid : VertexId)
  | edge (edge : EdgeIdentifier)
  | schema (resource : String)
  | index (resource : String)
  deriving DecidableEq

-- The same type serves as write set and as read set. The endpoint and deletion sets are derived
-- from what was recorded, so they cannot name anything the edge and vertex sets do not.
structure WriteSet where
  vertices : Finset VertexId
  edges : Finset EdgeIdentifier
  edgeEndpoints : Finset VertexId
  deletedVertices : Finset VertexId
  schemaResources : Finset String
  indexResources : Finset String
  readRanges : List ReadRange
  endpoints_eq : edgeEndpoints = edges.image (·.srcVid) ∪ edges.image (·.dstVid)
  deleted_sub : deletedVertices ⊆ vertices
  deriving DecidableEq

namespace WriteSet

def new : WriteSet where
  vertices := ∅
  edges := ∅
  edgeEndpoints := ∅
  deletedVertices := ∅
  schemaResources := ∅
  indexResources := ∅
  readRanges := []
  endpoints_eq := by simp
  deleted_sub := by simp

def recordVertex (ws : WriteSet) (vid : VertexId) : WriteSet :=
  { ws with
    vertices := insert vid ws.vertices
    deleted_sub := ws.deleted_sub.trans (subset_insert ..) }

def recordVertexDelete (ws : WriteSet) (vid : VertexId) : WriteSet :=
  { ws with
    vertices := insert vid ws.vertices
    deletedVertices := insert vid ws.deletedVertices
    deleted_sub := insert_subset_insert _ ws.deleted_sub }

def recordEdge (ws : WriteSet) (edge : EdgeIdentifier) : WriteSet :=
  { ws with
    edgeEndpoints := insert edge.srcVid (insert edge.dstVid ws.edgeEndpoints)
    edges := insert edge ws.edges
    endpoints_eq := by
      rw [ws.endpoints_eq, image_insert, image_insert]
      ext v
      simp only [mem_insert, mem_union]
      tauto }

def recordSchemaResource (ws : WriteSet) (resource : String) : WriteSet :=
  { ws with schemaResources := insert resource ws.schemaResources }

def recordIndexResource (ws : WriteSet) (resource : String) : WriteSet :=
  { ws with indexResources := insert resource ws.indexResources }

def recordReadRange (ws : WriteSet) (range : ReadRange) : WriteSet :=
  { ws with readRanges := ws.readRanges ++ [range] }

def isEmpty (ws : WriteSet) : Bool :=
  ws.vertices = ∅ && ws.edges = ∅ && ws.schemaResources = ∅ && ws.indexResources = ∅ &&
  ws.readRanges = []

def size (ws : WriteSet) : ℕ :=
  ws.vertices.card + ws.edges.card

def overlaps {α : Type} [DecidableEq α] (s t : Finset α) : Bool :=
  !decide (Disjoint s t)

def hasConflictWith (ws other : WriteSet) : Bool :=
  overlaps ws.vertices other.vertices ||
  overlaps ws.edges other.edges ||
  (overlaps ws.deletedVertices other.edgeEndpoints || overlaps other.deletedVertices ws.edgeEndpoints) ||
  (overlaps ws.schemaResources other.schemaResources || overlaps ws.indexResources other.indexResources) ||
  (ws.schemaResources ≠ ∅ && (other.vertices ≠ ∅ || other.edges ≠ ∅) ||
    other.schemaResources ≠ ∅ && (ws.vertices ≠ ∅ || ws.edges ≠ ∅))

def hasReadRangeConflictWith (ws committed : WriteSet) : Bool :=
  ws.readRanges.any fun range =>
    decide (∃ vid ∈ committed.vertices, range.contains vid) ||
    decide (∃ edge ∈ committed.edges, range.contains edge.srcVid || range.contains edge.dstVid)

def hasReadConflictWith (ws committed : WriteSet) : Bool :=
  overlaps committed.vertices ws.vertices ||
  overlaps committed.edges ws.edges ||
  (overlaps ws.schemaResources committed.schemaResources || overlaps ws.indexResources committed.indexResources) ||
  ws.hasReadRangeConflictWith committed

def hasSsiResource (ws : WriteSet) : ResourceId → Bool
  | .vertex vid => vid ∈ ws.vertices
  | .edge edge => edge ∈ ws.edges
  | .schema resource => resource ∈ ws.schemaResources
  | .index resource => resource ∈ ws.indexResources

theorem overlaps_comm [DecidableEq α] (s t : Finset α) : overlaps s t = overlaps t s := by
  simp [overlaps, disjoint_comm]

@[simp]
theorem overlaps_empty {α : Type} [DecidableEq α] (s : Finset α) : overlaps ∅ s = false := by
  simp [overlaps]

theorem not_overlaps_iff [DecidableEq α] {s t : Finset α} : overlaps s t = false ↔ Disjoint s t := by
  simp [overlaps]

theorem hasConflictWith_comm (ws other : WriteSet) : ws.hasConflictWith other = other.hasConflictWith ws := by
  simp only [hasConflictWith, overlaps_comm other.vertices, overlaps_comm other.edges,
    overlaps_comm other.schemaResources, overlaps_comm other.indexResources]
  rw [Bool.or_comm (overlaps ws.deletedVertices other.edgeEndpoints), Bool.or_comm (ws.schemaResources ≠ ∅ && _)]

-- A set without resources conflicts with nothing: its derived sets are empty as well.
theorem hasConflictWith_of_isEmpty {ws other : WriteSet} (h : ws.isEmpty) : ws.hasConflictWith other = false := by
  have ⟨⟨⟨⟨hv, he⟩, hs⟩, hi⟩, _⟩ : (((ws.vertices = ∅ ∧ ws.edges = ∅) ∧
      ws.schemaResources = ∅) ∧ ws.indexResources = ∅) ∧ ws.readRanges = [] := by
    simpa [isEmpty] using h
  have hd : ws.deletedVertices = ∅ := subset_empty.mp (hv ▸ ws.deleted_sub)
  have hp : ws.edgeEndpoints = ∅ := by simp [ws.endpoints_eq, he]
  simp [hasConflictWith, hv, he, hs, hi, hd, hp, overlaps_comm other.deletedVertices]

end WriteSet
end Linkrs
