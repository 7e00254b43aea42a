import Mathlib.Data.Finset.Basic
import Linkrs.Core.Ids

namespace Linkrs

abbrev IndexGeneration := ℕ

-- The directory `generation-{generation}/shard-{shard}` of an index.
structure CheckpointDir where
  generation : IndexGeneration
  shard : ℕ
  deriving DecidableEq

-- `shards` are the checkpoint files of the shards. Their key ranges and checksums play no part here.
structure IndexManifest where
  generation : IndexGeneration
  shards : List CheckpointDir
  deriving DecidableEq

-- A generation with the manifest it was made from. A delta refers to its parent weakly: the parent is
-- there as long as something else holds it.
inductive GenerationRuntime where
  | base (manifest : IndexManifest) (maxTs : Timestamp)
  | delta (manifest : IndexManifest) (maxTs : Timestamp) (parent : GenerationRuntime)
  deriving DecidableEq

namespace GenerationRuntime

def manifest : GenerationRuntime → IndexManifest
  | base manifest _ | delta manifest _ _ => manifest

def maxTs : GenerationRuntime → Timestamp
  | base _ maxTs | delta _ maxTs _ => maxTs

def generation (o : GenerationRuntime) : IndexGeneration :=
  o.manifest.generation

def new (manifest : IndexManifest) (maxTs : Timestamp) : Option GenerationRuntime → GenerationRuntime
  | none => base manifest maxTs
  | some parent => delta manifest maxTs parent

def chainFrom (live : GenerationRuntime → Bool) : GenerationRuntime → List GenerationRuntime
  | base manifest maxTs => [base manifest maxTs]
  | delta manifest maxTs parent =>
    delta manifest maxTs parent :: if live parent then chainFrom live parent else []

end GenerationRuntime

structure ManifestCatalog where
  active : IndexManifest
  retired : List IndexManifest

namespace ManifestCatalog

def generations (c : ManifestCatalog) : List IndexGeneration :=
  c.active.generation :: c.retired.map (·.generation)

def publish (c : ManifestCatalog) (manifest : IndexManifest) : Option ManifestCatalog :=
  if manifest.generation ≤ c.active.generation then none
  else some { active := manifest, retired := c.retired ++ [c.active] }

-- The entries that only the catalog refers to: a reader's handle is a further reference.
def retiredReclaimable (c : ManifestCatalog) (pinned : IndexGeneration → Bool)
    (matching : IndexManifest → Bool) : List IndexManifest :=
  c.retired.filter fun m => !pinned m.generation && matching m

def removeRetired (c : ManifestCatalog) (generation : IndexGeneration) : ManifestCatalog :=
  { c with retired := c.retired.filter (·.generation ≠ generation) }

end ManifestCatalog

-- The generations installed in a runtime, at most one for each number.
structure IndexRuntime where
  generations : List GenerationRuntime

namespace IndexRuntime

def generation (r : IndexRuntime) (g : IndexGeneration) : Option GenerationRuntime :=
  r.generations.find? (·.generation = g)

def installGeneration (r : IndexRuntime) (o : GenerationRuntime) : IndexRuntime where
  generations := o :: r.generations.filter (·.generation ≠ o.generation)

def removeGeneration (r : IndexRuntime) (g : IndexGeneration) : IndexRuntime where
  generations := r.generations.filter (·.generation ≠ g)

def newestUntil (r : IndexRuntime) (max : IndexGeneration) : Option GenerationRuntime :=
  let upTo := r.generations.filter (·.generation ≤ max)
  upTo.find? fun o => upTo.all (·.generation ≤ o.generation)

end IndexRuntime

inductive GenerationState where
  | building
  | catchingUp
  | publishing
  | active
  deriving DecidableEq

-- What a thread is doing with the index, between two accesses to the catalog, the runtime or the file
-- system.
inductive IndexTask where
  | idle
  -- `open_tag_index_cursor_full`: behind `acquire`, in the loop of `pin_chain_manifests`, and behind the
  -- first half of `acquire_generation`.
  | acquired (handle : IndexManifest)
  | pinning (handle : IndexManifest) (chain todo : List GenerationRuntime) (pins : List IndexGeneration)
  | seeking (handle : IndexManifest) (chain : List GenerationRuntime) (sought : GenerationRuntime)
    (todo : List GenerationRuntime) (pins : List IndexGeneration)
  | cursor (chain : List GenerationRuntime) (pins : List IndexGeneration)
  -- A publication, from the copy of the active manifest to the new one.
  | preparing (current : IndexManifest)
  | discarding (current : IndexManifest) (generation : IndexGeneration)
  | prepared (current : IndexManifest) (next : GenerationRuntime)
  | confirmed (next : GenerationRuntime)
  | installed (next : IndexManifest)
  -- `retire_generations`
  | retiring (safeTs : Timestamp) (active : IndexGeneration)
  | removing (todo : List IndexGeneration) (retired : Bool)
  -- `reclaim_retired_generations`
  | reclaiming (active : IndexGeneration)
  | deleting (current : IndexManifest) (shards : List CheckpointDir) (rest : List IndexManifest)

namespace IndexTask

def handles : IndexTask → List IndexGeneration
  | acquired handle => [handle.generation]
  | pinning handle _ _ pins => handle.generation :: pins
  | seeking handle _ _ _ pins => handle.generation :: pins
  | cursor _ pins => pins
  | _ => []

def chain : IndexTask → List GenerationRuntime
  | pinning _ chain _ _ | seeking _ chain _ _ _ | cursor chain _ => chain
  | _ => []

-- What the thread is going to delete, or is deleting.
def candidates : IndexTask → List IndexManifest
  | deleting current _ rest => current :: rest
  | _ => []

def reclaimNext : List IndexManifest → IndexTask
  | [] => idle
  | m :: rest => deleting m m.shards rest

end IndexTask

-- The accesses to the index, each a single step of the thread that makes it.
inductive IndexAction where
  | acquire
  -- `held` are the generations that are kept by references outside of the runtime and of all chains.
  | readChain (held : List GenerationRuntime)
  | checkActive
  | checkRetired
  | finishOpen
  | close
  | prepare
  | resolve
  | discard
  | build (next : IndexManifest) (maxTs : Timestamp) (parented : Bool)
  | confirm
  | proceed
  | install
  | publish
  | retire (safeTs : Timestamp)
  | listGenerations
  | removeGeneration
  | finishRetire
  | reclaim
  | collect
  | deleteDir
  | failDelete
  | forget
  | flush (manifest : IndexManifest)
  | saveBuildState (state : Option (IndexGeneration × GenerationState))
  | store (generation : IndexGeneration)

structure IndexSystem where
  catalog : ManifestCatalog
  runtime : IndexRuntime
  -- The checkpoint directories that exist.
  dirs : Finset CheckpointDir
  -- The build state that splits save and remove, and the generation in `manifest.bin`.
  buildState : Option (IndexGeneration × GenerationState)
  stored : Option IndexGeneration
  tasks : List IndexTask

namespace IndexSystem

def new (threads : ℕ) : IndexSystem where
  catalog := { active := ⟨1, [⟨1, 0⟩]⟩, retired := [] }
  runtime := { generations := [.base ⟨1, [⟨1, 0⟩]⟩ 0] }
  dirs := ∅
  buildState := none
  stored := none
  tasks := List.replicate threads .idle

def become (s : IndexSystem) (t : ℕ) (task : IndexTask) : IndexSystem :=
  { s with tasks := s.tasks.set t task }

def pinned (s : IndexSystem) (g : IndexGeneration) : Bool :=
  s.tasks.any fun task => g ∈ task.handles

def live (s : IndexSystem) (held : List GenerationRuntime) (o : GenerationRuntime) : Bool :=
  o ∈ s.runtime.generations || o ∈ held || s.tasks.any fun task => o ∈ task.chain

-- What `retire_generations` removes: old generations that no reader at `safeTs` or later looks into.
def expired (s : IndexSystem) (safeTs : Timestamp) (active : IndexGeneration) : List IndexGeneration :=
  (s.runtime.generations.filter fun o => o.generation < active && o.maxTs < safeTs).map (·.generation)

def reclaimable (s : IndexSystem) (active : IndexGeneration) : List IndexManifest :=
  s.catalog.retiredReclaimable s.pinned fun m =>
    m.generation < active && (s.runtime.generation m.generation).isNone

-- The generation whose unfinished build `resolve_split_crash_recovery` discards.
def unfinished (s : IndexSystem) : Option IndexGeneration :=
  match s.buildState with
  | some (g, .building) | some (g, .catchingUp) => some g
  | some (g, .publishing) => if s.stored = some g then none else some g
  | _ => none

def perform (s : IndexSystem) (t : ℕ) : IndexTask → IndexAction → Option IndexSystem
  -- `open_tag_index_cursor_full`
  | .idle, .acquire => s.become t (.acquired s.catalog.active)
  | .acquired handle, .readChain held =>
    match s.runtime.newestUntil handle.generation with
    | none => s.become t .idle
    | some o => s.become t (.pinning handle (o.chainFrom (s.live held)) (o.chainFrom (s.live held)) [])
  | .pinning handle chain (o :: todo) pins, .checkActive =>
    if s.catalog.active.generation = o.generation then
      s.become t (.pinning handle chain todo (o.generation :: pins))
    else
      s.become t (.seeking handle chain o todo pins)
  | .seeking handle chain o todo pins, .checkRetired =>
    if s.catalog.retired.any (·.generation = o.generation) then
      s.become t (.pinning handle chain todo (o.generation :: pins))
    else
      s.become t (.pinning handle chain todo pins)
  | .pinning _ chain [] pins, .finishOpen => s.become t (.cursor chain pins)
  | .cursor .., .close => s.become t .idle
  -- Publications. A split discards what an earlier one left behind; a rebuild does not look at the active
  -- generation again before it installs its own.
  | .idle, .prepare => s.become t (.preparing s.catalog.active)
  | .preparing current, .resolve =>
    match s.unfinished with
    | none => s.become t (.preparing current)
    | some g => s.become t (.discarding current g)
  | .discarding current g, .discard =>
    { s with dirs := s.dirs.filter (·.generation ≠ g) }.become t (.preparing current)
  | .preparing current, .build next maxTs parented =>
    if current.generation < next.generation then
      s.become t (.prepared current (.new next maxTs
        (if parented then s.runtime.generation current.generation else none)))
    else
      none
  | .prepared current next, .confirm =>
    if s.catalog.active.generation = current.generation then s.become t (.confirmed next)
    else s.become t .idle
  | .prepared _ next, .proceed => s.become t (.confirmed next)
  | .confirmed next, .install =>
    { s with runtime := s.runtime.installGeneration next }.become t (.installed next.manifest)
  | .installed next, .publish =>
    match s.catalog.publish next with
    | none => s.become t .idle
    | some catalog => { s with catalog }.become t .idle
  -- `retire_generations`
  | .idle, .retire safeTs =>
    if safeTs = 0 then s.become t .idle else s.become t (.retiring safeTs s.catalog.active.generation)
  | .retiring safeTs active, .listGenerations => s.become t (.removing (s.expired safeTs active) false)
  | .removing (g :: todo) retired, .removeGeneration =>
    { s with runtime := s.runtime.removeGeneration g }.become t
      (.removing todo (retired || (s.runtime.generation g).isSome))
  | .removing [] retired, .finishRetire =>
    if retired then s.become t (.reclaiming s.catalog.active.generation) else s.become t .idle
  -- `reclaim_retired_generations`
  | .idle, .reclaim => s.become t (.reclaiming s.catalog.active.generation)
  | .reclaiming active, .collect => s.become t (.reclaimNext (s.reclaimable active))
  | .deleting m (p :: shards) rest, .deleteDir =>
    { s with dirs := s.dirs.erase p }.become t (.deleting m shards rest)
  | .deleting _ (_ :: _) _, .failDelete => s.become t .idle
  | .deleting m [] rest, .forget =>
    { s with catalog := s.catalog.removeRetired m.generation }.become t (.reclaimNext rest)
  | _, .flush manifest => some { s with dirs := s.dirs ∪ manifest.shards.toFinset }
  | _, .saveBuildState state => some { s with buildState := state }
  | _, .store generation => some { s with stored := some generation }
  | _, _ => none

def step (s : IndexSystem) (e : ℕ × IndexAction) : Option IndexSystem := do
  s.perform e.1 (← s.tasks[e.1]?) e.2

end IndexSystem
end Linkrs
