import Linkrs.Certify.Certifier
import Linkrs.Lib.Transition

namespace Linkrs

open Transition Option WriteSet

-- The calls that change a certifier. The tables of active transactions are those at the time of the
-- call.
inductive CertifierCall where
  | checkWriteSetConflict (txnId : TransactionId) (ctx : TransactionContext) (active : ActiveTransactions)
  | publish (txnId : TransactionId) (writeTimestamp start : Timestamp) (ws : WriteSet) (active : ActiveTransactions)
  | forcePublish (txnId : TransactionId) (commitTimestamp : Timestamp) (ws : WriteSet)
  | unregisterReads (txnId : TransactionId)
  | prune (oldestActiveTs : Timestamp)

namespace Certifier

-- A publication that is refused changes nothing.
def step (c : Certifier) : CertifierCall → Option Certifier
  | .checkWriteSetConflict txnId ctx active => some (c.checkWriteSetConflict txnId ctx active).1
  | .publish txnId writeTimestamp start ws active =>
    some ((c.publish txnId writeTimestamp start ws active).toOption.getD c)
  | .forcePublish txnId commitTimestamp ws => some (c.forcePublish txnId commitTimestamp ws)
  | .unregisterReads txnId => some (c.unregisterReads txnId)
  | .prune oldestActiveTs => some (c.prune oldestActiveTs)

-- The parts of `has_conflict_with` that compare resources of the same kind, and those that do not:
-- edges at deleted vertices, and data under a changing schema.
def sameKindConflict (ws other : WriteSet) : Bool :=
  overlaps ws.vertices other.vertices || overlaps ws.edges other.edges ||
    (overlaps ws.schemaResources other.schemaResources || overlaps ws.indexResources other.indexResources)

def crossKindConflict (ws other : WriteSet) : Bool :=
  (overlaps ws.deletedVertices other.edgeEndpoints || overlaps other.deletedVertices ws.edgeEndpoints) ||
  (ws.schemaResources ≠ ∅ && (other.vertices ≠ ∅ || other.edges ≠ ∅) ||
    other.schemaResources ≠ ∅ && (ws.vertices ≠ ∅ || ws.edges ≠ ∅))

theorem hasConflictWith_eq (ws other : WriteSet) :
    ws.hasConflictWith other = (sameKindConflict ws other || crossKindConflict ws other) := by
  rw [hasConflictWith, sameKindConflict, crossKindConflict]
  ac_rfl

end Certifier

section

variable {V : Type} [DecidableEq V] {index : ConflictIndex V} {committed : List (Timestamp × WriteSet)}
variable {resources : WriteSet → Finset V} {r : V} {since ts : Timestamp} {txnId : TransactionId} {ws : WriteSet}

-- An index holds the resources of the retained write sets, with their commit timestamps.
def ConflictIndex.Summarises (index : ConflictIndex V) (committed : List (Timestamp × WriteSet))
    (resources : WriteSet → Finset V) : Prop :=
  ∀ r ts, (∃ id, (r, ts, id) ∈ index.entries) ↔ ∃ ws, (ts, ws) ∈ committed ∧ r ∈ resources ws

namespace ConflictIndex

theorem Summarises.addAll (h : index.Summarises committed resources) :
    (index.addAll ts txnId (resources ws)).Summarises (committed ++ [(ts, ws)]) resources := by
  intro r' ts'
  have h := h r' ts'
  simp only [ConflictIndex.addAll, Finset.mem_union, Finset.mem_image, List.mem_append, List.mem_singleton,
    Prod.mk.injEq] at h ⊢
  constructor
  · rintro ⟨id, hold | ⟨_, hr, rfl, rfl, rfl⟩⟩
    · obtain ⟨ws', hws', hr⟩ := h.mp ⟨id, hold⟩
      exact ⟨ws', .inl hws', hr⟩
    · exact ⟨ws, .inr ⟨rfl, rfl⟩, hr⟩
  · rintro ⟨ws', hold | ⟨rfl, rfl⟩, hr⟩
    · obtain ⟨id, hid⟩ := h.mpr ⟨ws', hold, hr⟩
      exact ⟨id, .inl hid⟩
    · exact ⟨txnId, .inr ⟨r', hr, rfl, rfl, rfl⟩⟩

omit [DecidableEq V] in
theorem Summarises.prune (h : index.Summarises committed resources) (oldest : Timestamp) :
    (index.prune oldest).Summarises (committed.filter fun (ts, _) => oldest < ts) resources := by
  intro r' ts'
  have h := h r' ts'
  simp only [ConflictIndex.prune, Finset.mem_filter, List.mem_filter, decide_eq_true_eq]
  constructor
  · rintro ⟨id, hid, hts⟩
    have ⟨ws, hws, hr⟩ := h.mp ⟨id, hid⟩
    exact ⟨ws, ⟨hws, hts⟩, hr⟩
  · rintro ⟨ws, ⟨hws, hts⟩, hr⟩
    have ⟨id, hid⟩ := h.mpr ⟨ws, hws, hr⟩
    exact ⟨id, hid, hts⟩

theorem Summarises.conflictsAfter_iff (h : index.Summarises committed resources) :
    index.conflictsAfter r since ↔ ∃ p ∈ committed, since < p.1 ∧ r ∈ resources p.2 := by
  simp only [ConflictIndex.conflictsAfter, decide_eq_true_eq]
  constructor
  · rintro ⟨⟨_, ts, id⟩, he, rfl, hts⟩
    have ⟨ws, hws, hr⟩ := (h _ ts).mp ⟨id, he⟩
    exact ⟨(ts, ws), hws, hts, hr⟩
  · rintro ⟨⟨ts, ws⟩, hws, hts, hr⟩
    have ⟨id, hid⟩ := (h r ts).mpr ⟨ws, hws, hr⟩
    exact ⟨(r, ts, id), hid, rfl, hts⟩

-- A probe of all resources of a set finds nothing iff no retained set has one of them.
theorem Summarises.not_probe_iff (h : index.Summarises committed resources) :
    (¬∃ r ∈ resources ws, index.conflictsAfter r since) ↔
      ∀ p ∈ committed, since < p.1 → overlaps (resources ws) (resources p.2) = false := by
  simp only [h.conflictsAfter_iff, not_overlaps_iff, Finset.disjoint_left]
  constructor
  · intro hn p hp hts r hr hr'
    exact hn ⟨r, hr, p, hp, hts, hr'⟩
  · rintro hn ⟨r, hr, p, hp, hts, hr'⟩
    exact hn p hp hts hr hr'

end ConflictIndex
end

namespace Certifier

variable {c c' : Certifier} {txnId : TransactionId} {ctx : TransactionContext} {active active' : ActiveTransactions}
variable {start ts : Timestamp} {ws : WriteSet} {call : CertifierCall}

-- The four indices say of the retained write sets what there is to say, kind by kind.
structure Indexed (c : Certifier) : Prop where
  vertices : c.vertexWrites.Summarises c.committedWriteSets (·.vertices)
  edges : c.edgeWrites.Summarises c.committedWriteSets (·.edges)
  schemas : c.schemaWrites.Summarises c.committedWriteSets (·.schemaResources)
  indexes : c.indexWrites.Summarises c.committedWriteSets (·.indexResources)

theorem indexed_new : Certifier.new.Indexed := by
  constructor <;> simp [ConflictIndex.Summarises, Certifier.new, ConflictIndex.new]

theorem Indexed.insertCommitted (h : c.Indexed) : (c.insertCommitted txnId ts ws).Indexed where
  vertices := h.vertices.addAll
  edges := h.edges.addAll
  schemas := h.schemas.addAll
  indexes := h.indexes.addAll

theorem Indexed.pruneNow (h : c.Indexed) (oldest : Timestamp) : (c.pruneNow oldest).Indexed where
  vertices := h.vertices.prune oldest
  edges := h.edges.prune oldest
  schemas := h.schemas.prune oldest
  indexes := h.indexes.prune oldest

theorem Indexed.checkWriteSetConflict (h : c.Indexed) : (c.checkWriteSetConflict txnId ctx active).1.Indexed := by
  simp only [Certifier.checkWriteSetConflict]
  split
  · exact h
  · split
    · exact h
    · split <;> split <;> exact ⟨h.vertices, h.edges, h.schemas, h.indexes⟩

theorem Indexed.step (h : c.Indexed) (hs : c.step call = some c') : c'.Indexed := by
  have hkept {t : SsiTracker} : Indexed { c with ssiTracker := t } := ⟨h.vertices, h.edges, h.schemas, h.indexes⟩
  cases call with
  | checkWriteSetConflict txnId ctx active => cases hs; exact h.checkWriteSetConflict
  | unregisterReads txnId => cases hs; exact hkept
  | publish txnId writeTimestamp start ws active =>
    cases hs
    rw [publish]
    split
    case isTrue => exact hkept
    case isFalse =>
      split
      case h_1 => exact h
      case h_2 => exact h.insertCommitted
  | forcePublish txnId commitTimestamp ws =>
    cases hs
    rw [forcePublish]
    split
    case isTrue => exact hkept
    case isFalse => exact h.insertCommitted
  | prune oldest =>
    cases hs
    rw [prune]
    split
    case isTrue =>
      have hp := h.pruneNow oldest
      exact ⟨hp.vertices, hp.edges, hp.schemas, hp.indexes⟩
    case isFalse => exact ⟨h.vertices, h.edges, h.schemas, h.indexes⟩

theorem indexed_of_run (r : FreeRun step .new calls c) : c.Indexed :=
  r.invariant (fun h _ hs => h.step hs) indexed_new

-- The pre-check probes for conflicts of the same kind only.
theorem Indexed.probeCommittedWrites_eq_none_iff (h : c.Indexed) : c.probeCommittedWrites start ws = none ↔
      ∀ p ∈ c.committedWriteSets, start < p.1 → sameKindConflict ws p.2 = false := by
  have hprobe : c.probeCommittedWrites start ws = none ↔
      (¬∃ v ∈ ws.vertices, c.vertexWrites.conflictsAfter v start) ∧
      (¬∃ e ∈ ws.edges, c.edgeWrites.conflictsAfter e start) ∧
      (¬∃ r ∈ ws.schemaResources, c.schemaWrites.conflictsAfter r start) ∧
      (¬∃ r ∈ ws.indexResources, c.indexWrites.conflictsAfter r start) := by
    rw [probeCommittedWrites, probeCommitted]
    split_ifs <;> simp_all
  rw [hprobe, h.vertices.not_probe_iff, h.edges.not_probe_iff, h.schemas.not_probe_iff, h.indexes.not_probe_iff]
  simp only [sameKindConflict, Bool.or_eq_false_iff]
  constructor
  · rintro ⟨hv, he, hs, hi⟩ p hp hts
    exact ⟨⟨hv p hp hts, he p hp hts⟩, hs p hp hts, hi p hp hts⟩
  · intro hp
    exact ⟨fun p h hts => (hp p h hts).1.1, fun p h hts => (hp p h hts).1.2,
      fun p h hts => (hp p h hts).2.1, fun p h hts => (hp p h hts).2.2⟩

-- The other transactions whose write sets certification looks at.
def ActiveWriter (txnId : TransactionId) (active : ActiveTransactions) (e : TransactionId × TransactionContext) : Prop :=
  e ∈ active ∧ e.1 ≠ txnId ∧ e.2.readOnly = false ∧ e.2.writeValidated = true

theorem mem_scan_iff : (e ∈ active ∧ (decide (e.1 = txnId) || e.2.readOnly || !e.2.writeValidated) = false) ↔
      ActiveWriter txnId active e := by
  simp [ActiveWriter, and_assoc]

theorem review_eq_none_iff : c.review txnId start ws active = none ↔
      (∀ e, ActiveWriter txnId active e → ws.hasConflictWith e.2.writeSet = false) ∧
      ∀ p ∈ c.committedWriteSets, start < p.1 → ws.hasConflictWith p.2 = false := by
  rw [review, orElse_eq_orElse, orElse_eq_or, or_eq_none_iff, List.findSome?_eq_none_iff]
  refine and_congr ?_ ?_
  · simp only [← mem_scan_iff, and_imp]
    refine forall_congr' fun e => imp_congr_right fun _ => ?_
    split
    case isTrue hs => simp [hs]
    case isFalse hs => simp [hs]
  · rw [ite_eq_right_iff, anyCommittedAfter, List.any_eq_true]
    simp

theorem not_conflict_of_scanActiveTransactions (h : scanActiveTransactions txnId ctx active = none)
    (he : ActiveWriter txnId active e) : ctx.writeSet.hasConflictWith e.2.writeSet = false := by
  have ⟨hmem, hscan⟩ := mem_scan_iff.mpr he
  have hnone := List.findSome?_eq_none_iff.mp h e hmem
  cases hconflict : ctx.writeSet.hasConflictWith e.2.writeSet with
  | false => rfl
  | true => simp [hscan, hconflict] at hnone

-- What the pre-check cannot see: conflicts with committed sets between resources of different kinds,
-- and, of a transaction that bypasses it, everything.
structure NothingUnseen (c : Certifier) (txnId : TransactionId) (ctx : TransactionContext) (active : ActiveTransactions) :
    Prop where
  cross : ∀ p ∈ c.committedWriteSets, ctx.startTimestamp < p.1 → crossKindConflict ctx.writeSet p.2 = false
  bypassed : bypassesCheck ctx →
    (∀ e, ActiveWriter txnId active e → ctx.writeSet.hasConflictWith e.2.writeSet = false) ∧
    ∀ p ∈ c.committedWriteSets, ctx.startTimestamp < p.1 → sameKindConflict ctx.writeSet p.2 = false

-- A passed pre-check of an optimistic transaction leaves the committed sets as they are. Unless it was
-- bypassed, it has seen all active writers and all conflicts of the same kind.
theorem committedWriteSets_check :
    (c.checkWriteSetConflict txnId ctx active).1.committedWriteSets = c.committedWriteSets := by
  simp only [checkWriteSetConflict]
  split
  · rfl
  · split
    · rfl
    · split <;> split <;> rfl

theorem Indexed.seen_of_check (h : c.Indexed) (hm : ctx.concurrencyMode = .optimistic) (hb : bypassesCheck ctx = false)
    (hok : (c.checkWriteSetConflict txnId ctx active).2.2 = .ok ()) :
    (∀ e, ActiveWriter txnId active e → ctx.writeSet.hasConflictWith e.2.writeSet = false) ∧
    ∀ p ∈ c.committedWriteSets, ctx.startTimestamp < p.1 → sameKindConflict ctx.writeSet p.2 = false := by
  -- Registering the reads keeps the indices and the committed sets.
  obtain ⟨c₁, hc₁, hsets, hnone⟩ : ∃ c₁ : Certifier, c₁.Indexed ∧ c₁.committedWriteSets = c.committedWriteSets ∧
      c₁.findConflict txnId ctx active = none := by
    simp only [Certifier.checkWriteSetConflict, hb, hm, reduceCtorEq, if_false, Bool.false_eq_true] at hok
    split at hok
    case h_1 => cases hok
    case h_2 hnone =>
      refine ⟨_, ?_, ?_, hnone⟩
      · split
        · exact ⟨h.vertices, h.edges, h.schemas, h.indexes⟩
        · exact h
      · split <;> rfl
  simp only [findConflict, orElse_eq_orElse, orElse_eq_or, or_eq_none_iff] at hnone
  obtain ⟨hactive, hprobe, -⟩ := hnone
  exact ⟨fun _ he => not_conflict_of_scanActiveTransactions hactive he,
    hsets ▸ hc₁.probeCommittedWrites_eq_none_iff.mp hprobe⟩

theorem publish_isOk_iff :
    (c.publish txnId commit start ws active).isOk ↔ ws.isEmpty ∨ c.review txnId start ws active = none := by
  rw [publish]
  split
  case isTrue he => simp [he, Except.isOk, Except.toBool]
  case isFalse he => split <;> simp_all [Except.isOk, Except.toBool]

theorem precheck_review_agree_iff {calls : List CertifierCall} {commit : Timestamp} (r : FreeRun step .new calls c)
    (hm : ctx.concurrencyMode = .optimistic) (hok : (c.checkWriteSetConflict txnId ctx active).2.2 = .ok ())
    (hsame : ∀ e, e.1 ≠ txnId → (e ∈ active' ↔ e ∈ active)) :
    ((c.checkWriteSetConflict txnId ctx active).1.publish txnId commit ctx.startTimestamp ctx.writeSet active').isOk ↔
      NothingUnseen c txnId ctx active := by
  have hwriters e : ActiveWriter txnId active' e ↔ ActiveWriter txnId active e := by
    by_cases he : e.1 = txnId
    · simp [ActiveWriter, he]
    · simp [ActiveWriter, hsame e he]
  rw [publish_isOk_iff, review_eq_none_iff, committedWriteSets_check]
  simp only [hwriters]
  constructor
  · intro h
    have hnone : (∀ e, ActiveWriter txnId active e → ctx.writeSet.hasConflictWith e.2.writeSet = false) ∧
        ∀ p ∈ c.committedWriteSets, ctx.startTimestamp < p.1 → ctx.writeSet.hasConflictWith p.2 = false := by
      obtain hempty | hnone := h
      · exact ⟨fun _ _ => hasConflictWith_of_isEmpty hempty, fun _ _ _ => hasConflictWith_of_isEmpty hempty⟩
      · exact hnone
    have hkinds p hp hlt := Bool.or_eq_false_iff.mp (hasConflictWith_eq .. ▸ hnone.2 p hp hlt)
    exact ⟨fun p hp hlt => (hkinds p hp hlt).2, fun _ => ⟨hnone.1, fun p hp hlt => (hkinds p hp hlt).1⟩⟩
  · intro h
    have ⟨hactive, hsameKind⟩ : (∀ e, ActiveWriter txnId active e → ctx.writeSet.hasConflictWith e.2.writeSet = false) ∧
        ∀ p ∈ c.committedWriteSets, ctx.startTimestamp < p.1 → sameKindConflict ctx.writeSet p.2 = false := by
      by_cases hb : bypassesCheck ctx
      · exact h.bypassed hb
      · exact (indexed_of_run r).seen_of_check hm (Bool.not_eq_true _ ▸ hb) hok
    refine .inr ⟨hactive, fun p hp hlt => ?_⟩
    rw [hasConflictWith_eq, hsameKind p hp hlt, h.cross p hp hlt, Bool.or_false]

section

-- A vertex deleted by transaction 1, which commits at timestamp 5 while transaction 2, started at 3,
-- writes an edge.
def vertexAt (i : UInt8) : VertexId where
  kind := .int
  bytes := [i]
  len_le := by simp

def edgeWriter : TransactionContext :=
  { TransactionContext.new .write 3 .repeatableRead .default with
    writeSet := WriteSet.new.recordEdge ⟨0, vertexAt 1, 0, vertexAt 2, 0, 0⟩ }

def afterDeletion (i : UInt8) : Certifier :=
  Certifier.new.insertCommitted 1 5 (WriteSet.new.recordVertexDelete (vertexAt i))

theorem run_afterDeletion (i : UInt8) :
    FreeRun step .new [.publish 1 5 2 (WriteSet.new.recordVertexDelete (vertexAt i)) []] (afterDeletion i) := by
  have hempty : (WriteSet.new.recordVertexDelete (vertexAt i)).isEmpty = false := by
    simp [isEmpty, recordVertexDelete, WriteSet.new]
  refine .step trivial ?_ .refl
  simp [step, publish, hempty, review, anyCommittedAfter, Certifier.new, afterDeletion, Except.toOption]

theorem precheck_review_agree_apart :
    ((afterDeletion 3).checkWriteSetConflict 2 edgeWriter [(2, edgeWriter)]).2.2 = .ok () ∧
    (((afterDeletion 3).checkWriteSetConflict 2 edgeWriter [(2, edgeWriter)]).1.publish 2 6 3 edgeWriter.writeSet
      [(2, { edgeWriter with writeValidated := true })]).isOk := by
  have hok : ((afterDeletion 3).checkWriteSetConflict 2 edgeWriter [(2, edgeWriter)]).2.2 = .ok () := by
    decide +kernel
  refine ⟨hok, (precheck_review_agree_iff (run_afterDeletion 3) rfl hok ?_).mpr ⟨?_, ?_⟩⟩
  · intro e he
    simp only [List.mem_singleton]
    constructor <;> rintro rfl <;> exact absurd rfl he
  · decide +kernel
  · intro hb
    exact absurd hb (by decide +kernel)

-- The vertex is an endpoint of the edge: the pre-check compares vertices with vertices and edges with
-- edges, and only the final review compares deleted vertices with endpoints.
theorem precheck_passes_review_refuses :
    FreeRun step .new [.publish 1 5 2 (WriteSet.new.recordVertexDelete (vertexAt 1)) []] (afterDeletion 1) ∧
    ((afterDeletion 1).checkWriteSetConflict 2 edgeWriter [(2, edgeWriter)]).2.2 = .ok () ∧
    ((afterDeletion 1).checkWriteSetConflict 2 edgeWriter [(2, edgeWriter)]).1.publish 2 6 3 edgeWriter.writeSet
      [(2, { edgeWriter with writeValidated := true })] =
      .error (.serializationFailed .writeWrite .publishCommitted) := by
  refine ⟨run_afterDeletion 1, ?_, rfl⟩
  decide +kernel

-- The four indices answer as a look at all retained write sets does, whatever was published and pruned.
theorem probe_agrees_with_scan {calls : List CertifierCall} (r : FreeRun step .new calls c)
    (start : Timestamp) (ws : WriteSet) : c.probeCommittedWrites start ws = none ↔
      ∀ p ∈ c.committedWriteSets, start < p.1 → sameKindConflict ws p.2 = false :=
  (indexed_of_run r).probeCommittedWrites_eq_none_iff

theorem probe_agrees_with_scan_deleted :
    (afterDeletion 1).probeCommittedWrites 3 (WriteSet.new.recordVertexDelete (vertexAt 1)) ≠ none := by
  rw [Ne, probe_agrees_with_scan (run_afterDeletion 1)]
  decide +kernel

end
end Certifier
end Linkrs
