import Linkrs.Query.GraceJoin

namespace Linkrs

open List Except Partitions

variable {α : Type} [Serialized α]

open HashJoinBuildSide (keyOf Holds)

-- A single request for memory is refused, and no spill is asked for.
def JoinEnvironment.refusing (m : ℕ) : JoinEnvironment α where
  budget n _ := if n = m then .error ⟨"memory budget exceeded"⟩ else .ok ()
  rowMemory _ := 0
  spillRequested _ := false
  typedColumns _ := none
  typed := by simp

namespace HashJoin

variable {j : HashJoin α} {w m : ℕ}

section

variable {t : MemoryTracker} {p : Partition α} {ps : List (Partition α)}

omit [Serialized α] in
theorem refusing_budget (hn : n ≠ m) (bytes : ℕ) :
    (JoinEnvironment.refusing m : JoinEnvironment α).budget n bytes = .ok () :=
  if_neg hn

-- A partition that can be loaded and probed to its end, and whose rows stay together when it is split.
structure Loadable (j : HashJoin α) (w : ℕ) (f : Tuple α → QueryResult (List (Tuple α))) (p : Partition α) : Prop where
  width : ∀ row ∈ p.build, row.length = w
  keys : ∀ row ∈ p.build, (j.buildKey row).isOk
  answers : ∀ row ∈ p.probe, j.answer p.build row = f row
  together : ∃ n, (∀ b ∈ p.build, hashJoinKeyPartition (keyOf j.buildKey b) hashJoinPartitionsDefault = n) ∧
    ∀ row ∈ p.probe, hashJoinKeyPartition (keyOf j.probeKey row) hashJoinPartitionsDefault = n

theorem Loadable.part (h : Loadable j w f p) (hq : Part j p q) : Loadable j w f q := by
  obtain ⟨n, hb, hr⟩ := h.together
  obtain ⟨d, build, probe⟩ := q
  obtain ⟨rfl, rfl⟩ | ⟨rfl, rfl⟩ := hq.whole_or_empty hb hr
  · exact ⟨h.width, h.keys, h.answers, h.together⟩
  · exact ⟨by simp, by simp, by simp, n, by simp, by simp⟩

theorem answers_loadable : Answers j env w f (Loadable j w f) where
  width := Loadable.width
  answer := Loadable.answers
  split h _ hs _ hq := h.part (.split .whole hs hq)

theorem loadBuildRows_granted {rows new : List (Tuple α)} (i : ℕ)
    (h : Holds j.buildKey w side rows) (ht : m < t.requests) (hw : ∀ row ∈ new, row.length = w)
    (hk : ∀ row ∈ new, (j.buildKey row).isOk) :
    ∃ side' t', j.loadBuildRows (.refusing m) i side t new = (.ok side', t') ∧
      Holds j.buildKey w side' (rows ++ new) ∧ m < t'.requests := by
  induction new generalizing side rows t with
  | nil => exact ⟨side, t, rfl, by simpa using h, ht⟩
  | cons row new ind =>
    have ⟨hwrow, hwnew⟩ := forall_mem_cons.mp hw
    have ⟨hkrow, hknew⟩ := forall_mem_cons.mp hk
    obtain ⟨k, hkrow⟩ := isOk_iff.mp hkrow
    obtain ⟨side₁, hside, h₁⟩ := h.insertKeyedRow hwrow hkrow
    obtain ⟨side', t', hload, hrest⟩ := ind (t := ⟨t.currentBytes, t.requests + 1⟩) h₁ (Nat.lt_succ_of_lt ht) hwnew hknew
    refine ⟨side', t', ?_, by simpa using hrest⟩
    simp only [loadBuildRows, MemoryTracker.tryReserve, refusing_budget (Nat.ne_of_gt ht), hkrow, ok_bind, hside]
    exact hload

theorem loadPartitionRows_granted (i : ℕ) (h : Loadable j w f p) (ht : m < t.requests) :
    ∃ side t', j.loadPartitionRows (.refusing m) i t p = (.ok side, t') ∧
      Holds j.buildKey w side p.build ∧ m < t'.requests := by
  obtain ⟨side, t₁, hload, hside, ht₁⟩ :=
    loadBuildRows_granted (t := t.reset) i HashJoinBuildSide.holds_new ht h.width h.keys
  have ⟨hgrant, hreq⟩ : (reserveRows (.refusing m) t₁ p.probe).1 = true ∧
      (reserveRows (.refusing m) t₁ p.probe).2.requests = t₁.requests + p.probe.length :=
    reserveRows_granted t₁ p.probe fun n bytes hn _ => refusing_budget (by omega) bytes
  refine ⟨side, (reserveRows (.refusing m) t₁ p.probe).2, ?_, by simpa using hside, by omega⟩
  simp only [loadPartitionRows, hload, loadProbeRows, hgrant]
  rfl

theorem loadLoop_granted (hps : ∀ p ∈ ps, Loadable j w f p) (ht : m < t.requests) :
    ∃ s t', j.loadLoop (.refusing m) n i t ps = .ok (s, t') ∧ m < t'.requests := by
  induction n generalizing i t ps with
  | zero => exact ⟨_, t, rfl, ht⟩
  | succ n ind =>
    cases ps with
    | nil => exact ⟨_, t, rfl, ht⟩
    | cons p ps =>
      have ⟨hp, hps⟩ := forall_mem_cons.mp hps
      rw [loadLoop]
      split
      case isTrue => exact ind hps ht
      case isFalse =>
        obtain ⟨side, t', hload, -, ht'⟩ := loadPartitionRows_granted i hp ht
        exact ⟨_, t', by rw [hload], ht'⟩

theorem serveRows_isOk {rows out : List (Tuple α)}
    (h : ∀ row ∈ rows, (j.probeRow side row).isOk) : (j.serveRows side out rows).isOk := by
  induction rows generalizing out with
  | nil => rfl
  | cons row rows ind =>
    have ⟨hrow, hrows⟩ := forall_mem_cons.mp h
    obtain ⟨found, hfound⟩ := isOk_iff.mp hrow
    rw [serveRows, hfound, ok_bind]
    split
    · exact ind hrows
    · rfl

end

section

variable {t : MemoryTracker} {rows : List (Tuple α)} {f : Tuple α → QueryResult (List (Tuple α))}

theorem nextLoop_granted {s : PartitionedJoinState α} (hf : ∀ row, (f row).isOk)
    (h : Serving j w f (Loadable j w f) s rows) (ht : m < t.requests) :
    ∃ o s' t', j.nextLoop (.refusing m) n s t = .ok (o, s', t') ∧ m < t'.requests := by
  induction n generalizing s t rows with
  | zero => exact ⟨none, s, t, rfl, ht⟩
  | succ n ind =>
    rw [nextLoop]
    split
    case isTrue => exact ⟨none, s, t, rfl, ht⟩
    case isFalse he =>
      have he : s.exhausted = false := by simpa using he
      obtain ⟨p, ps, hps, hload, hside, hrows, -⟩ := h.loaded he
      split
      case isTrue =>
        obtain ⟨s₁, t₁, hl, ht₁⟩ := loadLoop_granted (n := work ps) (i := s.current + 1) hload ht
        rw [advance, loadCurrent, hps, tail_cons, hl, ok_bind]
        exact ind (loadLoop_eq_ok answers_loadable (le_refl _) hload hl).1 ht₁
      case isFalse =>
        have hserve : (j.serveRows s.buildSide [] s.probeRows).isOk := serveRows_isOk fun row hr => by
          rw [probeRow_eq hside, hrows row hr]
          exact hf row
        obtain ⟨⟨found, rest⟩, hserve⟩ := isOk_iff.mp hserve
        obtain ⟨served, -, hsplit, -⟩ := serveRows_eq_ok hserve
        obtain ⟨rows', hs₁, -⟩ := h.rest he hsplit
        rw [hserve, ok_bind]
        dsimp only
        split
        case isTrue => exact ind hs₁ ht
        case isFalse => exact ⟨some found, _, t, rfl, ht⟩

-- Each answer is for a row at least.
theorem exists_drains {s : JoinState α} (hf : ∀ row, (f row).isOk) (hp : s.partitioned = some p)
    (h : Serving j w f (Loadable j w f) p rows) (ht : m < s.tracker.requests) :
    ∃ out, Drains (j.next (.refusing m) w) s out := by
  induction hn : rows.length using Nat.strong_induction_on generalizing s p rows with
  | _ n ind =>
    obtain ⟨o, p', t', hl, ht'⟩ := nextLoop_granted (n := 2 * work p.partitions + 2) hf h ht
    have hnext : j.next (.refusing m) w s = .ok (o, { s with partitioned := some p', tracker := t' }) := by
      rw [next, hp, servePartitioned_eq_ok]
      exact ⟨p', t', hl, rfl⟩
    obtain ⟨served, rest, hperm, hserved, h', -, hsome⟩ := nextLoop_eq_ok answers_loadable (by split <;> omega) h hl
    cases o with
    | none => exact ⟨[], .done hnext⟩
    | some found =>
      have hfound : outputs f served = found := hserved.out
      have hpos : 0 < served.length := length_pos_of_ne_nil fun he => hsome (by rw [← hfound, he]; rfl)
      have hlen := hperm.length_eq
      rw [length_append] at hlen
      obtain ⟨out, d⟩ := ind rest.length (by omega) (s := { s with partitioned := some p', tracker := t' }) rfl h' ht' rfl
      exact ⟨_, .more hnext d⟩

end

section

variable {s : JoinState α} {rows c : List (Tuple α)} {pre post input : List (List (Tuple α))}

theorem buildSideLoop_cons (n : ℕ) : j.buildSideLoop (.refusing m) w n s (c :: post) =
    j.buildChunk (.refusing m) w s c >>= fun s => j.buildSideLoop (.refusing m) w (n + 1) s post :=
  rfl

theorem buildSideLoop_pending (hps : s.pendingBuild = some ps) (hlen : 0 < ps.length)
    (hk : ∀ row ∈ post.flatten, (j.buildKey row).isOk) :
    j.buildSideLoop (.refusing m) w n s post = .ok { s with
      pendingBuild := some (ps.distribute (keyed j.buildKey post.flatten)), buildDone := true, buildInput := [] } := by
  induction post generalizing n s ps with
  | nil => simp [buildSideLoop, ← hps, keyed, distribute]
  | cons c post ind =>
    simp only [flatten_cons, mem_append, or_imp, forall_and] at hk
    have hstep : j.spillRows s ps c =
        .ok { s with pendingBuild := some (ps.distribute (keyed j.buildKey c)) } := by
      rw [spillRows, (route_eq_ok hlen).mpr ⟨hk.1, rfl⟩]
      rfl
    rw [buildSideLoop_cons, buildChunk, hps]
    dsimp only
    rw [hstep, ok_bind, ind rfl (by simpa using hlen) hk.2, flatten_cons, keyed_append, distribute_append]

-- The first row of a chunk is refused, when the build side has no rows that could be written out.
theorem buildInMemory_refused (h : Holds j.buildKey w s.buildSide rows) (hp : s.pendingBuild = none)
    (hm : s.tracker.requests = m) (hlost : w = 0 ∨ rows = []) (hc : c ≠ [])
    (hk : ∀ row ∈ c, (j.buildKey row).isOk) :
    ∃ t : MemoryTracker, m < t.requests ∧ j.buildInMemory (.refusing m) w s c = .ok { s with
      buildSide := .new
      tracker := t
      pendingBuild := some (distribute (.empty hashJoinPartitionsDefault) (keyed j.buildKey c)) } := by
  obtain ⟨row, c', rfl⟩ := exists_cons_of_ne_nil hc
  have hreserve : reserveRows (.refusing m) s.tracker (row :: c') = (false, ⟨s.tracker.currentBytes, m + 1⟩) := by
    simp [reserveRows, MemoryTracker.tryReserve, JoinEnvironment.refusing, hm]
  have htake : s.buildSide.takeIndexedRows = [] := by
    have : s.buildSide.rowCount = 0 := by
      rw [HashJoinBuildSide.rowCount, h.stored]
      grind
    simp [HashJoinBuildSide.takeIndexedRows, this]
  refine ⟨⟨0, m + 1⟩, Nat.lt_succ_self m, ?_⟩
  have hempty : 0 < (Partitions.empty hashJoinPartitionsDefault : Partitions α).length := by
    simp [hashJoinPartitionsDefault]
  simp only [buildInMemory, hreserve, Bool.false_eq_true, if_false, spillBuildSide, htake, foldlM_nil, hp,
    Option.getD_none, spillRows, pure, Except.pure, ok_bind, Option.getD_some,
    (route_eq_ok hempty).mpr ⟨hk, rfl⟩, MemoryTracker.reset]

-- The build side up to one chunk is given up, and the rest is written to the partitions.
theorem buildSideLoop_refused (h : Holds j.buildKey w s.buildSide rows) (hp : s.pendingBuild = none)
    (hm : s.tracker.requests + pre.flatten.length = m) (hlost : w = 0 ∨ rows ++ pre.flatten = []) (hc : c ≠ [])
    (hw : ∀ row ∈ pre.flatten, row.length = w) (hk : ∀ row ∈ (pre ++ c :: post).flatten, (j.buildKey row).isOk) :
    ∃ t : MemoryTracker, m < t.requests ∧ j.buildSideLoop (.refusing m) w n s (pre ++ c :: post) = .ok { s with
      buildSide := .new
      buildDone := true
      tracker := t
      pendingBuild := some (distribute (.empty hashJoinPartitionsDefault) (keyed j.buildKey (c :: post).flatten))
      buildInput := [] } := by
  induction pre generalizing n s rows with
  | nil =>
    simp only [nil_append, flatten_cons, mem_append, or_imp, forall_and] at hk
    obtain ⟨t, ht, hstep⟩ := buildInMemory_refused h hp (by simpa using hm) (by simpa using hlost) hc hk.1
    refine ⟨t, ht, ?_⟩
    rw [nil_append, buildSideLoop_cons, buildChunk, hp]
    rw [hstep, ok_bind, buildSideLoop_pending rfl (by simp [hashJoinPartitionsDefault]) hk.2,
      flatten_cons, keyed_append, distribute_append]
  | cons b pre ind =>
    simp only [cons_append, flatten_cons, mem_append, or_imp, forall_and] at hk hw
    rw [flatten_cons, length_append] at hm
    obtain ⟨hgrant, hreq⟩ : (reserveRows (.refusing m) s.tracker b).1 = true ∧
        (reserveRows (.refusing m) s.tracker b).2.requests = s.tracker.requests + b.length :=
      reserveRows_granted s.tracker b fun n bytes _ hn => refusing_budget (by omega) bytes
    obtain ⟨side, hside, hstep⟩ := buildInMemory_granted hgrant h hw.1 hk.1
    obtain ⟨t, ht, hloop⟩ := ind (n := n + 1) (s := { s with
      buildSide := side, tracker := (reserveRows (.refusing m) s.tracker b).2 }) hside hp (by dsimp only; omega)
      (by simpa using hlost) hw.2 hk.2
    refine ⟨t, ht, ?_⟩
    rw [cons_append, buildSideLoop_cons, buildChunk, hp]
    rw [hstep, ok_bind]
    exact hloop

end

section

variable {build : List (Tuple α)} {row : Tuple α}

def found (j : HashJoin α) (build : List (Tuple α)) (row : Tuple α) : List (Tuple α) :=
  build.filter fun b => (keyOf j.buildKey b).same (keyOf j.probeKey row)

-- Those of them that are in the partition of the row.
def foundInPartition (j : HashJoin α) (build : List (Tuple α)) (row : Tuple α) : List (Tuple α) :=
  j.found (build.filter fun b => hashJoinKeyPartition (keyOf j.buildKey b) hashJoinPartitionsDefault =
    hashJoinKeyPartition (keyOf j.probeKey row) hashJoinPartitionsDefault) row

theorem foundInPartition_sublist (h : rest.Sublist build) :
    (j.foundInPartition rest row).Sublist (j.found build row) :=
  (filter_sublist.trans h).filter _

theorem answer_of_none (hc : j.joinCondition = none) (hl : j.leftJoin = false) (hk : (j.probeKey row).isOk) :
    j.answer build row = .ok ((j.found build row).map (row ++ ·)) := by
  have hk : j.probeKey row = .ok (keyOf j.probeKey row) := eq_ok_getD hk
  rw [answer, hk, ok_bind, joined_of_none hc hl]
  rfl

end

section

variable {c : List (Tuple α)} {pre post input : List (List (Tuple α))}

-- The partitions of both inputs, when no rows were buffered before.
def partitionsOf (j : HashJoin α) (build probe : List (Tuple α)) : List (Partition α) :=
  List.zipWith (.mk 0) (distribute (.empty hashJoinPartitionsDefault) (keyed j.buildKey build))
    (distribute (.empty hashJoinPartitionsDefault) (keyed j.probeKey probe))

theorem mem_partitionsOf {build probe : List (Tuple α)} (hp : p ∈ partitionsOf j build probe) :
    ∃ i, p = ⟨0, build.filter fun b => hashJoinKeyPartition (keyOf j.buildKey b) hashJoinPartitionsDefault = i,
      probe.filter fun row => hashJoinKeyPartition (keyOf j.probeKey row) hashJoinPartitionsDefault = i⟩ := by
  obtain ⟨i, hi, rfl⟩ := mem_zipWith_mk hp
  rw [length_distribute, length_empty] at hi
  exact ⟨i, by rw [getD_distribute_keyed hi, getD_distribute_keyed hi]⟩

theorem probes_partitionsOf (build probe : List (Tuple α)) : (probes (partitionsOf j build probe)).Perm probe := by
  rw [partitionsOf, probes_zipWith (by simp)]
  simpa using flatten_distribute (.empty hashJoinPartitionsDefault) (keyed j.probeKey probe)
    (by simp [hashJoinPartitionsDefault])

-- A run of an inner join that is refused memory once, at a chunk before which nothing was stored.
theorem drains_refused (hc : j.joinCondition = none) (hl : j.leftJoin = false) (hne : c ≠ [])
    (hlost : w = 0 ∨ pre.flatten = []) (hw : ∀ row ∈ (pre ++ c :: post).flatten, row.length = w)
    (hk : Keyed j (pre ++ c :: post).flatten input.flatten) :
    ∃ out, Drains (j.next (.refusing pre.flatten.length) w) (.new (pre ++ c :: post) input) out ∧
      out.Perm (input.flatten.flatMap fun row =>
        (j.foundInPartition (c :: post).flatten row).map (row ++ ·)) := by
  obtain ⟨t, ht, hloop⟩ := buildSideLoop_refused (n := 0) (s := .new (pre ++ c :: post) input)
    HashJoinBuildSide.holds_new rfl (Nat.zero_add _) hlost hne
    (fun row hr => hw row (by rw [flatten_append]; exact mem_append_left _ hr)) hk.build
  have hrest : ∀ b ∈ (c :: post).flatten, b ∈ (pre ++ c :: post).flatten := fun b hb => by
    rw [flatten_append]
    exact mem_append_right _ hb
  let f (row : Tuple α) : QueryResult (List (Tuple α)) := .ok ((j.foundInPartition (c :: post).flatten row).map (row ++ ·))
  have hps : ∀ p ∈ partitionsOf j (c :: post).flatten input.flatten, Loadable j w f p := by
    intro p hp
    obtain ⟨i, rfl⟩ := mem_partitionsOf hp
    refine ⟨fun b hb => ?_, fun b hb => ?_, fun row hrow => ?_, i, fun _ hb => ?_, fun _ hr => ?_⟩
    · exact hw b (hrest b (mem_of_mem_filter hb))
    · exact hk.build b (hrest b (mem_of_mem_filter hb))
    · have ⟨hmem, hi⟩ := mem_filter.mp hrow
      obtain rfl := of_decide_eq_true hi
      exact answer_of_none hc hl (hk.probe row hmem)
    · exact of_decide_eq_true (mem_filter.mp hb).2
    · exact of_decide_eq_true (mem_filter.mp hr).2
  obtain ⟨p, t', hload, ht'⟩ := loadLoop_granted (i := 0) (t := t.reset) hps ht
  have hserving := (loadLoop_eq_ok answers_loadable (le_refl _) hps hload).1
  let s : JoinState α := { JoinState.new (pre ++ c :: post) input with
    buildDone := true, tracker := t', buildInput := [], probeInput := [], partitioned := some p }
  obtain ⟨out, d⟩ := exists_drains (s := s) (fun _ => rfl) rfl hserving ht'
  refine ⟨out, d.of_next_eq ?_, ?_⟩
  · rw [next_new, hloop, ok_bind]
    refine afterBuild_eq_next rfl ((enterPartitionedMode_eq_ok (by simp [hashJoinPartitionsDefault])).mpr ⟨hk.probe, ?_⟩)
    rw [length_distribute, length_empty]
    exact hload
  · exact (drains_partitioned answers_loadable rfl hserving d).2.trans ((probes_partitionsOf _ _).flatMap_right _)

end

end HashJoin

omit [Serialized α] in
theorem exists_first_chunk {chunks : List (List (Tuple α))} (h : chunks.flatten ≠ []) :
    ∃ pre c post, chunks = pre ++ c :: post ∧ c ≠ [] ∧ pre.flatten = [] := by
  induction chunks with
  | nil => simp at h
  | cons c chunks ind =>
    by_cases hc : c = []
    · subst hc
      obtain ⟨pre, c, post, rfl, hne, hpre⟩ := ind (by simpa using h)
      exact ⟨[] :: pre, c, post, rfl, hne, by simpa using hpre⟩
    · exact ⟨[], c, chunks, rfl, hc, rfl⟩

-- The keys and the two inputs of a hash join, with the columns of each.
structure JoinInput (α : Type) where
  evaluate : Evaluator α
  hashKeys : List (Expr α)
  probeKeys : List (Expr α)
  buildNames : List String
  probeNames : List String
  build : List (List (Tuple α))
  probe : List (List (Tuple α))
  width : ∀ row ∈ build.flatten, row.length = buildNames.length

namespace JoinInput

variable (q : JoinInput α)

def join (leftJoin : Bool) (joinCondition : Option (Expr α)) (outputWidth : ℕ) : HashJoin α :=
  ⟨q.evaluate, joinCondition, q.hashKeys, q.probeKeys, q.buildNames, q.probeNames, leftJoin, outputWidth⟩

def buildKey : Tuple α → QueryResult (JoinKeyValue α) :=
  evaluateJoinKey q.evaluate q.buildNames q.hashKeys

def probeKey : Tuple α → QueryResult (JoinKeyValue α) :=
  evaluateJoinKey q.evaluate q.probeNames q.probeKeys

-- Inner and left joins of the inputs, under whatever conditions they run, give what they give when
-- they have all the memory that they ask for.
def SpillsUnseen : Prop :=
  ∀ leftJoin condition outputWidth env out,
    Drains ((q.join leftJoin condition outputWidth).next env q.buildNames.length) (.new q.build q.probe) out →
      ∃ out', Drains ((q.join leftJoin condition outputWidth).next env.granting q.buildNames.length)
        (.new q.build q.probe) out' ∧ out.Perm out'

-- Rows with equal keys are sent to the same partition, and if they have no columns they come in one
-- chunk. Nothing is asked if a key cannot be evaluated.
def Routed : Prop :=
  (∀ b ∈ q.build.flatten, (q.buildKey b).isOk) → (∀ row ∈ q.probe.flatten, (q.probeKey row).isOk) →
    ∀ b ∈ q.build.flatten, ∀ row ∈ q.probe.flatten, (keyOf q.buildKey b).same (keyOf q.probeKey row) →
      hashJoinKeyPartition (keyOf q.buildKey b) hashJoinPartitionsDefault =
        hashJoinKeyPartition (keyOf q.probeKey row) hashJoinPartitionsDefault ∧
      (q.buildNames = [] → (q.build.filter (· ≠ [])).length ≤ 1)

variable {q}

theorem spillsUnseen_of_routed (h : q.Routed) : q.SpillsUnseen := by
  intro leftJoin condition outputWidth env out d
  have ⟨hk, hok, hperm⟩ := HashJoin.drains_perm q.width (fun hk => ⟨?_, ?_⟩) d
  · exact ⟨_, HashJoin.drains_granted (JoinEnvironment.grants_granting _) q.width hk hok, hperm⟩
  · intro row hrow k hkey b hb hs
    have hkey : keyOf q.probeKey row = k := by rw [keyOf, show q.probeKey row = .ok k from hkey, getD_ok]
    subst hkey
    exact (h hk.build hk.probe b hb row hrow hs).1
  · intro hw row hrow k hkey b hb hs
    have hkey : keyOf q.probeKey row = k := by rw [keyOf, show q.probeKey row = .ok k from hkey, getD_ok]
    subst hkey
    exact (h hk.build hk.probe b hb row hrow hs).2 (length_eq_zero_iff.mp hw)

theorem found_of_spillsUnseen (h : q.SpillsUnseen)
    (hq : q.build = pre ++ c :: post) (hne : c ≠ []) (hlost : q.buildNames = [] ∨ pre.flatten = [])
    (hk : ∀ b ∈ q.build.flatten, (q.buildKey b).isOk) (hp : ∀ row ∈ q.probe.flatten, (q.probeKey row).isOk) :
    ∀ row ∈ q.probe.flatten, (q.join false none 0).foundInPartition (c :: post).flatten row =
      (q.join false none 0).found q.build.flatten row := by
  have hw := q.width
  have hkeyed : HashJoin.Keyed (q.join false none 0) q.build.flatten q.probe.flatten := ⟨hk, hp⟩
  obtain ⟨out, d, hout⟩ := HashJoin.drains_refused (j := q.join false none 0) rfl rfl hne
    (by simpa using hlost) (hq ▸ hw) (hq ▸ hkeyed)
  obtain ⟨out', d', hperm⟩ := h false none 0 _ out (hq.symm ▸ d)
  have hanswer : ∀ row ∈ q.probe.flatten, (q.join false none 0).answer q.build.flatten row =
      .ok (((q.join false none 0).found q.build.flatten row).map (row ++ ·)) :=
    fun row hrow => HashJoin.answer_of_none rfl rfl (hp row hrow)
  have hout' := d'.unique (HashJoin.drains_granted (JoinEnvironment.grants_granting _) q.width hk
    fun row hrow => by rw [hanswer row hrow, isOk_ok])
  rw [hout', HashJoin.answers, flatMap_congr fun row hrow => by rw [hanswer row hrow, getD_ok]] at hperm
  have hsub : (c :: post).flatten.Sublist q.build.flatten := by
    rw [hq, flatten_append]
    exact sublist_append_right _ _
  intro row hrow
  have hmap := flatMap_eq_of_sublist (fun row _ => (HashJoin.foundInPartition_sublist hsub).map (row ++ ·))
    (hout.symm.trans hperm).length_eq.ge row hrow
  exact map_injective_iff.mpr (append_right_injective row) hmap

theorem routed_of_spillsUnseen (h : q.SpillsUnseen) : q.Routed := by
  intro hk hp b hb row hrow hs
  have hfound : b ∈ (q.join false none 0).found q.build.flatten row := mem_filter.mpr ⟨hb, hs⟩
  obtain ⟨pre, c, post, hq, hne, hpre⟩ := exists_first_chunk (ne_nil_of_mem hb)
  refine ⟨?_, fun hw => ?_⟩
  · rw [← found_of_spillsUnseen h hq hne (.inr hpre) hk hp row hrow] at hfound
    have := mem_of_mem_filter hfound
    exact of_decide_eq_true (mem_filter.mp this).2
  · -- all rows are alike, so a second chunk with rows shows that those of the first got lost
    by_contra hcount
    have hpost : post.flatten ≠ [] := by
      intro hnil
      have hpre : pre.filter (· ≠ []) = [] := by simpa using hpre
      have hpost : post.filter (· ≠ []) = [] := by simpa using hnil
      rw [hq, filter_append, filter_cons, hpre, hpost] at hcount
      simp [hne] at hcount
    obtain ⟨pre', c', post', rfl, hne', -⟩ := exists_first_chunk hpost
    have hq' : q.build = (pre ++ c :: pre') ++ c' :: post' := by rw [hq]; simp
    have heq := found_of_spillsUnseen h hq' hne' (.inl hw) hk hp row hrow
    have hnil : ∀ b ∈ q.build.flatten, b = [] := fun b hb =>
      length_eq_zero_iff.mp ((q.width b hb).trans (by rw [hw]; rfl))
    have hall : (q.join false none 0).found q.build.flatten row = q.build.flatten := by
      refine filter_eq_self.mpr fun b' hb' => ?_
      rw [hnil b' hb', ← hnil b hb]
      exact hs
    have hle : (c' :: post').flatten.length < q.build.flatten.length := by
      have := length_pos_of_ne_nil hne
      simp only [hq', flatten_append, flatten_cons, length_append]
      omega
    have hsub : (q.join false none 0).foundInPartition (c' :: post').flatten row |>.Sublist (c' :: post').flatten :=
      filter_sublist.trans filter_sublist
    rw [heq, hall] at hsub
    exact absurd hsub.length_le (by omega)

-- Spilling is not seen in the result exactly when rows with equal keys are sent to one partition.
theorem hash_join_spills_unseen_iff (q : JoinInput α) : q.SpillsUnseen ↔ q.Routed :=
  ⟨routed_of_spillsUnseen, spillsUnseen_of_routed⟩

-- One key on each side: the set of 1 and 3, which was filled in another order.
def reordered : JoinInput Empty where
  evaluate := EquiJoin.evaluateVariable
  hashKeys := [.variable "b"]
  probeKeys := [.variable "a"]
  buildNames := ["b"]
  probeNames := ["a"]
  build := [[[.set [.int 1, .int 3]]]]
  probe := [[[.set [.int 3, .int 1]]]]
  width := by decide

-- The two keys are equal and find each other in memory. Their bytes differ, and so do the partitions
-- that the rows are sent to.
theorem hash_join_spill_loses_reordered_set :
    ((keyOf reordered.buildKey [.set [.int 1, .int 3]]).same (keyOf reordered.probeKey [.set [.int 3, .int 1]])) ∧
      ¬reordered.SpillsUnseen := by
  have hsame : (keyOf reordered.buildKey [.set [.int 1, .int 3]]).same
      (keyOf reordered.probeKey [.set [.int 3, .int 1]]) := by
    decide +kernel
  refine ⟨hsame, fun h => ?_⟩
  have hroute := (routed_of_spillsUnseen h (by decide +kernel) (by decide +kernel) _ (.head _) _ (.head _) hsame).1
  exact absurd hroute (by decide +kernel)

end JoinInput
end Linkrs
