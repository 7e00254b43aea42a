import Linkrs.Query.EquiJoin

namespace Linkrs

open List Except

variable {α : Type} [Serialized α]

open HashJoinBuildSide (keyOf Holds)

def keyed (key : Tuple α → QueryResult (JoinKeyValue α)) (rows : List (Tuple α)) : List (JoinKeyValue α × Tuple α) :=
  rows.map fun row => (keyOf key row, row)

omit [Serialized α] in
@[simp]
theorem map_keyed (key : Tuple α → QueryResult (JoinKeyValue α)) (rows : List (Tuple α)) :
    (keyed key rows).map (·.2) = rows := by
  rw [keyed, map_map]
  exact map_id rows

omit [Serialized α] in
theorem keyed_append (key : Tuple α → QueryResult (JoinKeyValue α)) (rows rows' : List (Tuple α)) :
    keyed key (rows ++ rows') = keyed key rows ++ keyed key rows' :=
  map_append

namespace Partitions

variable {ps ps' : Partitions α} {es : List (JoinKeyValue α × Tuple α)} {rows : List (Tuple α)}
  {key : Tuple α → QueryResult (JoinKeyValue α)}

-- Rows are appended to the partitions of the keys that they come with.
def distribute (ps : Partitions α) (es : List (JoinKeyValue α × Tuple α)) : Partitions α :=
  es.foldl (fun ps e => ps.modify (hashJoinKeyPartition e.1 ps.length) (· ++ [e.2])) ps

theorem distribute_append (es es' : List (JoinKeyValue α × Tuple α)) :
    ps.distribute (es ++ es') = (ps.distribute es).distribute es' :=
  foldl_append

@[simp]
theorem length_distribute : (ps.distribute es).length = ps.length := by
  induction es generalizing ps with
  | nil => rfl
  | cons e es ind => rw [distribute, foldl_cons, ← distribute, ind, length_modify]

theorem getD_distribute (hi : i < ps.length) : (ps.distribute es).getD i [] =
    ps.getD i [] ++ (es.filter fun e => hashJoinKeyPartition e.1 ps.length = i).map (·.2) := by
  induction es generalizing ps with
  | nil => simp [distribute]
  | cons e es ind =>
    rw [distribute, foldl_cons, ← distribute, ind (by simpa using hi), length_modify]
    by_cases h : hashJoinKeyPartition e.1 ps.length = i <;> simp [h, hi]

theorem insertKeyed_eq (h : 0 < ps.length) (e : JoinKeyValue α × Tuple α) :
    ps.insertKeyed e = .ok (ps.modify (hashJoinKeyPartition e.1 ps.length) (· ++ [e.2])) := by
  simp [insertKeyed, insert, ensure_of (hashJoinKeyPartition_lt e.1 h), pure, Except.pure]

theorem foldlM_insertKeyed (h : 0 < ps.length) : es.foldlM insertKeyed ps = .ok (ps.distribute es) := by
  induction es generalizing ps with
  | nil => rfl
  | cons e es ind =>
    rw [foldlM_cons, insertKeyed_eq h, ok_bind, ind (by simpa using h)]
    rfl

theorem route_eq_ok (h : 0 < ps.length) : ps.route key rows = .ok ps' ↔
    (∀ row ∈ rows, (key row).isOk) ∧ ps.distribute (keyed key rows) = ps' := by
  induction rows generalizing ps with
  | nil => simp [route, distribute, keyed, pure, Except.pure]
  | cons row rows ind =>
    rw [route, foldlM_cons, bind_eq_ok]
    cases hk : key row with
    | error e => simp [hk]
    | ok k =>
      simp only [ok_bind, insertKeyed_eq h, Except.ok.injEq, exists_eq_left']
      rw [← route, ind (by simpa using h)]
      simp [hk, keyOf, keyed, distribute]

omit [Serialized α] in
theorem flatten_modify (h : i < ps.length) (row : Tuple α) :
    (ps.modify i (· ++ [row])).flatten.Perm (row :: ps.flatten) := by
  induction ps generalizing i with
  | nil => simp at h
  | cons p ps ind =>
    cases i with
    | zero => simp
    | succ i =>
      have hp := (ind (by simpa using h)).append_left p
      simpa using hp.trans perm_middle

theorem flatten_distribute (ps : Partitions α) (es : List (JoinKeyValue α × Tuple α)) (h : 0 < ps.length) :
    (ps.distribute es).flatten.Perm (es.map (·.2) ++ ps.flatten) := by
  induction es generalizing ps with
  | nil => rfl
  | cons e es ind =>
    have hrest := ind (ps.modify (hashJoinKeyPartition e.1 ps.length) (· ++ [e.2])) (by simpa using h)
    have hstep := flatten_modify (hashJoinKeyPartition_lt e.1 h) e.2
    exact (hrest.trans (hstep.append_left _)).trans perm_middle

omit [Serialized α] in
@[simp]
theorem length_empty (n : ℕ) : (empty n : Partitions α).length = n :=
  length_replicate

omit [Serialized α] in
theorem getD_empty (n i : ℕ) : (empty n : Partitions α).getD i [] = [] := by
  simp [empty, getElem?_replicate]
  grind

omit [Serialized α] in
@[simp]
theorem flatten_empty (n : ℕ) : (empty n : Partitions α).flatten = [] := by
  simp [empty]

end Partitions

namespace HashJoinBuildSide

variable {key : Tuple α → QueryResult (JoinKeyValue α)} {w : ℕ} {side : HashJoinBuildSide α} {rows : List (Tuple α)}

theorem Holds.takeIndexedRows_of_zero (h : Holds key 0 side rows) : side.takeIndexedRows = [] := by
  simp [takeIndexedRows, HashJoinBuildSide.rowCount, h.stored]

omit [Serialized α] in
theorem filterMap_spec {ι β γ : Type} {l : List ι} {f : ι → Option β} {g : β → γ} {h : ι → γ} {Q : β → Prop}
    (hf : ∀ i ∈ l, ∃ y, f i = some y ∧ g y = h i ∧ Q y) :
    (l.filterMap f).map g = l.map h ∧ ∀ y ∈ l.filterMap f, Q y := by
  induction l with
  | nil => simp
  | cons i l ind =>
    have ⟨⟨y, hy, hg, hq⟩, hl⟩ := forall_mem_cons.mp hf
    have ⟨hmap, hall⟩ := ind hl
    rw [filterMap_cons_some hy, map_cons, hg, hmap]
    exact ⟨rfl, forall_mem_cons.mpr ⟨hq, hall⟩⟩

-- The rows come back in order. Each comes with the key of a row of the build side, which is found
-- where its own key is.
theorem Holds.takeIndexedRows (h : Holds key w side rows) (hw : w ≠ 0) :
    side.takeIndexedRows.map (·.2) = rows ∧ ∀ e ∈ side.takeIndexedRows,
      (∃ row ∈ rows, e.1 = keyOf key row) ∧ ∀ k, (keyOf key e.2).same k → e.1.same k := by
  obtain ⟨is, hlen, hrange, hindex⟩ := h.index
  have hrows : is.map side.rowAt = rows := h.map_rowAt hlen hrange
  rw [h.keys_zip hlen hrange] at hindex
  have hall : ∀ i ∈ is, ∃ y, ((side.index.find? (·.2.contains i)).map fun e => (e.1, side.rowAt i)) =
      some y ∧ y.2 = side.rowAt i ∧ (∃ row ∈ rows, y.1 = keyOf key row) ∧
        ∀ k, (keyOf key y.2).same k → y.1.same k := by
    intro i hi
    obtain ⟨e, he, hm⟩ : ∃ e ∈ side.index, i ∈ e.2 := by
      rw [hindex]
      exact KeyTable.exists_mem_collect (mem_map_of_mem hi)
    obtain ⟨e', hfind⟩ : ∃ e', side.index.find? (·.2.contains i) = some e' :=
      Option.isSome_iff_exists.mp (find?_isSome.mpr ⟨e, he, by simpa using hm⟩)
    have he' : e' ∈ side.index := mem_of_find?_eq_some hfind
    have hi' : i ∈ e'.2 := by simpa using find?_some hfind
    rw [hindex] at he'
    refine ⟨(e'.1, side.rowAt i), by rw [hfind]; rfl, rfl, ?_, fun k hk => ?_⟩
    · obtain ⟨_, hnil, -⟩ | ⟨x, hx, hkey⟩ := KeyTable.key_mem_collect he'
      · simp at hnil
      · obtain ⟨i', hi', rfl⟩ := mem_map.mp hx
        exact ⟨side.rowAt i', hrows ▸ mem_map_of_mem hi', hkey.symm⟩
    · obtain ⟨_, hnil, -⟩ | ⟨x, hx, hxi, hs⟩ := KeyTable.mem_collect_append he' hi'
      · simp at hnil
      · obtain ⟨i', -, rfl⟩ := mem_map.mp hx
        obtain rfl : i' = i := hxi
        exact hs.elim (fun h => h ▸ hk) fun h => JoinKeyValue.same_trans h hk
  rw [HashJoinBuildSide.takeIndexedRows, h.rowCount hw, ← hrange hw]
  have := filterMap_spec hall
  exact ⟨this.1.trans hrows, this.2⟩

end HashJoinBuildSide

namespace HashJoin

variable {j : HashJoin α} {env : JoinEnvironment α} {w : ℕ} {i : ℕ} {p : Partition α}
  {qs : List (Partition α)}

theorem loadBuildRows_eq_ok
    {rows new : List (Tuple α)} (h : Holds j.buildKey w side rows) (hw : ∀ row ∈ new, row.length = w)
    (hl : j.loadBuildRows env i side t new = (.ok side', t')) : Holds j.buildKey w side' (rows ++ new) := by
  induction new generalizing side rows t with
  | nil =>
    obtain ⟨rfl, -⟩ : side = side' ∧ t = t' := by simpa [loadBuildRows] using hl
    simpa using h
  | cons row new ind =>
    have ⟨hrow, hnew⟩ := forall_mem_cons.mp hw
    simp only [loadBuildRows] at hl
    split at hl
    case h_1 => simp at hl
    case h_2 =>
      split at hl
      case h_1 => simp at hl
      case h_2 side₁ hside =>
        obtain ⟨k, hk, hside⟩ := bind_eq_ok.mp hside
        obtain ⟨side₂, hside₂, h₂⟩ := h.insertKeyedRow hrow hk
        obtain rfl : side₂ = side₁ := Except.ok.inj (hside₂.symm.trans hside)
        simpa using ind h₂ hnew hl

theorem loadPartitionRows_eq_ok
    (hw : ∀ row ∈ p.build, row.length = w) (hl : j.loadPartitionRows env i t p = (.ok side, t')) :
    Holds j.buildKey w side p.build := by
  simp only [loadPartitionRows] at hl
  split at hl
  case h_1 => simp at hl
  case h_2 side₁ t₁ hb =>
    obtain ⟨u, -, rfl⟩ := map_eq_ok.mp (Prod.ext_iff.mp hl).1
    simpa using loadBuildRows_eq_ok HashJoinBuildSide.holds_new hw hb

def probes (ps : List (Partition α)) : List (Tuple α) :=
  ps.flatMap (·.probe)

-- What some rows are owed together.
def outputs (f : Tuple α → QueryResult (List (Tuple α))) (rows : List (Tuple α)) : List (Tuple α) :=
  rows.flatMap fun row => (f row).getD []

omit [Serialized α] in
theorem splits_pos (n : ℕ) : 0 < splits n := by
  cases n with
  | zero => simp [splits]
  | succ n => rw [splits]; omega

omit [Serialized α] in
theorem probes_zipWith {build probe : Partitions α} (h : build.length = probe.length) :
    probes (List.zipWith (.mk d) build probe) = probe.flatten := by
  induction build generalizing probe with
  | nil => cases probe <;> simp_all [probes]
  | cons b bs ind =>
    cases probe with
    | nil => simp at h
    | cons p ps => simpa [probes] using ind (by simpa using h)

omit [Serialized α] in
theorem work_zipWith {build probe : Partitions α} (h : build.length = probe.length) :
    work (List.zipWith (.mk d) build probe) = build.length * splits (hashJoinMaxDepth - d) := by
  induction build generalizing probe with
  | nil => cases probe <;> simp_all [work]
  | cons b bs ind =>
    cases probe with
    | nil => simp at h
    | cons p ps =>
      have := ind (by simpa using h)
      rw [zipWith_cons_cons, work, map_cons, sum_cons, ← work, this, length_cons, Nat.succ_mul, Nat.add_comm]

theorem splitPartition_eq_ok :
    j.splitPartition i p = .ok qs ↔ p.depth < hashJoinMaxDepth ∧ (∀ row ∈ p.build, (j.buildKey row).isOk) ∧
      (∀ row ∈ p.probe, (j.probeKey row).isOk) ∧
        List.zipWith (.mk (p.depth + 1)) (Partitions.distribute (.empty graceSubPartitions) (keyed j.buildKey p.build))
          (Partitions.distribute (.empty graceSubPartitions) (keyed j.probeKey p.probe)) = qs := by
  have h4 : 0 < (Partitions.empty graceSubPartitions : Partitions α).length := by simp [graceSubPartitions]
  simp only [splitPartition, bind_eq_ok, ensure_eq_ok, Partitions.route_eq_ok h4, pure, Except.pure,
    Except.ok.injEq]
  simp

theorem probes_splitPartition (h : j.splitPartition i p = .ok qs) : (probes qs).Perm p.probe := by
  obtain ⟨-, -, -, rfl⟩ := splitPartition_eq_ok.mp h
  rw [probes_zipWith (by simp)]
  simpa using Partitions.flatten_distribute (.empty graceSubPartitions) (keyed j.probeKey p.probe)
    (by simp [graceSubPartitions])

theorem work_splitPartition
    (h : j.splitPartition i p = .ok qs) : work qs < splits (hashJoinMaxDepth - p.depth) := by
  obtain ⟨hd, -, -, rfl⟩ := splitPartition_eq_ok.mp h
  obtain ⟨n, hn⟩ : ∃ n, hashJoinMaxDepth - p.depth = n + 1 := ⟨hashJoinMaxDepth - p.depth - 1, by omega⟩
  rw [work_zipWith (by simp), hn, splits, show hashJoinMaxDepth - (p.depth + 1) = n by omega]
  simp

section

-- The rows `f` gives to a probe row, and what is known of all partitions that come up.
variable {f : Tuple α → QueryResult (List (Tuple α))} {P : Partition α → Prop}

-- Each partition answers for its own probe rows, and so do the parts of one that is too large.
structure Answers (j : HashJoin α) (env : JoinEnvironment α) (w : ℕ) (f : Tuple α → QueryResult (List (Tuple α)))
    (P : Partition α → Prop) : Prop where
  width : ∀ {p}, P p → ∀ row ∈ p.build, row.length = w
  answer : ∀ {p}, P p → ∀ row ∈ p.probe, j.answer p.build row = f row
  split : ∀ {p i t e t' qs}, P p → j.loadPartitionRows env i t p = (.error e, t') →
    j.splitPartition i p = .ok qs → ∀ q ∈ qs, P q

structure Serving (j : HashJoin α) (w : ℕ) (f : Tuple α → QueryResult (List (Tuple α))) (P : Partition α → Prop)
    (s : PartitionedJoinState α) (rows : List (Tuple α)) : Prop where
  done : s.exhausted → rows = []
  loaded : s.exhausted = false → ∃ p ps, s.partitions = p :: ps ∧ (∀ q ∈ ps, P q) ∧
    Holds j.buildKey w s.buildSide p.build ∧ (∀ row ∈ s.probeRows, j.answer p.build row = f row) ∧
      rows.Perm (s.probeRows ++ probes ps)

theorem Serving.perm {rows rows' : List (Tuple α)} (h : Serving j w f P s rows)
    (hp : rows.Perm rows') : Serving j w f P s rows' where
  done he := by simpa [h.done he] using hp
  loaded he := by
    obtain ⟨p, ps, hps, hall, hside, hrows, hperm⟩ := h.loaded he
    exact ⟨p, ps, hps, hall, hside, hrows, hp.symm.trans hperm⟩

theorem Serving.rest {rows served rest : List (Tuple α)} (h : Serving j w f P s rows) (he : s.exhausted = false)
    (hs : s.probeRows = served ++ rest) :
    ∃ rows', Serving j w f P { s with probeRows := rest } rows' ∧ rows.Perm (served ++ rows') := by
  obtain ⟨p, ps, hps, hall, hside, hrows, hperm⟩ := h.loaded he
  rw [hs] at hrows
  refine ⟨rest ++ probes ps, ⟨fun hx => by simp [he] at hx, fun _ => ⟨p, ps, hps, hall, hside,
    (forall_mem_append.mp hrows).2, .refl _⟩⟩, ?_⟩
  rwa [hs, append_assoc] at hperm

theorem loadLoop_eq_ok (ha : Answers j env w f P) (hn : work ps ≤ n) (hP : ∀ p ∈ ps, P p)
    (hl : j.loadLoop env n i t ps = .ok (s, t')) :
    Serving j w f P s (probes ps) ∧ work s.partitions ≤ work ps ∧ s.probeRows.length ≤ (probes ps).length := by
  induction n generalizing i t ps with
  | zero =>
    have hps : ps = [] := by
      cases ps with
      | nil => rfl
      | cons p ps =>
        have := splits_pos (hashJoinMaxDepth - p.depth)
        simp [work] at hn
        omega
    subst hps
    obtain ⟨rfl, -⟩ : (⟨i, [], .new, [], true⟩ : PartitionedJoinState α) = s ∧ t = t' := by
      simpa [loadLoop] using hl
    exact ⟨⟨fun _ => rfl, by simp⟩, by simp, by simp⟩
  | succ n ind =>
    cases ps with
    | nil =>
      obtain ⟨rfl, -⟩ : (⟨i, [], .new, [], true⟩ : PartitionedJoinState α) = s ∧ t = t' := by
        simpa [loadLoop] using hl
      exact ⟨⟨fun _ => rfl, by simp⟩, by simp, by simp⟩
    | cons p ps =>
      have ⟨hp, hps⟩ := forall_mem_cons.mp hP
      have hwork : work (p :: ps) = splits (hashJoinMaxDepth - p.depth) + work ps := by simp [work]
      have hpos := splits_pos (hashJoinMaxDepth - p.depth)
      rw [loadLoop] at hl
      split at hl
      case isTrue he =>
        have hprobe : p.probe = [] := by simp_all
        have ⟨hs, hw, hr⟩ := ind (by omega) hps hl
        exact ⟨by simpa [probes, hprobe] using hs, by omega, by simpa [probes, hprobe] using hr⟩
      case isFalse he =>
        split at hl
        case h_1 side t₁ hload =>
          obtain ⟨rfl, -⟩ : (⟨i, p :: ps, side, p.probe, false⟩ : PartitionedJoinState α) = s ∧ t₁ = t' := by
            simpa using hl
          refine ⟨⟨by simp, fun _ => ⟨p, ps, rfl, hps, ?_, ha.answer hp, ?_⟩⟩, le_refl _, ?_⟩
          · exact loadPartitionRows_eq_ok (ha.width hp) hload
          · simp [probes]
          · simp [probes]
        case h_2 e t₁ hload =>
          split at hl
          case isTrue hx =>
            obtain ⟨qs, hqs, hl⟩ := bind_eq_ok.mp hl
            have hwq := work_splitPartition hqs
            have happ : work (qs ++ ps) = work qs + work ps := by simp [work]
            have hperm : (probes (qs ++ ps)).Perm (probes (p :: ps)) := by
              simpa [probes] using (probes_splitPartition hqs).append_right (probes ps)
            have ⟨hs, hw, hr⟩ := ind (by omega)
              (fun q hq => (mem_append.mp hq).elim (ha.split hp hload hqs q) (hps q)) hl
            exact ⟨hs.perm hperm, by omega, hperm.length_eq ▸ hr⟩
          case isFalse hx => simp at hl

-- Rows that were served, with what they gave.
structure Served (f : Tuple α → QueryResult (List (Tuple α))) (rows out : List (Tuple α)) : Prop where
  isOk : ∀ row ∈ rows, (f row).isOk
  out : outputs f rows = out

omit [Serialized α] in
theorem Served.append {rows rows' out out' : List (Tuple α)} (h : Served f rows out) (h' : Served f rows' out') :
    Served f (rows ++ rows') (out ++ out') where
  isOk row hr := (mem_append.mp hr).elim (h.isOk row) (h'.isOk row)
  out := by simp [outputs, ← h.out, ← h'.out]

omit [Serialized α] in
theorem Served.congr {rows out : List (Tuple α)} (h : Served f rows out)
    (hg : ∀ row ∈ rows, f row = g row) : Served g rows out where
  isOk row hr := hg row hr ▸ h.isOk row hr
  out := by
    rw [← h.out, outputs, outputs]
    exact flatMap_congr fun row hr => by rw [hg row hr]

theorem serveRows_eq_ok {rows out out' rest : List (Tuple α)} (hs : j.serveRows side out rows = .ok (out', rest)) :
    ∃ served new, rows = served ++ rest ∧ Served (j.probeRow side) served new ∧ out' = out ++ new ∧
      (rest ≠ [] → partitionedBatchRows ≤ out'.length) ∧ (out.length < partitionedBatchRows → rows ≠ [] → served ≠ []) := by
  induction rows generalizing out with
  | nil =>
    obtain ⟨rfl, rfl⟩ : out = out' ∧ [] = rest := by simpa [serveRows] using hs
    exact ⟨[], [], rfl, ⟨by simp, rfl⟩, by simp, by simp, by simp⟩
  | cons row rows ind =>
    rw [serveRows] at hs
    split at hs
    case isTrue hlt =>
      obtain ⟨found, hfound, hs⟩ := bind_eq_ok.mp hs
      obtain ⟨served, new, rfl, hserved, rfl, hrest, -⟩ := ind hs
      have hrow : Served (j.probeRow side) [row] found := ⟨by simp [hfound], by simp [outputs, hfound]⟩
      exact ⟨row :: served, found ++ new, rfl, hrow.append hserved, by simp, hrest, by simp⟩
    case isFalse hlt =>
      obtain ⟨rfl, rfl⟩ : out = out' ∧ row :: rows = rest := by simpa using hs
      exact ⟨[], [], rfl, ⟨by simp, rfl⟩, by simp, fun _ => by omega, fun h => absurd h hlt⟩

theorem nextLoop_eq_ok (ha : Answers j env w f P) {rows : List (Tuple α)}
    (hn : 2 * work s.partitions + (if s.probeRows = [] then 0 else 1) < n) (h : Serving j w f P s rows)
    (hl : j.nextLoop env n s t = .ok (o, s', t')) :
    ∃ served rest, rows.Perm (served ++ rest) ∧ Served f served (o.getD []) ∧ Serving j w f P s' rest ∧
      (o = none → rest = []) ∧ o ≠ some [] := by
  induction n generalizing s t rows with
  | zero => omega
  | succ n ind =>
    rw [nextLoop] at hl
    split at hl
    case isTrue he =>
      obtain ⟨rfl, rfl, -⟩ : none = o ∧ s = s' ∧ t = t' := by simpa using hl
      obtain rfl := h.done he
      exact ⟨[], [], .nil, ⟨by simp, rfl⟩, h, fun _ => rfl, by simp⟩
    case isFalse he =>
      obtain ⟨p, ps, hps, hP, hside, hrows, hperm⟩ := h.loaded (by simpa using he)
      have hwork : work s.partitions = splits (hashJoinMaxDepth - p.depth) + work ps := by simp [hps, work]
      have hpos := splits_pos (hashJoinMaxDepth - p.depth)
      split at hl
      case isTrue hempty =>
        obtain ⟨⟨s₁, t₁⟩, hload, hl⟩ := bind_eq_ok.mp hl
        rw [advance, loadCurrent, hps, tail_cons] at hload
        obtain ⟨hs₁, hw₁, -⟩ := loadLoop_eq_ok ha (le_refl _) hP hload
        have hempty : s.probeRows = [] := by simpa using hempty
        rw [hempty, nil_append] at hperm
        exact ind (by split <;> omega) (hs₁.perm hperm.symm) hl
      case isFalse hrowsne =>
        obtain ⟨⟨out, rest⟩, hserve, hl⟩ := bind_eq_ok.mp hl
        obtain ⟨served, new, hsplit, hserved, hout, hrest, -⟩ := serveRows_eq_ok hserve
        have hserved : Served f served out := by
          rw [hout, nil_append]
          refine hserved.congr fun row hr => ?_
          rw [probeRow_eq hside, hrows row (hsplit ▸ mem_append_left _ hr)]
        obtain ⟨rows', hs₁, hperm⟩ := h.rest (by simpa using he) hsplit
        dsimp only at hl
        split at hl
        case isTrue hnone =>
          have hnone : out = [] := by simpa using hnone
          have hdone : rest = [] := by
            by_contra hne
            simpa [hnone, partitionedBatchRows] using hrest hne
          obtain ⟨served', rest', hperm', hserved', hs', ho⟩ := ind (by simp_all) hs₁ hl
          refine ⟨served ++ served', rest', ?_, ?_, hs', ho⟩
          · rw [append_assoc]
            exact hperm.trans (hperm'.append_left served)
          · simpa [hnone] using hserved.append hserved'
        case isFalse hsome =>
          obtain ⟨rfl, rfl, -⟩ : some out = o ∧ { s with probeRows := rest } = s' ∧ t = t' := by simpa using hl
          exact ⟨served, rows', hperm, hserved, hs₁, by simp, by simpa using hsome⟩

theorem servePartitioned_eq_ok {p : PartitionedJoinState α} :
    j.servePartitioned env s p = .ok (o, s') ↔ ∃ p' t, j.nextPartitioned env p s.tracker = .ok (o, p', t) ∧
      { s with partitioned := some p', tracker := t } = s' := by
  simp [servePartitioned, bind_eq_ok, pure, Except.pure]

theorem drains_partitioned (ha : Answers j env w f P) {p : PartitionedJoinState α}
    {rows out : List (Tuple α)} (hp : s.partitioned = some p) (h : Serving j w f P p rows)
    (d : Drains (j.next env w) s out) : (∀ row ∈ rows, (f row).isOk) ∧ out.Perm (outputs f rows) := by
  have step : ∀ {s s' : JoinState α} {p : PartitionedJoinState α} {rows : List (Tuple α)} {o : Option (List (Tuple α))},
      s.partitioned = some p → Serving j w f P p rows → j.next env w s = .ok (o, s') →
      ∃ p' served rest, s'.partitioned = some p' ∧ rows.Perm (served ++ rest) ∧ Served f served (o.getD []) ∧
        Serving j w f P p' rest ∧ (o = none → rest = []) := by
    intro s s' p rows o hp h hn
    rw [next, hp, servePartitioned_eq_ok] at hn
    obtain ⟨p', t, hn, rfl⟩ := hn
    obtain ⟨served, rest, hperm, hserved, h', hnone, -⟩ := nextLoop_eq_ok ha (by split <;> omega) h hn
    exact ⟨p', served, rest, rfl, hperm, hserved, h', hnone⟩
  induction d generalizing p rows with
  | done hn =>
    obtain ⟨p', served, rest, -, hperm, hserved, -, hrest⟩ := step hp h hn
    rw [hrest rfl, append_nil] at hperm
    refine ⟨fun row hr => hserved.isOk row (hperm.mem_iff.mp hr), ?_⟩
    rw [show [] = outputs f served from hserved.out.symm]
    exact (hperm.flatMap_right _).symm
  | more hn d ind =>
    obtain ⟨p', served, rest, hp', hperm, hserved, h', -⟩ := step hp h hn
    obtain ⟨hok, hout⟩ := ind hp' h'
    refine ⟨fun row hr => (mem_append.mp (hperm.mem_iff.mp hr)).elim (hserved.isOk row) (hok row), ?_⟩
    have hboth : (outputs f rows).Perm (outputs f served ++ outputs f rest) := by
      simpa [outputs] using hperm.flatMap_right fun row => (f row).getD []
    refine List.Perm.trans ?_ hboth.symm
    rw [hserved.out]
    exact hout.append_left _

end

section

variable {input : List (List (Tuple α))} {probe : List (Tuple α)}

-- Rows that find each other are sent to the same partition.
def Routes (j : HashJoin α) (build probe : List (Tuple α)) : Prop :=
  ∀ row ∈ probe, ∀ k, j.probeKey row = .ok k → ∀ b ∈ build, (keyOf j.buildKey b).same k →
    hashJoinKeyPartition (keyOf j.buildKey b) hashJoinPartitionsDefault =
      hashJoinKeyPartition k hashJoinPartitionsDefault

-- Each probe row finds in its partition what it finds among some rows of the build side.
def Covers (j : HashJoin α) (probe : List (Tuple α)) (ps : Partitions α) (rows : List (Tuple α)) : Prop :=
  ∀ row ∈ probe, ∀ k, j.probeKey row = .ok k →
    (ps.getD (hashJoinKeyPartition k hashJoinPartitionsDefault) []).filter (fun b => (keyOf j.buildKey b).same k) =
      rows.filter fun b => (keyOf j.buildKey b).same k

theorem Covers.distribute {rows : List (Tuple α)} (h : Covers j probe ps rows)
    (hlen : ps.length = hashJoinPartitionsDefault) (es : List (JoinKeyValue α × Tuple α))
    (hes : ∀ row ∈ probe, ∀ k, j.probeKey row = .ok k → ∀ e ∈ es, (keyOf j.buildKey e.2).same k →
      hashJoinKeyPartition e.1 hashJoinPartitionsDefault = hashJoinKeyPartition k hashJoinPartitionsDefault) :
    Covers j probe (ps.distribute es) (rows ++ es.map (·.2)) := by
  intro row hrow k hk
  have hlt := hashJoinKeyPartition_lt k (n := hashJoinPartitionsDefault) (by decide)
  rw [Partitions.getD_distribute (by omega), filter_append, h row hrow k hk, filter_append, hlen,
    filter_map, filter_map, filter_filter]
  congr 2
  apply filter_congr
  intro e he
  have := hes row hrow k hk e he
  by_cases hs : (keyOf j.buildKey e.2).same k <;> simp_all

-- What is known while the build input is read, of which some rows are behind.
structure Building (j : HashJoin α) (w : ℕ) (probe : List (Tuple α)) (input : List (List (Tuple α))) (s : JoinState α)
    (rows : List (Tuple α)) : Prop where
  keys : ∀ row ∈ rows, (j.buildKey row).isOk
  width : ∀ row ∈ rows, row.length = w
  memory : s.pendingBuild = none → Holds j.buildKey w s.buildSide rows
  spilled : ∀ ps, s.pendingBuild = some ps → s.buildSide = .new ∧ ps.length = hashJoinPartitionsDefault ∧
    (∀ row ∈ ps.flatten, row ∈ rows) ∧ Covers j probe ps rows
  partitioned : s.partitioned = none
  probeInput : s.probeInput = input

variable {all rows new : List (Tuple α)} {chunks : List (List (Tuple α))} {s s' : JoinState α}

theorem covers_empty (n : ℕ) : Covers j probe (.empty n) [] := by
  intro row _ k _
  rw [Partitions.getD_empty]

theorem spillBuildSide_eq_ok (hs : spillBuildSide s = .ok s')
    (hlen : ∀ ps, s.pendingBuild = some ps → ps.length = hashJoinPartitionsDefault) :
    { s with
      buildSide := .new
      tracker := s.tracker.reset
      pendingBuild := some ((s.pendingBuild.getD (.empty hashJoinPartitionsDefault)).distribute
        s.buildSide.takeIndexedRows) } = s' := by
  have hpos : 0 < (s.pendingBuild.getD (.empty hashJoinPartitionsDefault)).length := by
    cases h : s.pendingBuild with
    | none => simp [hashJoinPartitionsDefault]
    | some ps => simp [hlen ps h, hashJoinPartitionsDefault]
  rw [spillBuildSide, Partitions.foldlM_insertKeyed hpos] at hs
  exact Except.ok.inj hs

-- Rows without columns get lost: this is harmless only if no probe row finds one.
theorem Building.spillBuildSide (h : Building j w probe input s rows) (hr : Routes j rows probe)
    (hzero : w = 0 → s.pendingBuild = none → ∀ row ∈ probe, ∀ k, j.probeKey row = .ok k →
      ∀ b ∈ rows, ¬(keyOf j.buildKey b).same k)
    (hs : HashJoin.spillBuildSide s = .ok s') : Building j w probe input s' rows ∧ s'.pendingBuild.isSome := by
  have hs' := spillBuildSide_eq_ok hs fun ps hps => (h.spilled ps hps).2.1
  subst hs'
  refine ⟨⟨h.keys, h.width, by simp, ?_, h.partitioned, h.probeInput⟩, rfl⟩
  intro ps hps
  obtain rfl := Option.some.inj hps
  cases hp : s.pendingBuild with
  | some ps =>
    obtain ⟨hside, hlen, hmem, hcov⟩ := h.spilled ps hp
    have htake : s.buildSide.takeIndexedRows = [] := by rw [hside]; rfl
    exact ⟨rfl, by simpa [htake] using hlen, by simpa [htake, Partitions.distribute] using hmem,
      by simpa [htake, Partitions.distribute] using hcov⟩
  | none =>
    have hold := h.memory hp
    have hflat : (Partitions.distribute (.empty hashJoinPartitionsDefault) s.buildSide.takeIndexedRows).flatten.Perm
        (s.buildSide.takeIndexedRows.map (·.2)) := by
      simpa using Partitions.flatten_distribute (.empty hashJoinPartitionsDefault)
        s.buildSide.takeIndexedRows (by simp [hashJoinPartitionsDefault])
    refine ⟨rfl, by simp, fun row hrow => ?_, ?_⟩
    · have hmem := hflat.mem_iff.mp hrow
      by_cases hw : w = 0
      · subst hw
        simp [hold.takeIndexedRows_of_zero] at hmem
      · exact (hold.takeIndexedRows hw).1 ▸ hmem
    · by_cases hw : w = 0
      · have htake : s.buildSide.takeIndexedRows = [] := by
          subst hw
          exact hold.takeIndexedRows_of_zero
        intro row hrow k hk
        rw [htake, filter_eq_nil_iff.mpr (hzero hw hp row hrow k hk)]
        exact covers_empty _ row hrow k hk
      · have ⟨hrows, htake⟩ := hold.takeIndexedRows hw
        have hempty : Covers j probe (.empty hashJoinPartitionsDefault) [] := covers_empty _
        have hcov := hempty.distribute (by simp) s.buildSide.takeIndexedRows fun row hrow k hk e he hs => by
          have ⟨⟨b, hb, hkey⟩, hsame⟩ := htake e he
          rw [hkey] at hsame ⊢
          exact hr row hrow k hk b hb (hsame k hs)
        rwa [hrows, nil_append] at hcov

theorem Building.spillRows (h : Building j w probe input s rows) (hr : Routes j (rows ++ new) probe)
    (hw : ∀ row ∈ new, row.length = w) (hps : s.pendingBuild = some ps)
    (hs : j.spillRows s ps new = .ok s') : Building j w probe input s' (rows ++ new) := by
  obtain ⟨hside, hlen, hmem, hcov⟩ := h.spilled ps hps
  obtain ⟨ps', hroute, hs⟩ := bind_eq_ok.mp hs
  obtain ⟨hkeys, rfl⟩ := (Partitions.route_eq_ok (by simp [hlen, hashJoinPartitionsDefault])).mp hroute
  cases hs
  refine ⟨?_, ?_, by simp, ?_, h.partitioned, h.probeInput⟩
  · exact fun row hrow => (mem_append.mp hrow).elim (h.keys row) (hkeys row)
  · exact fun row hrow => (mem_append.mp hrow).elim (h.width row) (hw row)
  · intro ps' hps'
    obtain rfl := Option.some.inj hps'
    refine ⟨hside, by simpa using hlen, fun row hrow => ?_, ?_⟩
    · have hflat := Partitions.flatten_distribute ps (keyed j.buildKey new)
        (by simp [hlen, hashJoinPartitionsDefault])
      rw [map_keyed] at hflat
      exact mem_append.mpr ((mem_append.mp (hflat.mem_iff.mp hrow)).symm.imp (hmem row) id)
    · have := hcov.distribute hlen (keyed j.buildKey new) fun row hrow k hk e he hs => by
        obtain ⟨b, hb, rfl⟩ := mem_map.mp he
        exact hr row hrow k hk b (mem_append_right _ hb) hs
      rwa [map_keyed] at this

omit [Serialized α] in
theorem reserveRows_nil (h : reserveRows env t rows = (false, t')) : rows ≠ [] := by
  rintro rfl
  simp [reserveRows] at h

-- One chunk of the build input. If rows have no columns, no probe row finds a row of an earlier chunk
-- when this one has rows.
theorem Building.buildInMemory (h : Building j w probe input s rows) (hr : Routes j (rows ++ new) probe)
    (hw : ∀ row ∈ new, row.length = w) (hp : s.pendingBuild = none)
    (hzero : w = 0 → new ≠ [] → ∀ row ∈ probe, ∀ k, j.probeKey row = .ok k →
      ∀ b ∈ rows, ¬(keyOf j.buildKey b).same k)
    (hs : j.buildInMemory env w s new = .ok s') : Building j w probe input s' (rows ++ new) := by
  simp only [HashJoin.buildInMemory] at hs
  split at hs
  case isTrue hgrant =>
    obtain ⟨side, hside, hs⟩ := bind_eq_ok.mp hs
    cases hs
    obtain ⟨hkeys, hholds⟩ := (h.memory hp).insertChunk hw hside
    refine ⟨?_, hholds.width, fun _ => hholds, ?_, h.partitioned, h.probeInput⟩
    · exact fun row hrow => (mem_append.mp hrow).elim (h.keys row) (hkeys row)
    · intro ps hps
      simp [hp] at hps
  case isFalse hrefuse =>
    have hne : new ≠ [] := reserveRows_nil (Prod.ext (by simpa using hrefuse) rfl)
    obtain ⟨s₁, hspill, hs⟩ := bind_eq_ok.mp hs
    have hold : Building j w probe input { s with tracker := (reserveRows env s.tracker new).2 } rows :=
      ⟨h.keys, h.width, h.memory, h.spilled, h.partitioned, h.probeInput⟩
    have hrold : Routes j rows probe :=
      fun row hrow k hk b hb => hr row hrow k hk b (mem_append_left _ hb)
    obtain ⟨hspilled, hsome⟩ := hold.spillBuildSide hrold (fun hw _ => hzero hw hne) hspill
    obtain ⟨ps, hps⟩ := Option.isSome_iff_exists.mp hsome
    rw [hps] at hs
    exact hspilled.spillRows hr hw hps hs

theorem Building.spillWithManager (h : Building j w probe input s rows) (hr : Routes j rows probe)
    (hs : HashJoin.spillWithManager s = .ok s') : Building j w probe input s' rows := by
  rw [HashJoin.spillWithManager] at hs
  split at hs
  · cases hs
    exact h
  · split at hs
    case isTrue he =>
      cases hs
      exact h
    case isFalse he =>
      refine (h.spillBuildSide hr (fun hw hp => ?_) hs).1
      have := (h.memory hp).stored
      simp_all [HashJoinBuildSide.rowCount]

-- Rows without columns that are found came in one chunk.
def Kept (j : HashJoin α) (w : ℕ) (chunks : List (List (Tuple α))) (probe : List (Tuple α)) : Prop :=
  w = 0 → ∀ row ∈ probe, ∀ k, j.probeKey row = .ok k → ∀ b ∈ chunks.flatten, (keyOf j.buildKey b).same k →
    (chunks.filter (· ≠ [])).length ≤ 1

theorem buildSideLoop_eq_ok (h : Building j w probe input s pre.flatten)
    (hw : ∀ row ∈ chunks.flatten, row.length = w) (hall : Routes j (pre ++ chunks).flatten probe)
    (hzero : Kept j w (pre ++ chunks) probe) (hs : j.buildSideLoop env w n s chunks = .ok s') :
    Building j w probe input s' (pre ++ chunks).flatten ∧ s'.buildDone := by
  induction chunks generalizing n s pre with
  | nil =>
    cases hs
    simpa using ⟨h.keys, h.width, h.memory, h.spilled, h.partitioned, h.probeInput⟩
  | cons chunk chunks ind =>
    obtain ⟨s₁, hreq, hs⟩ := bind_eq_ok.mp hs
    obtain ⟨s₂, hchunk, hs⟩ := bind_eq_ok.mp hs
    rw [append_cons] at hall hzero ⊢
    have hwidth := forall_mem_append.mp (flatten_cons ▸ hw)
    have hnew : Routes j (pre.flatten ++ chunk) probe := fun row hrow k hk b hb =>
      hall row hrow k hk b (by simp_all; grind)
    have hpre : Routes j pre.flatten probe := fun row hrow k hk b hb =>
      hnew row hrow k hk b (mem_append_left _ hb)
    have h₁ : Building j w probe input s₁ pre.flatten := by
      rw [buildRequested] at hreq
      split at hreq
      · exact h.spillWithManager hpre hreq
      · cases hreq
        exact h
    have h₂ : Building j w probe input s₂ (pre ++ [chunk]).flatten := by
      rw [flatten_append, flatten_singleton]
      rw [buildChunk] at hchunk
      split at hchunk
      case h_1 ps hps => exact h₁.spillRows hnew hwidth.1 hps hchunk
      case h_2 hp =>
        refine h₁.buildInMemory hnew hwidth.1 hp (fun hw hne row hrow k hk b hb hs => ?_) hchunk
        -- the chunk of `b` and this one are two chunks with rows
        obtain ⟨c, hc, hbc⟩ := mem_flatten.mp hb
        have hcount := hzero hw row hrow k hk b (by simp; grind) hs
        have hc' : 0 < (pre.filter (· ≠ [])).length :=
          length_pos_of_mem (mem_filter.mpr ⟨hc, by simpa using ne_nil_of_mem hbc⟩)
        have hchunk' : ([chunk].filter (· ≠ [])).length = 1 := by simp [hne]
        rw [filter_append, filter_append, length_append, length_append] at hcount
        omega
    exact ind h₂ hwidth.2 hall hzero hs

end

section

variable {build probe : List (Tuple α)} {n d : ℕ} {p : Partition α}

-- The probe rows of a partition find in it all that they find on the build side.
structure Complete (j : HashJoin α) (build probe : List (Tuple α)) (p : Partition α) : Prop where
  buildRows : ∀ b ∈ p.build, b ∈ build
  probeRows : ∀ row ∈ p.probe, row ∈ probe
  finds : ∀ row ∈ p.probe, ∃ k, j.probeKey row = .ok k ∧
    p.build.filter (fun b => (keyOf j.buildKey b).same k) = build.filter fun b => (keyOf j.buildKey b).same k

theorem Complete.answer (h : Complete j build probe p) (hrow : row ∈ p.probe) :
    j.answer p.build row = j.answer build row := by
  obtain ⟨k, hk, hfilter⟩ := h.finds row hrow
  rw [HashJoin.answer, HashJoin.answer, hk, ok_bind, ok_bind, hfilter]

omit [Serialized α] in
theorem mem_zipWith_mk {bs ps : Partitions α} (hp : p ∈ List.zipWith (.mk d) bs ps) :
    ∃ i < bs.length, p = ⟨d, bs.getD i [], ps.getD i []⟩ := by
  obtain ⟨i, hi, rfl⟩ := mem_iff_getElem.mp hp
  have : i < bs.length ∧ i < ps.length := by simpa using hi
  exact ⟨i, this.1, by simp [this]⟩

theorem getD_distribute_keyed (hi : i < n) (rows : List (Tuple α)) :
    (Partitions.distribute (.empty n) (keyed key rows)).getD i [] =
      rows.filter fun row => hashJoinKeyPartition (keyOf key row) n = i := by
  rw [Partitions.getD_distribute (by simpa using hi), Partitions.getD_empty, Partitions.length_empty, keyed,
    filter_map, map_map]
  exact map_id _

theorem complete_of_zipWith {bs : Partitions α} {rows : List (Tuple α)} (hlen : bs.length = n)
    (hkeys : ∀ row ∈ rows, (j.probeKey row).isOk) (hbuild : ∀ b ∈ bs.flatten, b ∈ build)
    (hrows : ∀ row ∈ rows, row ∈ probe) (hfinds : ∀ row ∈ rows, ∀ k, j.probeKey row = .ok k →
      (bs.getD (hashJoinKeyPartition k n) []).filter (fun b => (keyOf j.buildKey b).same k) =
        build.filter fun b => (keyOf j.buildKey b).same k) :
    ∀ p ∈ List.zipWith (.mk d) bs (Partitions.distribute (.empty n) (keyed j.probeKey rows)),
      Complete j build probe p := by
  intro p hp
  obtain ⟨i, hi, rfl⟩ := mem_zipWith_mk hp
  rw [getD_distribute_keyed (hlen ▸ hi)]
  refine ⟨fun b hb => hbuild b ?_, fun row hrow => hrows row (mem_of_mem_filter hrow), fun row hrow => ?_⟩
  · simp only [getD_eq_getElem?_getD, getElem?_eq_getElem hi, Option.getD_some] at hb
    exact mem_flatten_of_mem (getElem_mem hi) hb
  · have ⟨hrow, hpart⟩ := mem_filter.mp hrow
    have hk : j.probeKey row = .ok (keyOf j.probeKey row) := eq_ok_getD (hkeys row hrow)
    refine ⟨_, hk, ?_⟩
    have := hfinds row hrow _ hk
    rwa [show hashJoinKeyPartition _ n = i from of_decide_eq_true hpart] at this

theorem subPartition_eq (key : JoinKeyValue α) : hashJoinKeyPartition key graceSubPartitions =
    hashJoinKeyPartition key hashJoinPartitionsDefault % graceSubPartitions :=
  (hashJoinKeyPartition_mod key (by decide) (by decide)).symm

theorem Complete.split (h : Complete j build probe p)
    (hr : Routes j build probe) (hs : j.splitPartition i p = .ok qs) : ∀ q ∈ qs, Complete j build probe q := by
  obtain ⟨-, -, hkeys, rfl⟩ := splitPartition_eq_ok.mp hs
  refine complete_of_zipWith (by simp) hkeys (fun b hb => h.buildRows b ?_) h.probeRows fun row hrow k hk => ?_
  · have := Partitions.flatten_distribute (.empty graceSubPartitions) (keyed j.buildKey p.build)
      (by simp [graceSubPartitions])
    simpa using this.mem_iff.mp hb
  · obtain ⟨k', hk', hfilter⟩ := h.finds row hrow
    obtain rfl : k = k' := Except.ok.inj (hk.symm.trans hk')
    rw [getD_distribute_keyed (hashJoinKeyPartition_lt k (by decide)), filter_filter, ← hfilter]
    apply filter_congr
    intro b hb
    by_cases hs : (keyOf j.buildKey b).same k
    · -- equal among 32 partitions, hence among 4
      have hroute := hr row (h.probeRows row hrow) k hk b (h.buildRows b hb) hs
      simp [hs, subPartition_eq, hroute]
    · simp [hs]

theorem answers_complete (hr : Routes j build probe) (hw : ∀ b ∈ build, b.length = w) :
    Answers j env w (j.answer build) (Complete j build probe) where
  width h b hb := hw b (h.buildRows b hb)
  answer h _ := h.answer
  split h _ hs := h.split hr hs

end

section

variable {chunks input : List (List (Tuple α))} {s : JoinState α} {out : List (Tuple α)}
  {p : PartitionedJoinState α} {ps : Partitions α} {t : MemoryTracker}

theorem next_new : j.next env w (.new chunks input) =
    j.buildSideLoop env w 0 (.new chunks input) chunks >>= j.afterBuild env :=
  rfl

-- Keys of both inputs can be evaluated.
structure Keyed (j : HashJoin α) (build probe : List (Tuple α)) : Prop where
  build : ∀ row ∈ build, (j.buildKey row).isOk
  probe : ∀ row ∈ probe, (j.probeKey row).isOk

theorem building_new (probe : List (Tuple α)) : Building j w probe input (.new chunks input) [] where
  keys := by simp
  width := by simp
  memory _ := HashJoinBuildSide.holds_new
  spilled := by simp [JoinState.new]
  partitioned := rfl
  probeInput := rfl

theorem enterPartitionedMode_eq_ok (hlen : 0 < ps.length) : j.enterPartitionedMode env s ps = .ok (p, t) ↔
      (∀ row ∈ s.probeInput.flatten, (j.probeKey row).isOk) ∧
        j.loadCurrent env 0 s.tracker.reset (List.zipWith (.mk 0) ps
          (Partitions.distribute (.empty ps.length) (keyed j.probeKey s.probeInput.flatten))) = .ok (p, t) := by
  rw [enterPartitionedMode, bind_eq_ok]
  simp only [Partitions.route_eq_ok (show 0 < (Partitions.empty ps.length : Partitions α).length by simpa using hlen),
    and_assoc, exists_and_left, exists_eq_left']

theorem afterBuild_eq_next (hps : s.pendingBuild = some ps) (h : j.enterPartitionedMode env s ps = .ok (p, t)) :
    j.afterBuild env s = j.next env w { s with
      pendingBuild := none, tracker := t, probeInput := [], partitioned := some p } := by
  rw [afterBuild, hps]
  simp only [h, ok_bind]
  rfl

theorem Building.drains_memory (h : Building j w probe input s chunks.flatten)
    (hd : s.buildDone) (hp : s.pendingBuild = none) (d : Drains (j.next env w) s out) :
    (∀ row ∈ input.flatten, (j.answer chunks.flatten row).isOk) ∧ j.answers chunks.flatten input.flatten = out :=
  h.probeInput ▸ HashJoin.drains_memory h.partitioned hd (h.memory hp) d

theorem Building.drains_spilled (h : Building j w input.flatten input s chunks.flatten)
    (hr : Routes j chunks.flatten input.flatten)
    (hps : s.pendingBuild = some ps) (he : j.enterPartitionedMode env s ps = .ok (p, t))
    (d : Drains (j.next env w) { s with
      pendingBuild := none, tracker := t, probeInput := [], partitioned := some p } out) :
    (∀ row ∈ input.flatten, (j.answer chunks.flatten row).isOk) ∧ out.Perm (j.answers chunks.flatten input.flatten) := by
  obtain ⟨-, hlen, hmem, hcov⟩ := h.spilled ps hps
  have hpos : 0 < ps.length := by simp [hlen, hashJoinPartitionsDefault]
  obtain ⟨hkeys, hload⟩ := (enterPartitionedMode_eq_ok hpos).mp he
  rw [h.probeInput] at hkeys hload
  have ha : Answers j env w (j.answer chunks.flatten) (Complete j chunks.flatten input.flatten) :=
    answers_complete hr h.width
  have hP := complete_of_zipWith (d := 0) (n := ps.length) rfl hkeys hmem (fun _ h => h)
    fun row hrow k hk => hlen ▸ hcov row hrow k hk
  obtain ⟨hs, -⟩ := loadLoop_eq_ok ha (le_refl _) hP hload
  rw [probes_zipWith (by simp)] at hs
  have hflat := Partitions.flatten_distribute (.empty ps.length) (keyed j.probeKey input.flatten) (by simpa using hpos)
  exact drains_partitioned ha rfl (hs.perm (by simpa using hflat)) d

-- Whatever a drained join spilled, it gave what its probe rows are owed.
theorem drains_perm (hw : ∀ row ∈ chunks.flatten, row.length = w) (hr : Keyed j chunks.flatten input.flatten →
      Routes j chunks.flatten input.flatten ∧ Kept j w chunks input.flatten)
    (d : Drains (j.next env w) (.new chunks input) out) : (∀ row ∈ chunks.flatten, (j.buildKey row).isOk) ∧
      (∀ row ∈ input.flatten, (j.answer chunks.flatten row).isOk) ∧
        out.Perm (j.answers chunks.flatten input.flatten) := by
  obtain ⟨r, hr₁⟩ := d.next_ok
  obtain ⟨s, hs, hr₁⟩ := bind_eq_ok.mp (next_new.symm.trans hr₁)
  have hnext : j.next env w (.new chunks input) = j.afterBuild env s := by rw [next_new, hs, ok_bind]
  -- without probe rows nothing is asked of the routes
  have hnew (probe : List (Tuple α)) : Building j w probe input (.new chunks input) (List.flatten []) := building_new _
  have ⟨hold, hdone⟩ := buildSideLoop_eq_ok (hnew []) hw (by simp [Routes]) (by simp [Kept]) hs
  refine ⟨hold.keys, ?_⟩
  cases hps : s.pendingBuild with
  | none =>
    have d : Drains (j.next env w) s out := by
      refine d.of_next_eq ?_
      rw [hnext, next_memory hold.partitioned hdone, afterBuild, hps]
    have ⟨hok, hout⟩ := hold.drains_memory hdone hps d
    exact ⟨hok, .of_eq hout.symm⟩
  | some ps =>
    rw [afterBuild, hps] at hr₁
    obtain ⟨⟨p, t⟩, he, -⟩ := bind_eq_ok.mp hr₁
    have hlen := (hold.spilled ps hps).2.1
    have hprobe := ((enterPartitionedMode_eq_ok (by simp [hlen, hashJoinPartitionsDefault])).mp he).1
    rw [hold.probeInput] at hprobe
    have ⟨hroutes, hkept⟩ := hr ⟨hold.keys, hprobe⟩
    obtain ⟨h, -⟩ := buildSideLoop_eq_ok (hnew input.flatten) hw hroutes hkept hs
    exact h.drains_spilled hroutes hps he (d.of_next_eq (hnext.trans (afterBuild_eq_next hps he)).symm)

end

section

-- Some row with a key that is not null is in partition `p`, and in its part `s` once `p` is split.
def SplitReaches (α : Type) [Serialized α] (p s : ℕ) : Prop :=
  ∃ (j : HashJoin α) (row : Tuple α) (key : JoinKeyValue α),
    j.buildKey row = .ok key ∧ key.isNullish = false ∧
      hashJoinKeyPartition key hashJoinPartitionsDefault = p ∧
        ∃ i qs q, j.splitPartition i ⟨0, [row], []⟩ = .ok qs ∧ qs[s]? = some q ∧ row ∈ q.build

-- The partitions that a partition is split into, at every depth.
inductive Part (j : HashJoin α) (p : Partition α) : Partition α → Prop
  | whole : Part j p p
  | split {i : ℕ} {qs : List (Partition α)} : Part j p q → j.splitPartition i q = .ok qs → r ∈ qs → Part j p r

variable {j : HashJoin α} {p : Partition α} {qs : List (Partition α)} {i s : ℕ}

theorem getElem?_splitPartition (h : j.splitPartition i p = .ok qs) (hs : s < graceSubPartitions) :
    qs[s]? = some ⟨p.depth + 1,
      p.build.filter fun row => hashJoinKeyPartition (keyOf j.buildKey row) graceSubPartitions = s,
      p.probe.filter fun row => hashJoinKeyPartition (keyOf j.probeKey row) graceSubPartitions = s⟩ := by
  obtain ⟨-, -, -, rfl⟩ := splitPartition_eq_ok.mp h
  have hlen : s < (List.zipWith (Partition.mk (p.depth + 1))
      (Partitions.distribute (.empty graceSubPartitions) (keyed j.buildKey p.build))
      (Partitions.distribute (.empty graceSubPartitions) (keyed j.probeKey p.probe))).length := by
    simpa using hs
  rw [← getD_distribute_keyed hs, ← getD_distribute_keyed hs, getElem?_eq_getElem hlen, getElem_zipWith]
  simp [hs]

theorem filter_subPartition {key : Tuple α → QueryResult (JoinKeyValue α)} {rows : List (Tuple α)}
    (h : ∀ row ∈ rows, hashJoinKeyPartition (keyOf key row) hashJoinPartitionsDefault = n) :
    rows.filter (fun row => hashJoinKeyPartition (keyOf key row) graceSubPartitions = s) =
      if n % graceSubPartitions = s then rows else [] := by
  rw [filter_congr fun row hr => by rw [subPartition_eq, h row hr]]
  split
  case isTrue hs => simp [hs]
  case isFalse hs => simp [hs]

-- The rows of one partition stay together however often it is split.
theorem Part.whole_or_empty (h : Part j p q)
    (hb : ∀ b ∈ p.build, hashJoinKeyPartition (keyOf j.buildKey b) hashJoinPartitionsDefault = n)
    (hr : ∀ row ∈ p.probe, hashJoinKeyPartition (keyOf j.probeKey row) hashJoinPartitionsDefault = n) :
    (q.build = p.build ∧ q.probe = p.probe) ∨ (q.build = [] ∧ q.probe = []) := by
  induction h with
  | whole => exact .inl ⟨rfl, rfl⟩
  | split _ hs hq ind =>
    obtain ⟨-, -, -, rfl⟩ := splitPartition_eq_ok.mp hs
    obtain ⟨s, hlt, rfl⟩ := mem_zipWith_mk hq
    have hlt : s < graceSubPartitions := by simpa using hlt
    rw [getD_distribute_keyed hlt, getD_distribute_keyed hlt]
    obtain ⟨hbuild, hprobe⟩ | ⟨hbuild, hprobe⟩ := ind
    · rw [hbuild, hprobe, filter_subPartition hb, filter_subPartition hr]
      split
      case isTrue => exact .inl ⟨rfl, rfl⟩
      case isFalse => exact .inr ⟨rfl, rfl⟩
    · simp [hbuild, hprobe]

-- All rows have the same number for a key.
def numbered (α : Type) (n : ℕ) : HashJoin α where
  evaluate _ _ _ := .ok (.int (.ofNat n))
  joinCondition := none
  hashKeys := [.variable "n"]
  probeKeys := []
  buildNames := []
  probeNames := []
  leftJoin := false
  outputWidth := 0

-- The numbers below 256 are in all partitions of the first level.
theorem exists_int_partition : ∀ p < hashJoinPartitionsDefault, ∃ n < 256,
    hashBytesPartition (Postcard.varint 0 ++ Postcard.varint (Postcard.zigzag (Int32.ofNat n).toInt))
      hashJoinPartitionsDefault = p := by
  decide +kernel

omit [Serialized α] in
theorem splitReaches_iff [Foreign α] {p s : ℕ} (hp : p < hashJoinPartitionsDefault) (hs : s < graceSubPartitions) :
    @SplitReaches α .wire p s ↔ s = p % graceSubPartitions := by
  let _ : Serialized α := .wire
  constructor
  · rintro ⟨j, row, key, hk, -, rfl, i, qs, q, hsplit, hq, hrow⟩
    rw [getElem?_splitPartition hsplit hs] at hq
    cases hq
    have := (mem_filter.mp hrow).2
    rw [keyOf, hk, getD_ok, subPartition_eq] at this
    exact (of_decide_eq_true this).symm
  · rintro rfl
    obtain ⟨n, -, hn⟩ := exists_int_partition p hp
    have hn : hashJoinKeyPartition (.i32 (.ofNat n) : JoinKeyValue α) hashJoinPartitionsDefault = p := hn
    have hk : (numbered α n).buildKey [] = .ok (.i32 (.ofNat n)) := rfl
    obtain ⟨qs, hsplit⟩ : ∃ qs, (numbered α n).splitPartition 0 ⟨0, [[]], []⟩ = .ok qs :=
      ⟨_, splitPartition_eq_ok.mpr ⟨by simp [hashJoinMaxDepth], by simp [hk, Except.isOk, Except.toBool], by simp, rfl⟩⟩
    refine ⟨_, [], _, hk, rfl, hn, 0, qs, _, hsplit, getElem?_splitPartition hsplit hs, mem_filter.mpr ?_⟩
    have hkey : keyOf (numbered α n).buildKey [] = .i32 (.ofNat n) := by rw [keyOf, hk, getD_ok]
    exact ⟨mem_singleton_self _, by simp [hkey, subPartition_eq, hn]⟩

-- The only part of the first partition that can get a row is the first.
theorem splitReaches_first : 0 < hashJoinPartitionsDefault ∧ 0 < graceSubPartitions ∧ SplitReaches Empty 0 0 :=
  ⟨by decide, by decide, (splitReaches_iff (by decide) (by decide)).mpr rfl⟩

theorem not_splitReaches_second : ¬SplitReaches Empty 0 1 := by
  rintro ⟨j, row, key, hk, -, hp, i, qs, q, hsplit, hq, hrow⟩
  rw [getElem?_splitPartition hsplit (by decide)] at hq
  cases hq
  have hs := (mem_filter.mp hrow).2
  rw [keyOf, hk, getD_ok, subPartition_eq, hp] at hs
  exact absurd hs (by decide)

end

end HashJoin
end Linkrs
