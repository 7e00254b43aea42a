import Linkrs.Lib.Chunks
import Linkrs.Lib.Crc32
import Linkrs.Lib.StableSort
import Linkrs.Wal.Directory

namespace Linkrs

open List LocalWalParser

variable (backend : WalBackend)

def LocalWalParser.openDirectory (p : LocalWalParser) (files : List WalFile) :
    WalResult LocalWalParser := do
  p.openFiles backend (← discoverWalFiles files p.recoveryMode)

namespace RecoveryResult

def merge (merged result : RecoveryResult) : RecoveryResult where
  allEntries := merged.allEntries ++ result.allEntries
  lastTimestamp :=
    if merged.lastTimestamp < result.lastTimestamp then result.lastTimestamp
    else merged.lastTimestamp
  lastLsn := if merged.lastLsn < result.lastLsn then result.lastLsn else merged.lastLsn
  corruptedCount := merged.corruptedCount + result.corruptedCount
  skippedCount := merged.skippedCount + result.skippedCount

end RecoveryResult

-- The number of threads is at least one: `with_threads` sees to that.
structure ParallelWalParser where
  numThreads : ℕ
  recoveryMode : WalRecoveryMode := .abortOnCorruption
  verifyChecksum : Bool := true
  numThreads_pos : 1 ≤ numThreads

-- The order in which the threads add their results to the shared vector.
structure Schedule where
  arrange : List (List RecoveryResult) → List (List RecoveryResult)
  perm : ∀ results, (arrange results).Perm results

def Schedule.inOrder : Schedule where
  arrange := id
  perm _ := .refl _

instance : Inhabited Schedule where
  default := .inOrder

namespace ParallelWalParser

variable (p : ParallelWalParser)

def parseFile (bytes : List UInt8) : WalResult RecoveryResult := do
  match ← readWalFile bytes with
  | none => return {}
  | some header => parseWalFileBytes backend p.recoveryMode p.verifyChecksum bytes header.startLsn

def mergeResults (results : List RecoveryResult) : RecoveryResult :=
  let merged := results.foldl RecoveryResult.merge {}
  { merged with allEntries := merged.allEntries.mergeSort (·.lsn ≤ ·.lsn) }

-- What one thread does with its files: a file that it cannot read is left out.
def parseChunk : List WalFile → WalResult (List RecoveryResult)
  | [] => return []
  | file :: files =>
    match p.parseFile backend file.bytes with
    | .ok result => do return result :: (← parseChunk files)
    | .error error =>
      if p.recoveryMode = .abortOnCorruption then .error error else parseChunk files

def chunks (files : List WalFile) : List (List WalFile) :=
  files.pieces ((files.length + p.numThreads - 1) / p.numThreads)

def parseParallel (schedule : Schedule) (files : List WalFile) : WalResult RecoveryResult := do
  let files ← discoverWalFiles files p.recoveryMode
  if files.length ≤ p.numThreads then
    return mergeResults (← files.mapM fun file => p.parseFile backend file.bytes)
  else
    return mergeResults (schedule.arrange (← (p.chunks files).mapM (p.parseChunk backend))).flatten

-- The sequential parser with the same settings.
def sequential : LocalWalParser :=
  { recoveryMode := p.recoveryMode, verifyChecksum := p.verifyChecksum }

-- Both fail, or both return the same.
def Agrees : WalResult RecoveryResult → WalResult LocalWalParser → Prop
  | .ok r, .ok l => r.allEntries = l.allEntries ∧ r.lastLsn = l.lastLsn ∧
    r.lastTimestamp = l.lastTimestamp ∧ r.corruptedCount = l.corruptedCount
  | .error _, .error _ => True
  | _, _ => False

def Readable (file : WalFile) : Prop :=
  (p.parseFile backend file.bytes).isOk

-- The results of the files that can be read.
def survivors (files : List WalFile) : List RecoveryResult :=
  files.filterMap fun file => (p.parseFile backend file.bytes).toOption

def recordsAt (lsn : Lsn) (results : List RecoveryResult) : List ParsedWalEntry :=
  results.flatMap fun result => result.allEntries.filter (·.lsn = lsn)

-- What the files of a thread hold at an LSN.
def entriesAt (lsn : Lsn) (files : List WalFile) : List ParsedWalEntry :=
  recordsAt lsn (p.survivors backend files)

-- No two threads find different records at one LSN.
def Unambiguous (files : List WalFile) : Prop :=
  (p.chunks files).Pairwise fun a b => ∀ lsn,
    p.entriesAt backend lsn a ++ p.entriesAt backend lsn b =
      p.entriesAt backend lsn b ++ p.entriesAt backend lsn a

end ParallelWalParser

namespace RecoveryResult

variable {rs rs' : List RecoveryResult} {r : RecoveryResult}

def corrupt (r : RecoveryResult) (k : ℕ) : RecoveryResult :=
  { r with corruptedCount := r.corruptedCount + k }

theorem merge_eq (a b : RecoveryResult) :
    a.merge b = ⟨a.allEntries ++ b.allEntries, max a.lastTimestamp b.lastTimestamp,
      max a.lastLsn b.lastLsn, a.corruptedCount + b.corruptedCount, a.skippedCount + b.skippedCount⟩ := by
  simp only [merge, mk.injEq, and_self, true_and, and_true]
  exact ⟨(max_def_lt ..).symm, (max_def_lt ..).symm⟩

theorem corrupt_merge (k : ℕ) (b : RecoveryResult) : (r.corrupt k).merge b = (r.merge b).corrupt k := by
  simp [corrupt, merge_eq, Nat.add_right_comm]

theorem foldl_merge_corrupt (k : ℕ) : rs.foldl merge (r.corrupt k) = (rs.foldl merge r).corrupt k := by
  induction rs generalizing r with
  | nil => rfl
  | cons _ _ ind => rw [foldl_cons, foldl_cons, corrupt_merge, ind]

theorem allEntries_foldl_merge : (rs.foldl merge r).allEntries = r.allEntries ++ rs.flatMap (·.allEntries) := by
  induction rs generalizing r with
  | nil => simp
  | cons _ _ ind => simp [ind, merge]

-- The counters of a merged result, which do not depend on the order of the parts.
theorem lastTimestamp_foldl_merge :
    (rs.foldl merge r).lastTimestamp = (rs.map (·.lastTimestamp)).foldl max r.lastTimestamp := by
  induction rs generalizing r with
  | nil => rfl
  | cons _ _ ind => simp [ind, merge_eq]

theorem lastLsn_foldl_merge : (rs.foldl merge r).lastLsn = (rs.map (·.lastLsn)).foldl max r.lastLsn := by
  induction rs generalizing r with
  | nil => rfl
  | cons _ _ ind => simp [ind, merge_eq]

theorem corruptedCount_foldl_merge :
    (rs.foldl merge r).corruptedCount = r.corruptedCount + (rs.map (·.corruptedCount)).sum := by
  induction rs generalizing r with
  | nil => simp
  | cons _ _ ind => simp [ind, merge_eq, Nat.add_assoc]

end RecoveryResult

namespace LocalWalParser

variable (l : LocalWalParser)

-- What the sequential parser does with the result of a file.
def absorb (r : RecoveryResult) : LocalWalParser :=
  { l with
    allEntries := l.allEntries ++ r.allEntries
    corruptedCount := l.corruptedCount + r.corruptedCount
    skippedCount := l.skippedCount + r.skippedCount
    lastTimestamp := max l.lastTimestamp r.lastTimestamp
    lastLsn := if l.lastLsn < r.lastLsn then r.lastLsn else l.lastLsn }

-- The fields of the sequential parser that make up a result.
def result : RecoveryResult where
  allEntries := l.allEntries
  lastTimestamp := l.lastTimestamp
  lastLsn := l.lastLsn
  corruptedCount := l.corruptedCount
  skippedCount := l.skippedCount

theorem result_absorb (r : RecoveryResult) : (l.absorb r).result = l.result.merge r := by
  rw [RecoveryResult.merge_eq]
  simp only [result, absorb, RecoveryResult.mk.injEq, and_self, and_true, true_and]
  exact (max_def_lt ..).symm

end LocalWalParser

-- The schedule that turns one given list into another one.
def Schedule.to {rs rs' : List (List RecoveryResult)} (hp : rs'.Perm rs) : Schedule where
  arrange xs := if xs = rs then rs' else xs
  perm xs := by
    split
    case isTrue h => exact h ▸ hp
    case isFalse h => exact .refl _

namespace ParallelWalParser

variable {backend} {p : ParallelWalParser} {l : LocalWalParser} {files : List WalFile}

-- The sequential parser has the settings of the parallel one.
def Matches (p : ParallelWalParser) (l : LocalWalParser) : Prop :=
  l.recoveryMode = p.recoveryMode ∧ l.verifyChecksum = p.verifyChecksum

theorem parseWalFile_eq (hm : p.Matches l) (bytes : List UInt8) :
    l.parseWalFile backend bytes = (p.parseFile backend bytes).map l.absorb := by
  simp only [parseWalFile, parseFile, ← hm.1, ← hm.2]
  cases readWalFile bytes with
  | error e => rfl
  | ok h =>
    cases h with
    | none => simp [Except.map, pure, Except.pure, LocalWalParser.absorb]
    | some header =>
      cases parseWalFileBytes backend l.recoveryMode l.verifyChecksum bytes header.startLsn <;> rfl

-- No file makes the recovery mode give up.
def Tolerates (p : ParallelWalParser) (backend : WalBackend) (files : List WalFile) : Prop :=
  p.recoveryMode = .abortOnCorruption → ∀ file ∈ files, p.Readable backend file

theorem Tolerates.of_cons (h : p.Tolerates backend (file :: files)) : p.Tolerates backend files :=
  fun ha f hf => h ha f (mem_cons_of_mem _ hf)

theorem Tolerates.not_abort
    (h : p.Tolerates backend (file :: files)) (he : p.parseFile backend file.bytes = .error e) :
    p.recoveryMode ≠ .abortOnCorruption := by
  intro ha
  have := h ha file (mem_cons_self ..)
  simp [Readable, he] at this

theorem survivors_ok (h : p.parseFile backend file.bytes = .ok r) :
    p.survivors backend (file :: files) = r :: p.survivors backend files := by
  simp [survivors, h, Except.toOption]

theorem survivors_error (h : p.parseFile backend file.bytes = .error e) :
    p.survivors backend (file :: files) = p.survivors backend files := by
  simp [survivors, h, Except.toOption]

def failures (p : ParallelWalParser) (backend : WalBackend) (files : List WalFile) : ℕ :=
  files.countP fun file => !(p.parseFile backend file.bytes).isOk

-- The sequential parser returns what the readable files hold, and counts the other ones.
theorem parseWalFiles_eq_ok (h : p.Tolerates backend files) (hm : p.Matches l) :
    ∃ l', l.parseWalFiles backend files = .ok l' ∧
      l'.result = ((p.survivors backend files).foldl .merge l.result).corrupt (p.failures backend files) := by
  induction files generalizing l with
  | nil => exact ⟨l, rfl, rfl⟩
  | cons file files ind =>
    cases hf : p.parseFile backend file.bytes with
    | ok r =>
      have ⟨l', he, hr⟩ := ind (l := l.absorb r) h.of_cons hm
      refine ⟨l', ?_, ?_⟩
      · simpa [parseWalFiles, parseWalFile_eq hm, hf, Except.map] using he
      · simpa [survivors_ok hf, failures, hf, LocalWalParser.result_absorb] using hr
    | error e =>
      have ha := h.not_abort hf
      have ⟨l', he, hr⟩ := ind (l := { l with corruptedCount := l.corruptedCount + 1 }) h.of_cons hm
      refine ⟨l', ?_, ?_⟩
      · simpa [parseWalFiles, parseWalFile_eq hm, hf, Except.map, hm.1, ha] using he
      · have hc : ({ l with corruptedCount := l.corruptedCount + 1 } : LocalWalParser).result =
            l.result.corrupt 1 := rfl
        rw [hr, hc, RecoveryResult.foldl_merge_corrupt, survivors_error hf]
        simp [RecoveryResult.corrupt, failures, hf, Nat.add_assoc, Nat.add_comm 1]

theorem parseWalFiles_eq_error (ha : p.recoveryMode = .abortOnCorruption) (hm : p.Matches l)
    (h : ∃ file ∈ files, ¬ p.Readable backend file) : ∃ e, l.parseWalFiles backend files = .error e := by
  induction files generalizing l with
  | nil => simp at h
  | cons file files ind =>
    cases hf : p.parseFile backend file.bytes with
    | ok r =>
      have ⟨e, he⟩ := ind (l := l.absorb r) hm (by simpa [Readable, hf] using h)
      exact ⟨e, by simpa [parseWalFiles, parseWalFile_eq hm, hf, Except.map] using he⟩
    | error e =>
      simp [parseWalFiles, parseWalFile_eq hm, hf, Except.map, hm.1, ha]

theorem parseChunk_eq_ok (h : p.Tolerates backend files) :
    p.parseChunk backend files = .ok (p.survivors backend files) := by
  induction files with
  | nil => rfl
  | cons file files ind =>
    cases hf : p.parseFile backend file.bytes with
    | ok r => simp [parseChunk, hf, ind h.of_cons, survivors_ok hf, pure, Except.pure]
    | error e => simp [parseChunk, hf, h.not_abort hf, ind h.of_cons, survivors_error hf]

theorem parseChunk_eq_error (ha : p.recoveryMode = .abortOnCorruption)
    (h : ∃ file ∈ files, ¬ p.Readable backend file) : ∃ e, p.parseChunk backend files = .error e := by
  induction files with
  | nil => simp at h
  | cons file files ind =>
    cases hf : p.parseFile backend file.bytes with
    | ok r =>
      have ⟨e, he⟩ := ind (by simpa [Readable, hf] using h)
      exact ⟨e, by simp [parseChunk, hf, he]⟩
    | error e => exact ⟨e, by simp [parseChunk, hf, ha]⟩

section

variable (p) (backend)

theorem flatten_chunks (files : List WalFile) (h : files ≠ []) : (p.chunks files).flatten = files := by
  have hn := p.numThreads_pos
  have hf := length_pos_iff.mpr h
  apply List.flatten_pieces
  exact (Nat.div_pos (by omega) hn).ne'

theorem survivors_flatten (chunks : List (List WalFile)) :
    (chunks.map (p.survivors backend)).flatten = p.survivors backend chunks.flatten := by
  simp only [survivors, filterMap_flatten]
  rfl

end

theorem mapM_parseFile_eq_ok (h : ∀ file ∈ files, p.Readable backend file) :
    files.mapM (fun file => p.parseFile backend file.bytes) = .ok (p.survivors backend files) := by
  induction files with
  | nil => rfl
  | cons file files ind =>
    have ⟨hf, hs⟩ := forall_mem_cons.mp h
    have ⟨r, hr⟩ := Except.isOk_iff.mp hf
    simp [mapM_cons, hr, ind hs, survivors_ok hr, pure, Except.pure]

theorem mapM_parseFile_eq_error (h : ∃ file ∈ files, ¬ p.Readable backend file) :
    ∃ e, files.mapM (fun file => p.parseFile backend file.bytes) = .error e := by
  have ⟨file, hm, hr⟩ := h
  apply Except.mapM_eq_error
  refine ⟨file, hm, ?_⟩
  cases hf : p.parseFile backend file.bytes with
  | ok r => simp [Readable, hf] at hr
  | error e => exact ⟨e, rfl⟩

theorem mapM_parseChunk_eq_ok (hn : files ≠ []) (h : p.Tolerates backend files) :
    (p.chunks files).mapM (p.parseChunk backend) = .ok ((p.chunks files).map (p.survivors backend)) := by
  apply Except.mapM_eq_ok
  intro chunk hc
  apply parseChunk_eq_ok
  intro ha file hf
  apply h ha
  rw [← p.flatten_chunks files hn]
  exact mem_flatten.mpr ⟨chunk, hc, hf⟩

theorem mapM_parseChunk_eq_error (hn : files ≠ []) (ha : p.recoveryMode = .abortOnCorruption)
    (h : ∃ file ∈ files, ¬ p.Readable backend file) :
    ∃ e, (p.chunks files).mapM (p.parseChunk backend) = .error e := by
  have ⟨file, hm, hr⟩ := h
  rw [← p.flatten_chunks files hn] at hm
  have ⟨chunk, hc, hf⟩ := mem_flatten.mp hm
  exact Except.mapM_eq_error ⟨chunk, hc, parseChunk_eq_error ha ⟨file, hf, hr⟩⟩

theorem matches_sequential : p.Matches p.sequential :=
  ⟨rfl, rfl⟩

theorem openFiles_eq_ok (h : p.Tolerates backend files) : ∃ l, p.sequential.openFiles backend files = .ok l ∧
      l.result = (mergeResults (p.survivors backend files)).corrupt (p.failures backend files) := by
  have ⟨l, he, hr⟩ := parseWalFiles_eq_ok h matches_sequential
  refine ⟨{ l with allEntries := l.allEntries.mergeSort (·.lsn ≤ ·.lsn) }, ?_, ?_⟩
  · simp [openFiles, he, pure, Except.pure]
  · have ha : l.allEntries = ((p.survivors backend files).foldl RecoveryResult.merge {}).allEntries :=
      congrArg RecoveryResult.allEntries hr
    have hs : ({ l with allEntries := l.allEntries.mergeSort (·.lsn ≤ ·.lsn) } :
        LocalWalParser).result =
          { l.result with allEntries := l.allEntries.mergeSort (·.lsn ≤ ·.lsn) } := rfl
    rw [hs, hr, ha]
    rfl

theorem agrees_ok_iff :
    Agrees (.ok r) (.ok l) ↔ r.allEntries = l.result.allEntries ∧ r.lastLsn = l.result.lastLsn ∧
      r.lastTimestamp = l.result.lastTimestamp ∧ r.corruptedCount = l.result.corruptedCount :=
  .rfl

theorem agrees_mergeResults_iff (hp : rs.Perm rs')
    (h : l.result = mergeResults rs') : Agrees (.ok (mergeResults rs)) (.ok l) ↔
      ∀ lsn, recordsAt lsn rs = recordsAt lsn rs' := by
  rw [agrees_ok_iff, h]
  have hl : (mergeResults rs).lastLsn = (mergeResults rs').lastLsn := by
    simp only [mergeResults, RecoveryResult.lastLsn_foldl_merge]
    exact (hp.map _).foldl_op_eq
  have ht : (mergeResults rs).lastTimestamp = (mergeResults rs').lastTimestamp := by
    simp only [mergeResults, RecoveryResult.lastTimestamp_foldl_merge]
    exact (hp.map _).foldl_op_eq
  have hc : (mergeResults rs).corruptedCount = (mergeResults rs').corruptedCount := by
    simp only [mergeResults, RecoveryResult.corruptedCount_foldl_merge]
    rw [(hp.map _).sum_nat]
  simp only [hl, ht, hc, and_self, and_true]
  simp only [mergeResults, RecoveryResult.allEntries_foldl_merge, nil_append,
    List.mergeSort_eq_iff ParsedWalEntry.lsn, filter_flatMap, recordsAt]

theorem recordsAt_flatten (lsn : Lsn) (rss : List (List RecoveryResult)) :
    recordsAt lsn rss.flatten = rss.flatMap (recordsAt lsn) := by
  induction rss with
  | nil => rfl
  | cons rs rss ind => simp only [recordsAt, flatten_cons, flatMap_append, flatMap_cons] at *; rw [ind]

theorem parseParallel_eq_ok (hn : files ≠ []) (hl : ¬ files.length ≤ p.numThreads)
    (h : p.Tolerates backend files) (schedule : Schedule) : p.parseParallel backend schedule files =
      .ok (mergeResults (schedule.arrange ((p.chunks files).map (p.survivors backend))).flatten) := by
  simp [parseParallel, discoverWalFiles, hn, hl, mapM_parseChunk_eq_ok hn h, pure, Except.pure]

theorem parseParallel_eq_error (hn : files ≠ []) (h : ∃ file ∈ files, ¬ p.Readable backend file)
    (hl : files.length ≤ p.numThreads ∨ p.recoveryMode = .abortOnCorruption)
    (schedule : Schedule) : ∃ e, p.parseParallel backend schedule files = .error e := by
  by_cases hs : files.length ≤ p.numThreads
  case pos =>
    have ⟨e, he⟩ := mapM_parseFile_eq_error h
    exact ⟨e, by simp [parseParallel, discoverWalFiles, hn, hs, he]⟩
  case neg =>
    have ⟨e, he⟩ := mapM_parseChunk_eq_error hn (hl.resolve_left hs) h
    exact ⟨e, by simp [parseParallel, discoverWalFiles, hn, hs, he]⟩

theorem openDirectory_eq (hn : files ≠ []) :
    p.sequential.openDirectory backend files = p.sequential.openFiles backend files := by
  simp [openDirectory, discoverWalFiles, hn]

theorem unambiguous_iff : p.Unambiguous backend files ↔
      ((p.chunks files).map (p.survivors backend)).Pairwise fun a b => ∀ lsn,
        recordsAt lsn a ++ recordsAt lsn b = recordsAt lsn b ++ recordsAt lsn a := by
  rw [pairwise_map]
  rfl

-- With every file readable, only the order of the threads can make a difference.
theorem agrees_iff_of_readable (hn : files ≠ []) (h : ∀ file ∈ files, p.Readable backend file) :
    (∀ schedule, Agrees (p.parseParallel backend schedule files) (p.sequential.openDirectory backend files)) ↔
      files.length ≤ p.numThreads ∨ p.Unambiguous backend files := by
  have hf : p.failures backend files = 0 := by
    simpa [failures, countP_eq_zero, Readable] using h
  have ⟨l, hl, hr⟩ := openFiles_eq_ok (show p.Tolerates backend files from fun _ => h)
  rw [openDirectory_eq hn, hl]
  rw [hf] at hr
  by_cases hs : files.length ≤ p.numThreads
  case pos =>
    simp only [hs, true_or, iff_true]
    intro schedule
    have hp : p.parseParallel backend schedule files =
        .ok (mergeResults (p.survivors backend files)) := by
      simp [parseParallel, discoverWalFiles, hn, hs, mapM_parseFile_eq_ok h, pure, Except.pure]
    rw [hp, agrees_mergeResults_iff (.refl _) hr]
    exact fun _ => rfl
  case neg =>
    have hw (schedule : Schedule) (rs : List (List RecoveryResult)) :
        (schedule.arrange rs).flatten.Perm rs.flatten := (schedule.perm rs).flatten
    simp only [hs, false_or, parseParallel_eq_ok hn hs fun _ => h]
    rw [← p.flatten_chunks files hn, ← survivors_flatten] at hr
    simp only [agrees_mergeResults_iff (hw _ _) hr, recordsAt_flatten]
    rw [unambiguous_iff, ← List.forall_perm_flatMap_iff]
    constructor
    · intro ha rs hp
      simpa [Schedule.to] using ha (.to hp)
    · intro ha schedule
      exact ha _ (schedule.perm _)

-- An unreadable file is counted by the sequential parser only, and stops the parallel one if the
-- threads are enough for one file each.
theorem agrees_iff_of_unreadable (hn : files ≠ [])
    (h : ∃ file ∈ files, ¬ p.Readable backend file) (schedule : Schedule) :
    Agrees (p.parseParallel backend schedule files) (p.sequential.openDirectory backend files) ↔
      p.recoveryMode = .abortOnCorruption := by
  rw [openDirectory_eq hn]
  by_cases ha : p.recoveryMode = .abortOnCorruption
  case pos =>
    have ⟨e, he⟩ := parseParallel_eq_error hn h (.inr ha) schedule
    have ⟨e', he'⟩ := parseWalFiles_eq_error (l := p.sequential) ha matches_sequential h
    simp [he, openFiles, he', Agrees, ha]
  case neg =>
    have ht : p.Tolerates backend files := fun ha' => absurd ha' ha
    have ⟨l, hl, hr⟩ := openFiles_eq_ok ht
    simp only [hl, ha, iff_false]
    by_cases hs : files.length ≤ p.numThreads
    case pos =>
      have ⟨e, he⟩ := parseParallel_eq_error hn h (.inl hs) schedule
      simp [he, Agrees]
    case neg =>
      rw [parseParallel_eq_ok hn hs ht, agrees_ok_iff, hr]
      have hf : 0 < p.failures backend files := by
        have ⟨file, hm, hb⟩ := h
        exact countP_pos_iff.mpr ⟨file, hm, by simpa [Readable] using hb⟩
      have hc : (mergeResults (schedule.arrange
          ((p.chunks files).map (p.survivors backend))).flatten).corruptedCount =
            (mergeResults (p.survivors backend files)).corruptedCount := by
        have hp := (schedule.perm ((p.chunks files).map (p.survivors backend))).flatten
        rw [survivors_flatten, flatten_chunks _ _ hn] at hp
        simp only [mergeResults, RecoveryResult.corruptedCount_foldl_merge]
        rw [(hp.map _).sum_nat]
      rintro ⟨-, -, -, he⟩
      simp only [hc, RecoveryResult.corrupt] at he
      omega

-- The two parsers agree exactly if every file can be read and the records at an LSN do not depend
-- on which thread is first, or if a file cannot be read and both give up.
theorem parse_parallel_agrees_iff (backend : WalBackend) (p : ParallelWalParser)
    (files : List WalFile) : (∀ schedule, Agrees (p.parseParallel backend schedule files)
        (p.sequential.openDirectory backend files)) ↔ ((∀ file ∈ files, p.Readable backend file) ∧
        (files.length ≤ p.numThreads ∨ p.Unambiguous backend files)) ∨
      ((∃ file ∈ files, ¬ p.Readable backend file) ∧ p.recoveryMode = .abortOnCorruption) := by
  by_cases hn : files = []
  case pos =>
    subst hn
    have hd (schedule : Schedule) : Agrees (p.parseParallel backend schedule [])
        (p.sequential.openDirectory backend []) := by
      by_cases hm : p.recoveryMode = .errorIfMissing <;>
        simp [parseParallel, openDirectory, discoverWalFiles, sequential, hm, Agrees,
          openFiles, parseWalFiles, mergeResults, pure, Except.pure]
    simp [hd]
  case neg =>
    by_cases hr : ∀ file ∈ files, p.Readable backend file
    case pos =>
      have hx : ¬ ∃ file ∈ files, ¬ p.Readable backend file := by simpa using hr
      rw [agrees_iff_of_readable hn hr]
      exact ⟨fun h => .inl ⟨hr, h⟩, fun h => h.elim And.right fun h => absurd h.1 hx⟩
    case neg =>
      have hx : ∃ file ∈ files, ¬ p.Readable backend file := by simpa using hr
      simp only [agrees_iff_of_unreadable hn hx, forall_const, and_iff_right hx]
      exact ⟨.inr, fun h => h.elim (fun h => absurd h.1 hr) id⟩

-- A log whose only file is cut within its header: the sequential parser skips it and counts it, the
-- parallel one fails.
theorem parse_parallel_disagrees :
    ¬ ∀ (backend : WalBackend) (p : ParallelWalParser) (files : List WalFile) (schedule : Schedule),
      Agrees (p.parseParallel backend schedule files) (p.sequential.openDirectory backend files) := by
  intro h
  exact h ⟨Crc32.checksum, .ok, .ok⟩ ⟨4, .skipCorruption, true, by decide⟩ [⟨"0.wal", [76]⟩] .inOrder

end ParallelWalParser
end Linkrs
