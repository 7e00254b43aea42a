import Linkrs.Wal.RoundTrip

namespace Linkrs

open List Scanner AppendCall

variable {backend : WalBackend}

-- A new writer goes on where the log in its directory ends. Its own file has been created by then,
-- and is still empty. A directory that cannot be parsed counts as an empty one.
def LocalWalWriter.openLog (backend : WalBackend) (config : WalConfig) (files : List WalFile)
    (path : String) (stamp : FileStamp) : LocalWalWriter :=
  match ({} : LocalWalParser).openFiles backend (files ++ [⟨path, []⟩]) with
  | .ok parser => newFile config [] parser.lastLsn stamp
  | .error _ => newFile config [] 0 stamp

def WalHeader.Continues (prev : Lsn) (header : WalHeader) : Prop :=
  header.nextLsn < 2 ^ 64 ∧ header.prevLsn = prev ∧ header.lsn = header.nextLsn

-- The bytes begin with a record that continues the log at `prev` and passes every check.
def StartsIntact (backend : WalBackend) (prev : Lsn) (tail : List UInt8) : Prop :=
  ∃ header payload, WalHeader.fromBytes (tail.take walHeaderSize) = some header ∧
    ¬ header.isZeroPadding ∧ header.Continues prev ∧
    header.isLengthValid (tail.length - walHeaderSize) ∧
    readRecord backend true header
      ((tail.drop walHeaderSize).take header.length.toNat) = .ok payload

-- The bytes are no more than the end of a log: too few for a header, zeros, or a header that
-- announces more than there is.
def EndsLog (prev : Lsn) (tail : List UInt8) : Prop :=
  tail.length < walHeaderSize ∨
  ∃ header, WalHeader.fromBytes (tail.take walHeaderSize) = some header ∧
    (header.isZeroPadding ∨ header.Continues prev ∧ ¬ header.isLengthValid (tail.length - walHeaderSize))

-- A file with a header, the records of complete entries, those of an entry that was cut off, and
-- whatever follows the last intact record.
structure LoggedFile (backend : WalBackend) where
  header : WalFileHeader
  groups : List RecordGroup
  cut : List Record
  tail : List UInt8
  valid : header.isValid
  startLsn_lt : header.startLsn < 2 ^ 64
  fragmentary : Record.Fragmentary cut
  chained : Record.Chain (Record.Intact backend) header.startLsn
    (groups.flatMap RecordGroup.records ++ cut)
  exhausted : ¬ StartsIntact backend
    (Record.endLsn header.startLsn (groups.flatMap RecordGroup.records ++ cut)) tail

namespace LoggedFile

def records (file : LoggedFile backend) : List Record :=
  file.groups.flatMap RecordGroup.records ++ file.cut

def bytes (file : LoggedFile backend) : List UInt8 :=
  file.header.asBytes ++ Record.stream file.records ++ file.tail

end LoggedFile

-- A file of the directory. A crash may leave it before its header is written.
inductive LogFile (backend : WalBackend) where
  | blank
  | unformatted (bytes : List UInt8) (h : readWalFile bytes = .error .invalidFileHeader)
  | logged (file : LoggedFile backend)

namespace LogFile

def bytes : LogFile backend → List UInt8
  | blank => []
  | unformatted bytes _ => bytes
  | logged file => file.bytes

def records : LogFile backend → List Record
  | logged file => file.records
  | _ => []

-- The records under whose headers complete entries are reported.
def heads : LogFile backend → List Record
  | logged file => file.groups.map RecordGroup.head
  | _ => []

def Undamaged : LogFile backend → Prop
  | blank => True
  | unformatted _ _ => False
  | logged file => EndsLog (Record.endLsn file.header.startLsn file.records) file.tail

end LogFile

section

variable {s : Scanner} {offset : ℕ} {tail : List UInt8}

variable (offset) in
theorem validateLsnChain_eq_ok_iff_continues {header : WalHeader} {prev : Lsn} :
    validateLsnChain header prev offset = .ok () ↔ header.Continues prev :=
  validateLsnChain_eq_ok_iff

theorem scanFrom_endsLog (h : EndsLog s.expectedPrevLsn tail) :
    ∃ result, s.scanFrom backend .abortOnCorruption true offset tail = .ok result ∧
      result.lastLsn = s.result.lastLsn := by
  by_cases hl : tail.length < walHeaderSize
  case pos => exact ⟨_, scanFrom_short hl, rfl⟩
  case neg =>
    obtain ⟨header, hh, h⟩ := h.resolve_left hl
    rw [scanFrom_eq hl, Scanner.turn, hh]
    by_cases hz : header.isZeroPadding
    case pos => simp [hz]
    case neg =>
      obtain ⟨hc, hn⟩ := h.resolve_left hz
      have hv := (validateLsnChain_eq_ok_iff_continues offset).mpr hc
      simp [hz, hv, hn, countCorrupted]

theorem scanFrom_damaged (h : ¬ EndsLog s.expectedPrevLsn tail)
    (hs : ¬ StartsIntact backend s.expectedPrevLsn tail) :
    ∃ error, s.scanFrom backend .abortOnCorruption true offset tail = .error error := by
  obtain ⟨hl, h⟩ := not_or.mp h
  rw [scanFrom_eq hl, Scanner.turn]
  cases hh : WalHeader.fromBytes (tail.take walHeaderSize) with
  | none => exact ⟨_, rfl⟩
  | some header =>
    obtain ⟨hz, hn⟩ := not_or.mp fun hc => h ⟨header, hh, hc⟩
    cases hv : validateLsnChain header s.expectedPrevLsn offset with
    | error error => simp [hz, hv]
    | ok u =>
      have hc := (validateLsnChain_eq_ok_iff_continues offset).mp hv
      have hi : header.isLengthValid (tail.length - walHeaderSize) := by
        by_contra hi
        exact hn ⟨hc, hi⟩
      cases hr : readRecord backend true header
          ((tail.drop walHeaderSize).take header.length.toNat) with
      | error error => simp [hz, hv, hi, hr, reject]
      | ok payload => exact absurd ⟨header, payload, hh, hz, hc, hi, hr⟩ hs

end

-- One position of the log is within a header's length of another.
def Near (a b : Lsn) : Prop :=
  a < b + walHeaderSize

theorem near_pushAll {result : RecoveryResult} :
    Near a (result.pushAll entries).lastLsn ↔ Near a result.lastLsn ∨ ∃ e ∈ entries, Near a e.lsn := by
  induction entries generalizing result with
  | nil => simp [RecoveryResult.pushAll]
  | cons e es ind =>
    have hp : Near a (result.pushEntry e).lastLsn ↔ Near a result.lastLsn ∨ Near a e.lsn := by
      simp only [RecoveryResult.pushEntry, Near]
      split <;> lia
    rw [RecoveryResult.pushAll, foldl_cons, ← RecoveryResult.pushAll, ind, hp]
    simp [or_assoc]

theorem exists_mem_entries {P : Lsn → Prop} :
    (∃ e ∈ RecordGroup.entries backend offset gs, P e.lsn) ↔ ∃ g ∈ gs, P g.head.header.lsn := by
  induction gs generalizing offset with
  | nil => simp [RecordGroup.entries]
  | cons g gs ind => simp [RecordGroup.entries, RecordGroup.entry, ind]

namespace LoggedFile

variable (file : LoggedFile backend)

-- The variables of the scan behind the last intact record.
def scanner : Scanner where
  expectedPrevLsn := Record.endLsn file.header.startLsn file.records
  result := ({} : RecoveryResult).pushAll
    (RecordGroup.entries backend walFileHeaderSize file.groups)
  fragments := Scanner.held backend file.cut

theorem parse_eq : parseWalFileBytes backend .abortOnCorruption true file.bytes file.header.startLsn =
      file.scanner.scanFrom backend .abortOnCorruption true
        (walFileHeaderSize + (Record.stream file.records).length) file.tail := by
  rw [parseWalFileBytes, bytes, append_assoc]
  conv => lhs; arg 5; rw [← file.header.length_asBytes, drop_left]
  exact scanFrom_groups rfl file.fragmentary file.chained

theorem parse_undamaged (h : EndsLog file.scanner.expectedPrevLsn file.tail) :
    ∃ result, parseWalFileBytes backend .abortOnCorruption true file.bytes file.header.startLsn =
      .ok result ∧ result.lastLsn = file.scanner.result.lastLsn := by
  rw [parse_eq]
  exact scanFrom_endsLog h

theorem parse_damaged (h : ¬ EndsLog file.scanner.expectedPrevLsn file.tail) :
    ∃ error, parseWalFileBytes backend .abortOnCorruption true file.bytes file.header.startLsn = .error error := by
  rw [parse_eq]
  exact scanFrom_damaged h file.exhausted

theorem near_scanner (a : Lsn) : Near a file.scanner.result.lastLsn ↔
      Near a 0 ∨ ∃ g ∈ file.groups, Near a g.head.header.lsn := by
  rw [scanner, near_pushAll, exists_mem_entries]

theorem readWalFile_bytes : readWalFile file.bytes = .ok (some file.header) := by
  rw [bytes, append_assoc]
  exact readWalFile_eq file.valid file.startLsn_lt

end LoggedFile
namespace LocalWalParser

structure Strict (p : LocalWalParser) : Prop where
  mode : p.recoveryMode = .abortOnCorruption
  verify : p.verifyChecksum = true

variable {p : LocalWalParser}

theorem parseWalFile_undamaged (hp : p.Strict) {file : LogFile backend} (h : file.Undamaged) :
    ∃ p', p.parseWalFile backend file.bytes = .ok p' ∧ p'.Strict ∧ ∀ a, Near a p'.lastLsn ↔
        Near a p.lastLsn ∨ ∃ r ∈ file.heads, Near a r.header.lsn := by
  cases file with
  | blank => exact ⟨p, rfl, hp, by simp [LogFile.heads]⟩
  | unformatted bytes hb => exact h.elim
  | logged file =>
    have ⟨result, hr, hl⟩ := file.parse_undamaged h
    simp only [parseWalFile, LogFile.bytes, file.readWalFile_bytes, Except.ok_bind, hp.mode, hp.verify, hr]
    refine ⟨_, rfl, ⟨rfl, rfl⟩, fun a => ?_⟩
    have hm : Near a (if p.lastLsn < result.lastLsn then result.lastLsn else p.lastLsn) ↔
        Near a p.lastLsn ∨ Near a result.lastLsn := by
      simp only [Near]
      split <;> lia
    have h₀ : Near a 0 → Near a p.lastLsn := by
      simp only [Near]
      lia
    rw [hm, hl, file.near_scanner]
    simp only [LogFile.heads, mem_map, exists_exists_and_eq_and]
    rw [← or_assoc, or_iff_left_of_imp h₀]

theorem parseWalFile_damaged (hp : p.Strict) {file : LogFile backend} (h : ¬ file.Undamaged) :
    ∃ error, p.parseWalFile backend file.bytes = .error error := by
  cases file with
  | blank => exact absurd trivial h
  | unformatted bytes hb => exact ⟨_, by rw [parseWalFile, LogFile.bytes, hb]; rfl⟩
  | logged file =>
    have ⟨error, he⟩ := file.parse_damaged h
    refine ⟨error, ?_⟩
    simp only [parseWalFile, LogFile.bytes, file.readWalFile_bytes, Except.ok_bind, hp.mode, hp.verify, he]
    rfl

theorem parseWalFiles_undamaged (hp : p.Strict) {dir : List (String × LogFile backend)}
    (h : ∀ f ∈ dir, f.2.Undamaged) :
    ∃ p', p.parseWalFiles backend (dir.map fun f => ⟨f.1, f.2.bytes⟩) = .ok p' ∧ p'.Strict ∧
      ∀ a, Near a p'.lastLsn ↔ Near a p.lastLsn ∨ ∃ f ∈ dir, ∃ r ∈ f.2.heads, Near a r.header.lsn := by
  induction dir generalizing p with
  | nil => exact ⟨p, rfl, hp, by simp⟩
  | cons f dir ind =>
    have ⟨hf, hd⟩ := forall_mem_cons.mp h
    have ⟨p₁, he₁, hp₁, hn₁⟩ := parseWalFile_undamaged hp hf
    have ⟨p₂, he₂, hp₂, hn₂⟩ := ind hp₁ hd
    refine ⟨p₂, ?_, hp₂, fun a => ?_⟩
    · rw [map_cons, parseWalFiles, he₁]
      exact he₂
    · rw [hn₂, hn₁]
      simp [or_assoc]

theorem parseWalFiles_damaged (hp : p.Strict) {dir : List (String × LogFile backend)}
    (h : ¬ ∀ f ∈ dir, f.2.Undamaged) (rest : List WalFile) :
    ∃ error, p.parseWalFiles backend (dir.map (fun f => ⟨f.1, f.2.bytes⟩) ++ rest) =
      .error error := by
  induction dir generalizing p with
  | nil => simp at h
  | cons f dir ind =>
    rw [map_cons, cons_append, parseWalFiles]
    by_cases hf : f.2.Undamaged
    case pos =>
      have ⟨p₁, he₁, hp₁, _⟩ := parseWalFile_undamaged hp hf
      rw [he₁]
      exact ind hp₁ (by simpa [hf] using h)
    case neg =>
      have ⟨error, he⟩ := parseWalFile_damaged hp hf
      simp [he, hp.mode]

end LocalWalParser

section

open LocalWalWriter

variable (config : WalConfig) (path : String) (stamp : FileStamp)

def openedIn (dir : List (String × LogFile backend)) : LocalWalWriter :=
  openLog backend config (dir.map fun f => ⟨f.1, f.2.bytes⟩) path stamp

variable {dir : List (String × LogFile backend)}

theorem near_openedIn (h : ∀ f ∈ dir, f.2.Undamaged) (a : Lsn) :
    Near a (openedIn config path stamp dir).currentLsn ↔
      Near a 0 ∨ ∃ f ∈ dir, ∃ r ∈ f.2.heads, Near a r.header.lsn := by
  have h' : ∀ f ∈ dir ++ [(path, LogFile.blank)], f.2.Undamaged :=
    forall_mem_append.mpr ⟨h, forall_mem_singleton.mpr trivial⟩
  have ⟨p, hp, _, hn⟩ := LocalWalParser.parseWalFiles_undamaged (p := {}) ⟨rfl, rfl⟩ h'
  rw [map_append, map_singleton] at hp
  simp only [openedIn, openLog, LocalWalParser.openFiles]
  rw [show (⟨path, []⟩ : WalFile) = ⟨path, (LogFile.blank : LogFile backend).bytes⟩ from rfl, hp]
  simp [newFile, hn, LogFile.heads, pure, Except.pure]

theorem currentLsn_openedIn (h : ¬ ∀ f ∈ dir, f.2.Undamaged) :
    (openedIn config path stamp dir).currentLsn = 0 := by
  have ⟨error, he⟩ := LocalWalParser.parseWalFiles_damaged (p := {}) ⟨rfl, rfl⟩ h [⟨path, []⟩]
  simp only [openedIn, openLog, LocalWalParser.openFiles]
  rw [he]
  rfl

def AppendCall.firstRecord? (backend : WalBackend) (config : WalConfig) (prev : Lsn)
    (call : AppendCall) : Option Record :=
  ((call.layout backend config prev).flatMap Prod.snd).head?

theorem AppendCall.le_firstRecord {prev : Lsn} {call : AppendCall}
    (h : call.firstRecord? backend config prev = some r) : prev + walHeaderSize ≤ r.header.lsn := by
  have ⟨items, hl, _, hs, _⟩ := call.exists_items backend config prev
  have ⟨rs, hrs⟩ := head?_eq_some_iff.mp h
  rw [hl, flatMap_map_records] at hrs
  have hc := hs.follows
  rw [hrs] at hc
  rw [hc.1, Record.size]
  lia

theorem AppendCall.exists_firstRecord (backend : WalBackend) (prev : Lsn) :
    ∃ call r, firstRecord? backend config prev call = some r ∧ r.header.lsn = prev + walHeaderSize := by
  have hc : compress backend config [] = .ok ([], .none) := by
    simp only [compress]
    split <;> rfl
  refine ⟨.batch [(.insertVertex, 0, [])],
    buildRecord backend config .insertVertex 0 .none .full prev [], ?_, by simp [buildRecord_lsn]⟩
  simp [firstRecord?, layout, batchRecords, hc, pure, Except.pure]

-- The records of a new writer come after all records that are intact in its directory.
def Fenced (dir : List (String × LogFile backend)) : Prop :=
  ∀ call r, firstRecord? backend config
      (openedIn config path stamp dir).currentLsn call = some r →
    ∀ f ∈ dir, ∀ r' ∈ f.2.records, r'.header.lsn < r.header.lsn

theorem fenced_iff_near : Fenced config path stamp dir ↔
      ∀ f ∈ dir, ∀ r ∈ f.2.records, Near r.header.lsn (openedIn config path stamp dir).currentLsn := by
  constructor
  · intro h f hf r hr
    have ⟨call, r', hr', hl⟩ := exists_firstRecord config backend
      (openedIn config path stamp dir).currentLsn
    rw [Near, ← hl]
    exact h call r' hr' f hf r hr
  · intro h call r hr f hf r' hr'
    exact Nat.lt_of_lt_of_le (h f hf r' hr') (le_firstRecord config hr)

theorem not_near_zero {f : LogFile backend} (hr : r ∈ f.records) : ¬ Near r.header.lsn 0 := by
  cases f with
  | logged file =>
    have ⟨prev, hi⟩ := file.chained.of_mem hr
    rw [Near, hi.lsn, Record.size]
    lia
  | _ => cases hr

-- The first record of a new writer comes after all intact records of the directory exactly when there
-- are none, or when nothing is damaged and no record lies a header's length or more behind the first
-- records of all complete entries.
theorem fenced_iff : Fenced config path stamp dir ↔ (∀ f ∈ dir, f.2.records = []) ∨
      ((∀ f ∈ dir, f.2.Undamaged) ∧ ∀ f ∈ dir, ∀ r ∈ f.2.records, ∃ f' ∈ dir, ∃ head ∈ f'.2.heads,
          Near r.header.lsn head.header.lsn) := by
  rw [fenced_iff_near]
  constructor
  · intro h
    by_cases hu : ∀ f ∈ dir, f.2.Undamaged
    case pos =>
      refine .inr ⟨hu, fun f hf r hr => ?_⟩
      exact ((near_openedIn config path stamp hu _).mp (h f hf r hr)).resolve_left (not_near_zero hr)
    case neg =>
      refine .inl fun f hf => eq_nil_iff_forall_not_mem.mpr fun r hr => ?_
      have := h f hf r hr
      rw [currentLsn_openedIn config path stamp hu] at this
      exact not_near_zero hr this
  · rintro (h | ⟨hu, h⟩) f hf r hr
    · rw [h f hf] at hr
      cases hr
    · exact (near_openedIn config path stamp hu _).mpr (.inr (h f hf r hr))

end

section

open LocalWalWriter

theorem Built.intact {config : WalConfig} {prev : Lsn}
    (h : Built backend config op timestamp .none prev r) (ht : timestamp < 2 ^ 64)
    (hl : prev + r.size < 2 ^ 64) (hs : r.payload.length ≤ maxPayloadLength) : r.Intact backend prev := by
  have hd : decodeRecordPayload backend r.header r.payload = .ok r.payload := by
    rw [h.decode, decompressPayload]
  exact ⟨h.logged ht hl, hs, by rw [content_eq hd, hd]⟩

-- The fragments of one entry, in the first file of a log.
def fragments (a b c : List UInt8) : RecordGroup :=
  let r₁ := buildRecord trimmingBackend plainConfig .insertVertex 7 .none .first 0 a
  let r₂ := buildRecord trimmingBackend plainConfig .insertVertex 7 .none .middle r₁.header.lsn b
  let r₃ := buildRecord trimmingBackend plainConfig .insertVertex 7 .none .last r₂.header.lsn c
  { front := [r₁, r₂]
    final := r₃
    shaped := by simp [Record.Fragmentary, r₁, r₂, r₃, buildRecord_recordType] }

theorem fragments_chained (h : a.length + b.length + c.length ≤ maxPayloadLength) :
    Record.Chain (Record.Intact trimmingBackend) 0 ([fragments a b c].flatMap RecordGroup.records ++ []) := by
  have hm : maxPayloadLength = 268435456 := rfl
  have hw : walHeaderSize = 40 := rfl
  simp only [flatMap_singleton, append_nil, RecordGroup.records, fragments, cons_append, nil_append]
  refine ⟨?_, ?_, ?_, trivial⟩ <;> apply Built.intact ⟨_, _, rfl⟩ (by decide) <;>
    simp only [Record.size, buildRecord, buildWalHeader_lsn] <;> lia

theorem not_startsIntact_nil {prev : Lsn} : ¬StartsIntact trimmingBackend prev [] := by
  rintro ⟨header, payload, hh, -⟩
  simp [WalHeader.fromBytes, walHeaderSize] at hh

def fragmentedFile (a b c : List UInt8) (h : a.length + b.length + c.length ≤ maxPayloadLength) :
    LoggedFile trimmingBackend where
  header := .new someStamp 0 true
  groups := [fragments a b c]
  cut := []
  tail := []
  valid := WalFileHeader.isValid_new _ _ _
  startLsn_lt := Nat.two_pow_pos 64
  fragmentary := trivial
  chained := fragments_chained h
  exhausted := not_startsIntact_nil

theorem fragmentedFile_not_fenced (h : a.length + b.length + c.length ≤ maxPayloadLength) (path path' : String) :
    ¬ Fenced plainConfig path' someStamp [(path, .logged (fragmentedFile a b c h))] := by
  have hu : ∀ f ∈ [(path, LogFile.logged (fragmentedFile a b c h))], f.2.Undamaged :=
    forall_mem_singleton.mpr (.inl (Nat.zero_lt_succ _))
  rw [fenced_iff_near]
  intro hf
  have hn := hf _ (mem_singleton.mpr rfl) (fragments a b c).final (by
    simp [LogFile.records, LoggedFile.records, fragmentedFile, RecordGroup.records])
  rcases (near_openedIn plainConfig path' someStamp hu _).mp hn with hn | ⟨f, hm, r, hr, hn⟩
  · simp only [Near, fragments, buildRecord_lsn] at hn
    lia
  · cases mem_singleton.mp hm
    simp only [LogFile.heads, fragmentedFile, map_singleton, mem_singleton] at hr
    subst hr
    simp only [Near, fragments, RecordGroup.head, headD_cons, buildRecord_lsn] at hn
    lia

-- Behind an entry of 70000 bytes a new writer goes on at the first of its three fragments.
theorem fenced_violated : ∃ dir : List (String × LogFile trimmingBackend),
      ¬ Fenced plainConfig "thread_0_wal_00000002" someStamp dir :=
  ⟨[("thread_0_wal_00000001", .logged (fragmentedFile (List.replicate 32728 1)
    (List.replicate 32728 1) (List.replicate 4544 1)
    (by simp only [length_replicate]; decide)))], fragmentedFile_not_fenced _ _ _⟩

end
end Linkrs
