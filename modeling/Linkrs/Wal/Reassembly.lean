import Linkrs.Wal.Parser

namespace Linkrs

open Record FragmentBuffer

-- The records of an entry before its last one, when there is more than one.
def Record.Fragmentary : List Record → Prop
  | [] => True
  | r :: rs => r.header.recordType = .first ∧ ∀ r ∈ rs, r.header.recordType = .middle

-- The records that carry one entry: a single full one, or several that end in a last one.
structure RecordGroup where
  front : List Record
  final : Record
  shaped : Record.Fragmentary front ∧ final.header.recordType = if front = [] then .full else .last

namespace RecordGroup

def records (g : RecordGroup) : List Record :=
  g.front ++ [g.final]

def head (g : RecordGroup) : Record :=
  g.front.headD g.final

theorem head_mem (g : RecordGroup) : g.head ∈ g.records := by
  cases hf : g.front <;> simp [head, records, hf]

def content (backend : WalBackend) (g : RecordGroup) : List UInt8 :=
  g.records.flatMap (·.content backend)

theorem fragmentary_take (g : RecordGroup) (h : k < g.records.length) : Record.Fragmentary (g.records.take k) := by
  have hk : k ≤ g.front.length := by
    simpa [records, Nat.lt_succ_iff] using h
  rw [records, List.take_append_of_le_length hk]
  have hs := g.shaped.1
  cases k with
  | zero => simp [Record.Fragmentary]
  | succ k =>
    cases hf : g.front with
    | nil => simp [Record.Fragmentary]
    | cons r rs =>
      rw [hf] at hs
      exact ⟨hs.1, fun r hr => hs.2 r (List.mem_of_mem_take hr)⟩

-- The entry that a reader reports when it has read the last record, which begins at `offset`.
def entry (backend : WalBackend) (offset : ℕ) (g : RecordGroup) : ParsedWalEntry where
  header := g.head.header
  payload := g.content backend
  offset := offset
  lsn := g.head.header.lsn
  prevLsn := g.head.header.prevLsn

def entries (backend : WalBackend) : ℕ → List RecordGroup → List ParsedWalEntry
  | _, [] => []
  | offset, g :: gs =>
    g.entry backend (offset + (stream g.front).length) ::
      entries backend (offset + (stream g.records).length) gs

end RecordGroup

namespace RecoveryResult

variable {result : RecoveryResult} {entries : List ParsedWalEntry}

def pushAll (result : RecoveryResult) (entries : List ParsedWalEntry) : RecoveryResult :=
  entries.foldl pushEntry result

@[simp]
theorem pushAll_allEntries : (result.pushAll entries).allEntries = result.allEntries ++ entries := by
  induction entries generalizing result with
  | nil => simp [pushAll]
  | cons e es ind => simpa [pushAll, pushEntry] using @ind (result.pushEntry e)

end RecoveryResult

namespace Scanner

variable {backend : WalBackend} {s : Scanner} {offset : ℕ} {r : Record} {rs : List Record}

theorem accept_first (h : r.header.recordType = .first) (payload : List UInt8) : s.accept offset r.header payload =
      { s with
        expectedPrevLsn := r.header.lsn
        fragments := ⟨[payload], some r.header, some .middle⟩ } := by
  simp [accept, addFragment, h]

theorem acceptAll_middle
    (h : ∀ r ∈ rs, r.header.recordType = .middle) (hs : s.fragments = ⟨parts, first, some .middle⟩) :
    acceptAll backend offset rs s =
      { s with
        expectedPrevLsn := endLsn s.expectedPrevLsn rs
        fragments := ⟨parts ++ rs.map (·.content backend), first, some .middle⟩ } := by
  induction rs generalizing offset s parts with
  | nil => simp [acceptAll, endLsn, ← hs]
  | cons r rs ind =>
    obtain ⟨hr, hrs⟩ := List.forall_mem_cons.mp h
    have ha : s.accept offset r.header (r.content backend) =
        { s with
          expectedPrevLsn := r.header.lsn
          fragments := ⟨parts ++ [r.content backend], first, some .middle⟩ } := by
      simp [accept, addFragment, continues, hr, hs]
    rw [acceptAll, ha, ind hrs rfl]
    simp [endLsn]

-- What the buffer holds of an entry that is not complete.
def held (backend : WalBackend) : List Record → FragmentBuffer
  | [] => {}
  | r :: rs => ⟨(r :: rs).map (·.content backend), some r.header, some .middle⟩

theorem acceptAll_fragmentary (h : Record.Fragmentary rs) (hs : s.fragments = {}) : acceptAll backend offset rs s =
      { s with
        expectedPrevLsn := endLsn s.expectedPrevLsn rs
        fragments := held backend rs } := by
  cases rs with
  | nil => simp [acceptAll, endLsn, held, ← hs]
  | cons r rs =>
    rw [acceptAll, accept_first h.1, acceptAll_middle h.2 rfl]
    simp [held, endLsn]

theorem acceptAll_group (g : RecordGroup) (hs : s.fragments = {}) : acceptAll backend offset g.records s =
      { s with
        expectedPrevLsn := endLsn s.expectedPrevLsn g.records
        result := s.result.pushEntry
          (g.entry backend (offset + (stream g.front).length)) } := by
  have ⟨hf, hl⟩ := g.shaped
  rw [RecordGroup.records, acceptAll_append, acceptAll_fragmentary hf hs]
  cases hg : g.front with
  | nil =>
    simp [acceptAll, accept, hl, push, held, hs, endLsn, RecordGroup.entry, RecordGroup.head,
      RecordGroup.content, RecordGroup.records, hg]
  | cons r rs =>
    simp [acceptAll, accept, hl, push, held, hs, addFragment, continues, assemble, FragmentBuffer.reset, endLsn,
      RecordGroup.entry, RecordGroup.head, RecordGroup.content, RecordGroup.records, hg,
      List.flatMap]

theorem acceptAll_groups (gs : List RecordGroup) (hs : s.fragments = {}) :
    acceptAll backend offset (gs.flatMap RecordGroup.records) s =
      { s with
        expectedPrevLsn := endLsn s.expectedPrevLsn (gs.flatMap RecordGroup.records)
        result := s.result.pushAll (RecordGroup.entries backend offset gs) } := by
  induction gs generalizing offset s with
  | nil => simp [acceptAll, endLsn, RecordGroup.entries, RecoveryResult.pushAll]
  | cons g gs ind =>
    rw [List.flatMap_cons, acceptAll_append, acceptAll_group g hs, ind (by simpa using hs)]
    simp [RecordGroup.entries, RecoveryResult.pushAll]

-- A file is read past its complete entries and past the records of one that was cut off.
theorem scanFrom_groups (hs : s.fragments = {}) (hc : Record.Fragmentary cut)
    (h : Record.Chain (Record.Intact backend) s.expectedPrevLsn (gs.flatMap RecordGroup.records ++ cut)) :
    scanFrom backend mode verify offset
        (stream (gs.flatMap RecordGroup.records ++ cut) ++ rest) s = scanFrom backend mode verify
        (offset + (stream (gs.flatMap RecordGroup.records ++ cut)).length) rest
        { expectedPrevLsn := endLsn s.expectedPrevLsn (gs.flatMap RecordGroup.records ++ cut)
          result := s.result.pushAll (RecordGroup.entries backend offset gs)
          fragments := held backend cut } := by
  rw [scanFrom_stream h, acceptAll_append, acceptAll_groups gs hs, acceptAll_fragmentary hc (by simpa using hs)]
  simp

end Scanner
end Linkrs
