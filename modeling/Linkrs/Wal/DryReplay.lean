import Linkrs.Wal.Recovery

namespace Linkrs

open List Except

theorem ParsedWalEntry.isSyncEnvelope_of_isCommit {entry : ParsedWalEntry} (h : entry.isCommit) :
    entry.isSyncEnvelope := by
  have hop : WalOpType.tryFrom entry.header.opType = some .transactionCommit := by
    simpa [isCommit] using h
  simp [isSyncEnvelope, hop]

namespace RecoveryManager

variable {codec : WalCodec} {config : RecoveryConfig} {c c' : Collector} {e : ParsedWalEntry}
  {es : List ParsedWalEntry}

-- Entries are collected up to the first one at which that fails.
def collectValid (codec : WalCodec) (c : Collector) : List ParsedWalEntry → Collector
  | [] => c
  | e :: es =>
    match collectEntry codec c e with
    | .error _ => c
    | .ok c => collectValid codec c es

-- The transactions of the batches in front of the first one that is not valid.
def validTransactions (codec : WalCodec) (entries : List ParsedWalEntry) : List CommittedWalTransaction :=
  (collectValid codec ⟨[], []⟩ entries).committed

theorem parse_eq_ok_iff : WalOpType.parse byte = .ok op ↔ WalOpType.tryFrom byte = some op := by
  unfold WalOpType.parse
  cases WalOpType.tryFrom byte <;> simp

theorem collectEntry_cases (h : collectEntry codec c e = .ok c') :
    (e.isCommit = true ∧ ∃ t, c' = ⟨c.committed ++ [t], []⟩ ∧ t.commitLsn = e.lsn ∧ t.redoEntries ⊆ c.pending) ∨
    (e.isCommit = false ∧ c'.committed = c.committed ∧
      ∀ p ∈ c'.pending, p ∈ c.pending ∨ ∃ op, WalOpType.parse p.header.opType = .ok op) := by
  simp only [collectEntry, bind_eq_ok] at h
  obtain ⟨op, hop, h⟩ := h
  have hcommit : e.isCommit = decide (op = .transactionCommit) := by
    simp [ParsedWalEntry.isCommit, parse_eq_ok_iff.mp hop]
  split at h
  case h_1 =>
    obtain ⟨_, _, h⟩ := bind_eq_ok.mp h
    obtain ⟨_, _, h⟩ := bind_eq_ok.mp h
    cases h
    exact .inr ⟨hcommit, rfl, by simp⟩
  case h_2 =>
    obtain ⟨_, _, h⟩ := bind_eq_ok.mp h
    obtain ⟨_, _, h⟩ := bind_eq_ok.mp h
    obtain ⟨t, ht, h⟩ := bind_eq_ok.mp h
    cases h
    obtain ⟨hl, hsub, _⟩ := closeBatch_eq_ok ht
    exact .inl ⟨hcommit, t, rfl, hl, hsub⟩
  case h_3 hne =>
    cases h
    refine .inr ⟨hcommit.trans (decide_eq_false hne), rfl, fun p hp => ?_⟩
    obtain hp | hp := mem_append.mp hp
    · exact .inl hp
    · exact .inr ⟨op, mem_singleton.mp hp ▸ hop⟩

theorem collectValid_append (h : es.foldlM (collectEntry codec) c = .ok c') (es' : List ParsedWalEntry) :
    collectValid codec c (es ++ es') = collectValid codec c' es' := by
  induction es generalizing c with
  | nil =>
    cases h
    rfl
  | cons e es ind =>
    rw [foldlM_cons, bind_eq_ok] at h
    obtain ⟨c₁, he, h⟩ := h
    rw [cons_append, collectValid, he]
    exact ind h

theorem collectValid_of_ok (h : es.foldlM (collectEntry codec) c = .ok c') : collectValid codec c es = c' := by
  simpa [collectValid] using collectValid_append h []

theorem collectValid_without_commits (h : ∀ e ∈ es, e.isCommit = false) :
    (collectValid codec c es).committed = c.committed := by
  induction es generalizing c with
  | nil => rfl
  | cons e es ind =>
    have ⟨he, hes⟩ := forall_mem_cons.mp h
    unfold collectValid
    split
    case h_1 => rfl
    case h_2 c' hok =>
      obtain ⟨hcommit, _⟩ | ⟨_, hsame, _⟩ := collectEntry_cases hok
      · simp [he] at hcommit
      · rw [ind hes, hsame]

-- The entries that are kept back from the replay come after the last commit record.
theorem rdropWhile_isCommit (entries : List ParsedWalEntry) :
    (∃ rest, entries = entries.rdropWhile (!·.isCommit) ++ rest ∧ ∀ e ∈ rest, e.isCommit = false) ∧
    (entries.rdropWhile (!·.isCommit) = [] ∨
      ∃ front commit, entries.rdropWhile (!·.isCommit) = front ++ [commit] ∧ commit.isCommit) := by
  induction entries using List.reverseRecOn with
  | nil => exact ⟨⟨[], rfl, nofun⟩, .inl rfl⟩
  | append_singleton es e ind =>
    obtain ⟨⟨rest, heq, hrest⟩, hlast⟩ := ind
    cases he : e.isCommit with
    | true =>
      rw [rdropWhile_concat_neg _ _ _ (by simp [he])]
      exact ⟨⟨[], by simp, nofun⟩, .inr ⟨es, e, rfl, he⟩⟩
    | false =>
      rw [rdropWhile_concat_pos _ _ _ (by simp [he])]
      refine ⟨⟨rest ++ [e], ?_, ?_⟩, hlast⟩
      · rw [← append_assoc, ← heq]
      · exact forall_mem_append.mpr ⟨hrest, forall_mem_singleton.mpr he⟩

variable {result : RecoveryResult}

-- What of the log gets to the replay, if it has transaction envelopes.
def keptEntries (config : RecoveryConfig) (entries : List ParsedWalEntry) : List ParsedWalEntry :=
  if config.throwOnWalReplayFailure then entries else entries.rdropWhile (!·.isCommit)

theorem consistentEntries_fallback (result : RecoveryResult) :
    (scanForLastCommitFallback result).consistentEntries = result.allEntries.rdropWhile (!·.isCommit) := by
  unfold scanForLastCommitFallback
  cases hlast : (result.allEntries.rdropWhile (!·.isCommit)).getLast? with
  | none => simp [getLast?_eq_none_iff.mp hlast]
  | some commit => simp [hlast]

theorem collect_concat (he : e.isCommit) (h : (front ++ [e]).foldlM (collectEntry codec) c = .ok c') :
    ∃ t, c'.committed.getLast? = some t ∧ t.commitLsn = e.lsn := by
  rw [foldlM_append, bind_eq_ok] at h
  obtain ⟨c₁, _, h⟩ := h
  rw [foldlM_cons, bind_eq_ok] at h
  obtain ⟨c₂, hc, h⟩ := h
  cases h
  obtain ⟨_, t, rfl, hlsn, _⟩ | ⟨hcommit, _⟩ := collectEntry_cases hc
  · exact ⟨t, by simp, hlsn⟩
  · simp [he] at hcommit

theorem collect_without_commits (hes : ∀ e ∈ es, e.isCommit = false)
    (h : es.foldlM (collectEntry codec) c = .ok c') : c'.committed = c.committed := by
  rw [← collectValid_of_ok h]
  exact collectValid_without_commits hes

-- Where no two entries have the same LSN, the entry with the LSN of another is that entry.
theorem findIdx_lsn (h : ((front ++ [e] ++ rest).map (·.lsn)).Nodup) :
    (front ++ [e] ++ rest).findIdx? (·.lsn = e.lsn) = some front.length := by
  have hfront : ∀ a ∈ front, a.lsn ≠ e.lsn := by
    intro a ha heq
    simp only [map_append, append_assoc, map_cons] at h
    exact (nodup_append.mp h).2.2 a.lsn (mem_map_of_mem ha) e.lsn (by simp) heq
  rw [append_assoc, findIdx?_append, findIdx?_eq_none_iff.mpr (by simpa using hfront)]
  simp [findIdx?_cons]

theorem consistentEntries_cut (hlsn : (result.allEntries.map (·.lsn)).Nodup)
    {committed : List CommittedWalTransaction}
    (hc : collectCommittedTransactions codec result.allEntries = .ok committed)
    (hl : committed.getLast? = some last) :
    (cutAfterCommit result last).consistentEntries = result.allEntries.rdropWhile (!·.isCommit) := by
  obtain ⟨c, hall, hcommitted⟩ := bind_eq_ok.mp hc
  cases hcommitted
  have ⟨⟨rest, heq, hrest⟩, hkept⟩ := rdropWhile_isCommit result.allEntries
  rw [heq, foldlM_append, bind_eq_ok] at hall
  obtain ⟨c₁, hfront, hall⟩ := hall
  rw [collect_without_commits hrest hall] at hl
  obtain hnil | ⟨front, commit, hkept, hcommit⟩ := hkept
  · rw [hnil] at hfront
    cases hfront
    cases hl
  · rw [hkept] at hfront heq
    have ⟨t, ht, hlast⟩ := collect_concat hcommit hfront
    obtain rfl : t = last := Option.some.inj (ht.symm.trans hl)
    have hidx : result.allEntries.findIdx? (·.lsn = t.commitLsn) = some front.length := by
      rw [hlast, heq]
      exact findIdx_lsn (heq ▸ hlsn)
    rw [cutAfterCommit, hidx, hkept, heq, append_assoc]
    simp only [take_length_add_append]
    rfl

-- The cut is at the last commit record, whatever way it is found.
theorem allEntries_filtered (henv : result.hasSyncEnvelope) (hlsn : (result.allEntries.map (·.lsn)).Nodup) :
    (applyDryReplayFilter codec config result).allEntries = keptEntries config result.allEntries := by
  unfold applyDryReplayFilter keptEntries
  cases hthrow : config.throwOnWalReplayFailure with
  | true => rfl
  | false =>
    have hnil : result.allEntries ≠ [] := by
      intro hnil
      simp [RecoveryResult.hasSyncEnvelope, hnil] at henv
    simp only [findLastConsistentCommit, hnil, henv, Bool.false_and, decide_false, Bool.or_self, Bool.not_true,
      Bool.false_eq_true, if_false, Bool.not_false, Bool.true_and]
    cases hc : collectCommittedTransactions codec result.allEntries with
    | error error => exact consistentEntries_fallback result
    | ok committed =>
      simp only
      split
      case h_1 last hl => exact consistentEntries_cut hlsn hc hl
      case h_2 hl =>
        split
        case isFalse => exact consistentEntries_fallback result
        case isTrue hnone =>
          refine (rdropWhile_eq_nil_iff.mpr fun e he => ?_).symm
          simpa using any_eq_false.mp (by simpa using hnone) e he

-- The transactions in front of the first batch that is not valid are those of the kept entries, if these
-- are all valid.
theorem validTransactions_of_kept {committed : List CommittedWalTransaction}
    (h : collectCommittedTransactions codec (keptEntries config es) = .ok committed) :
    validTransactions codec es = committed := by
  obtain ⟨c, hall, hcommitted⟩ := bind_eq_ok.mp h
  cases hcommitted
  have ⟨rest, heq, hrest⟩ : ∃ rest, es = keptEntries config es ++ rest ∧ ∀ e ∈ rest, e.isCommit = false := by
    unfold keptEntries
    split
    · exact ⟨[], by simp, nofun⟩
    · exact (rdropWhile_isCommit es).1
  rw [validTransactions, heq, collectValid_append hall, collectValid_without_commits hrest]

-- All that has been put aside or collected are entries with a known operation.
structure Known (c : Collector) : Prop where
  pending : ∀ e ∈ c.pending, ∃ op, WalOpType.parse e.header.opType = .ok op
  committed : ∀ t ∈ c.committed, ∀ e ∈ t.redoEntries, ∃ op, WalOpType.parse e.header.opType = .ok op

theorem Known.collectEntry (h : Known c) (hc : collectEntry codec c e = .ok c') : Known c' := by
  obtain ⟨_, t, rfl, _, hredo⟩ | ⟨_, hsame, hpending⟩ := collectEntry_cases hc
  · refine ⟨nofun, forall_mem_append.mpr ⟨h.committed, forall_mem_singleton.mpr fun e he => ?_⟩⟩
    exact h.pending e (hredo he)
  · exact ⟨fun p hp => (hpending p hp).elim (h.pending p) id, hsame ▸ h.committed⟩

theorem Known.collectValid (h : Known c) : Known (collectValid codec c es) := by
  induction es generalizing c with
  | nil => exact h
  | cons e es ind =>
    unfold RecoveryManager.collectValid
    split
    · exact h
    · exact ind (h.collectEntry ‹_›)

-- A storage that takes everything, and one that takes nothing.
def acceptAll : RecoveryApplier where
  replay _ _ := .ok ()
  replayDeferredEdges := .ok ()

def refuseAll : RecoveryApplier where
  replay _ _ := .error ⟨.walError, "refused"⟩
  replayDeferredEdges := .ok ()

theorem replayEntry_acceptAll
    (h : WalOpType.parse e.header.opType = .ok op) : (replayEntry config acceptAll stats e).isOk := by
  unfold replayEntry
  split
  · rfl
  · rw [h]
    cases op <;> rfl

theorem isOk_foldlM {α β ε : Type} {f : β → α → Except ε β} {xs : List α} (h : ∀ x ∈ xs, ∀ b, (f b x).isOk) (b : β) :
    (xs.foldlM f b).isOk := by
  induction xs generalizing b with
  | nil => rfl
  | cons x xs ind =>
    have ⟨hx, hxs⟩ := forall_mem_cons.mp h
    have ⟨b', hb⟩ := isOk_iff.mp (hx b)
    rw [foldlM_cons, hb]
    exact ind hxs b'

-- Replay does what the given transactions ask for, one after the other, and nothing else, whatever the
-- storage makes of it. The LSN that is reported at the end is left out.
def Applies (codec : WalCodec) (config : RecoveryConfig) (result : RecoveryResult)
    (transactions : List CommittedWalTransaction) : Prop :=
  ∀ applier stats,
    (replayWalEntries codec config applier stats result).map ({ · with lastLsn := 0 }) =
      (transactions.foldlM (replayTransaction config applier) stats).map ({ · with lastLsn := 0 })

theorem isOk_foldlM_acceptAll (config : RecoveryConfig) {transactions : List CommittedWalTransaction}
    (h : ∀ t ∈ transactions, ∀ e ∈ t.redoEntries, ∃ op, WalOpType.parse e.header.opType = .ok op)
    (stats : RecoveryStats) : (transactions.foldlM (replayTransaction config acceptAll) stats).isOk := by
  refine isOk_foldlM (fun t ht stats => ?_) stats
  have hredo : (replayParsedEntries config acceptAll stats t.redoEntries).isOk := by
    refine isOk_foldlM (fun e he stats => ?_) stats
    have ⟨op, hop⟩ := h t ht e he
    exact replayEntry_acceptAll hop
  have ⟨stats', hs⟩ := isOk_iff.mp hredo
  rw [replayTransaction, hs]
  rfl

-- Nothing is kept of a log with envelopes only if it has no commit record.
theorem keptEntries_eq_nil (henv : result.hasSyncEnvelope)
    (h : (keptEntries config result.allEntries).any (·.isSyncEnvelope) = false) :
    keptEntries config result.allEntries = [] := by
  unfold keptEntries at h ⊢
  split at h
  case isTrue hthrow => simp [RecoveryResult.hasSyncEnvelope, h] at henv
  case isFalse =>
    rw [if_neg ‹_›]
    obtain hnil | ⟨front, commit, heq, hcommit⟩ := (rdropWhile_isCommit result.allEntries).2
    · exact hnil
    · simp [heq, ParsedWalEntry.isSyncEnvelope_of_isCommit hcommit] at h

theorem replayEntry_refuseAll (henv : e.isSyncEnvelope = false)
    (h : replayEntry config refuseAll stats e = .ok stats') : skips config e := by
  by_contra hskip
  rw [replayEntry, if_neg hskip] at h
  obtain ⟨op, hop, h⟩ := bind_eq_ok.mp h
  have hop := parse_eq_ok_iff.mp (mapError_eq_ok.mp hop)
  rw [ParsedWalEntry.isSyncEnvelope, hop] at henv
  split at h
  case h_1 | h_2 | h_3 => cases henv
  case h_4 | h_5 =>
    obtain ⟨_, hrefused, _⟩ := bind_eq_ok.mp h
    cases hrefused

theorem skips_of_refuseAll (henv : es.any (·.isSyncEnvelope) = false)
    (h : replayParsedEntries config refuseAll stats es = .ok stats') : ∀ e ∈ es, skips config e := by
  induction es generalizing stats with
  | nil => nofun
  | cons e es ind =>
    have ⟨he, hes⟩ : e.isSyncEnvelope = false ∧ es.any (·.isSyncEnvelope) = false := by simpa using henv
    have ⟨stats₁, hfirst, hrest⟩ := bind_eq_ok.mp h
    exact forall_mem_cons.mpr ⟨replayEntry_refuseAll he hfirst, ind hes hrest⟩

theorem replayParsedEntries_of_skips (h : ∀ e ∈ es, skips config e)
    (stats : RecoveryStats) : replayParsedEntries config applier stats es = .ok stats := by
  induction es with
  | nil => rfl
  | cons e es ind =>
    have ⟨he, hes⟩ := forall_mem_cons.mp h
    have hfirst : replayEntry config applier stats e = .ok stats := by
      rw [replayEntry, if_pos he]
      rfl
    rw [replayParsedEntries, foldlM_cons, hfirst]
    exact ind hes

theorem allEntries_legacy (henv : result.hasSyncEnvelope = false) :
    (applyDryReplayFilter codec config result).allEntries = result.allEntries := by
  unfold applyDryReplayFilter
  split
  case isTrue => rfl
  case isFalse hthrow =>
    by_cases hnil : result.allEntries = []
    · simp [findLastConsistentCommit, hnil]
    · simp [findLastConsistentCommit, hnil, henv, hthrow]

theorem applies_iff_of_envelope (henv : result.hasSyncEnvelope) (hlsn : (result.allEntries.map (·.lsn)).Nodup) :
    Applies codec config (applyDryReplayFilter codec config result) (validTransactions codec result.allEntries) ↔
      (collectCommittedTransactions codec (keptEntries config result.allEntries)).isOk := by
  have hkept : (applyDryReplayFilter codec config result).allEntries = _ := allEntries_filtered henv hlsn
  generalize applyDryReplayFilter codec config result = filtered at hkept ⊢
  cases hc : collectCommittedTransactions codec (keptEntries config result.allEntries) with
  | ok committed =>
    refine iff_of_true (fun applier stats => ?_) rfl
    rw [validTransactions_of_kept hc, replayWalEntries]
    split
    case isFalse =>
      rw [committedTransactions, hkept, hc]
      rfl
    case isTrue hnone =>
      have hnil : keptEntries config result.allEntries = [] := by
        refine keptEntries_eq_nil henv ?_
        simpa [RecoveryResult.hasSyncEnvelope, hkept] using hnone
      rw [hkept, hnil]
      rw [hnil] at hc
      cases hc
      rfl
  | error error =>
    refine iff_of_false (fun happlies => ?_) (by simp)
    have henv' : filtered.hasSyncEnvelope := by
      by_contra hnone
      have hnil : keptEntries config result.allEntries = [] := by
        refine keptEntries_eq_nil henv ?_
        simpa [RecoveryResult.hasSyncEnvelope, hkept] using hnone
      rw [hnil] at hc
      cases hc
    have hknown : Known (collectValid codec ⟨[], []⟩ result.allEntries) := Known.collectValid ⟨by simp, by simp⟩
    obtain ⟨stats, hs⟩ := isOk_iff.mp (isOk_foldlM_acceptAll config hknown.committed {})
    have hsame := happlies acceptAll {}
    rw [validTransactions, hs, replayWalEntries, henv', committedTransactions, hkept, hc] at hsame
    cases hsame

theorem applies_iff_of_legacy (henv : result.hasSyncEnvelope = false) :
    Applies codec config (applyDryReplayFilter codec config result) (validTransactions codec result.allEntries) ↔
      ∀ e ∈ result.allEntries, skips config e := by
  have hsame : (applyDryReplayFilter codec config result).allEntries = _ := allEntries_legacy henv
  generalize applyDryReplayFilter codec config result = filtered at hsame ⊢
  have henv' : filtered.hasSyncEnvelope = false := by
    rw [RecoveryResult.hasSyncEnvelope, hsame]
    exact henv
  have hvalid : validTransactions codec result.allEntries = [] := by
    refine collectValid_without_commits fun e he => ?_
    by_contra hcommit
    have henvelope := ParsedWalEntry.isSyncEnvelope_of_isCommit (by simpa using hcommit)
    exact any_eq_false.mp henv e he henvelope
  unfold Applies
  simp only [hvalid, replayWalEntries, henv', Bool.not_false, if_true, hsame, foldlM_nil]
  constructor
  · intro happlies
    have hok := happlies refuseAll {}
    obtain ⟨stats, hs, _⟩ := map_eq_ok.mp hok
    obtain ⟨stats', hreplay, _⟩ := bind_eq_ok.mp hs
    exact skips_of_refuseAll henv hreplay
  · intro hskips applier stats
    rw [replayParsedEntries_of_skips hskips]
    rfl

theorem applies_valid_iff (codec : WalCodec) (config : RecoveryConfig) {result : RecoveryResult}
    (hlsn : (result.allEntries.map (·.lsn)).Nodup) :
    Applies codec config (applyDryReplayFilter codec config result) (validTransactions codec result.allEntries) ↔
      if result.hasSyncEnvelope then
        (collectCommittedTransactions codec (keptEntries config result.allEntries)).isOk = true
      else ∀ e ∈ result.allEntries, skips config e := by
  split
  case isTrue henv => exact applies_iff_of_envelope henv hlsn
  case isFalse henv => exact applies_iff_of_legacy (by simpa using henv)

def parsedLog (entries : List ParsedWalEntry) : RecoveryResult where
  allEntries := entries
  lastTimestamp := 7
  lastLsn := (entries.getLast?.map (·.lsn)).getD 0
  corruptedCount := 0
  skippedCount := 0

-- The last batch is cut short.
theorem applies_valid_torn_tail :
    let entries := ((insertBatch 1).logged 0).parsedEntries ++ parseRecords 138 ((insertBatch 2).entries.take 1)
    Applies postcardCodec {} (applyDryReplayFilter postcardCodec {} (parsedLog entries))
      (validTransactions postcardCodec entries) := by
  intro entries
  have hlsn : ((parsedLog entries).allEntries.map (·.lsn)).Nodup := by decide +kernel
  refine (applies_valid_iff postcardCodec {} hlsn).mpr ?_
  decide +kernel

-- A batch is cut short and the next one is complete. The replay fails as a whole, and the transaction in
-- front of the two is lost.
theorem valid_batch_not_applied :
    let entries := ((insertBatch 1).logged 0).parsedEntries ++ parseRecords 138 ((insertBatch 2).entries.take 1) ++
      ((insertBatch 3).logged 181).parsedEntries
    (validTransactions postcardCodec entries).map (·.transactionId) = [1] ∧
    (replayWalEntries postcardCodec {} acceptAll {}
      (applyDryReplayFilter postcardCodec {} (parsedLog entries))).isOk = false := by
  decide +kernel

end RecoveryManager

end Linkrs
