import Linkrs.Manager.Coherence

namespace Linkrs

open Concurrent (Protocol)

-- What is known once a request has been answered: a commit that succeeded is in the log.
def Answered (config : ManagerConfig) : Request → Response → World → Prop
  | .commit t, .ok _, w => config.persistent → w.Logged t
  | _, _, _ => True

def protocol (config : ManagerConfig) : Protocol (machine config) where
  inv := Coherent
  rule c a w := Rule config c w a
  fresh c w := ∀ t, (w.txn t).owner ≠ some c
  post := Answered config
  inv_exec := Coherent.exec
  fresh_exec hc hi hr h t := (life_step hi hr t).owner_ne hc (h t)

variable {config : ManagerConfig} {c : CallId} {t : TransactionId} {w : World}

theorem World.awaitFailed_exec (h : (w.txn t).awaitFailed) : ((w.exec config c a e).2.txn t).awaitFailed := by
  simp only [txn, exec, History.observe]
  split <;> grind [History.txns_setLoaded, History.txns_modify]

section

-- An assertion about the life of one transaction is stable if no step of another call breaks it.
theorem stable_life {q : Life → Prop}
    (hq : ∀ {c' a l l'}, c' ≠ c → l.Coherent → Life.Step c' t l a l' → q l → q l') :
    (protocol config).Stable c fun w => q (w.life t) :=
  fun _ _ _ _ hc hi hr h => hq hc (hi.life t) (life_step hi hr t) h

theorem stable_listed : (protocol config).Stable c (·.Listed t) :=
  stable_life (q := (·.birth = .listed)) fun _ _ s h => s.listed h

theorem World.Reads.exec {ctx : TransactionContext} (h : w.Reads t ctx)
    (hi : Coherent w) (hr : Rule config c w a) : (w.exec config c a e).2.Reads t ctx := by
  have s := life_step (e := e) hi hr t
  refine ⟨s.listed h.1, ?_⟩
  have ⟨ht, hs⟩ := s.fixed h.1
  exact ⟨ht.trans h.2.1, hs.trans h.2.2⟩

theorem stable_reads {ctx : TransactionContext} : (protocol config).Stable c (·.Reads t ctx) :=
  fun _ _ _ _ _ hi hr h => h.exec hi hr

variable {s : Stage} {ts : Timestamp}

theorem stable_holds : (protocol config).Stable c (·.Holds c t s) := by
  refine stable_life (q := fun l => l.owner = some c ∧ l.stage = s) ?_
  intro c' a l l' hc hl st ⟨ho, hs⟩
  have hn := hl.sealed (by simp [ho])
  cases st <;> simp_all

theorem stable_not_owner : (protocol config).Stable c fun w => (w.txn t).owner ≠ some c :=
  stable_life (q := (·.owner ≠ some c)) fun hc _ s h => s.owner_ne hc h

theorem stable_aborts : (protocol config).Stable c (·.Aborts c t) := by
  refine stable_life (q := fun l => l.aborter = some c) ?_
  intro c' a l l' hc hl s ha
  have hn := hl.state_of_aborter ha
  cases s with
  | abort _ hs _ => grind
  | _ => simp_all

theorem stable_recovers : (protocol config).Stable c (·.Recovers c t s) := by
  refine stable_life (q := fun l => l.recoverer = some c ∧ l.stage = s) ?_
  intro c' a l l' hc hl st ⟨hr, hs⟩
  have hf := hl.recoverer (by simp [hr])
  have := st.stage_of_isFinal hl hf
  cases st <;> simp_all

theorem stable_creates (hb : b ≠ .unborn) : (protocol config).Stable c (·.Creates c t b) := by
  refine stable_life (q := fun l => l.creator = some c ∧ l.birth = b) ?_
  intro c' a l l' hc hl s ⟨hr, hs⟩
  cases s <;> simp_all

theorem stable_begun :
    (protocol config).Stable c fun w =>
      w.Creates c t .begun ∧ (w.ctx t).startTimestamp = ts := by
  refine stable_life (q := fun l => (l.creator = some c ∧ l.birth = .begun) ∧ l.startTimestamp = ts) ?_
  intro c' a l l' hc hl s ⟨⟨hr, hs⟩, hts⟩
  cases s <;> simp_all

theorem stable_stamped (hs : s = .settled ws commit ∨ s = .leftover ws commit) :
    (protocol config).Stable c fun w =>
      w.Holds c t s ∧ (w.ctx t).commitTimestamp = commit := by
  refine stable_life (q := fun l => (l.owner = some c ∧ l.stage = s) ∧ l.commitTimestamp = commit) ?_
  intro c' a l l' hc hl st ⟨⟨ho, hst⟩, hts⟩
  have hn := hl.sealed (by simp [ho])
  have hb := hl.listed_of_owner ho
  cases st <;> grind

theorem stable_recovers_stamp :
    (protocol config).Stable c fun w =>
      w.Recovers c t s ∧ (w.ctx t).commitTimestamp = ts := by
  refine stable_life (q := fun l => (l.recoverer = some c ∧ l.stage = s) ∧ l.commitTimestamp = ts) ?_
  intro c' a l l' hc hl st ⟨⟨hr, hst⟩, hts⟩
  have hf := hl.recoverer (by simp [hr])
  have := st.stage_of_isFinal hl hf
  have hb := hl.listed_of_isFinal hf
  cases st <;> grind [Stage.isFinal]

theorem stable_watermark :
    (protocol config).Stable c fun w => w.history.watermark c = some ts := by
  intro c' a e w hc _ _ h
  have : (w.exec config c' a e).2.history.watermark c = w.history.watermark c := by
    simp only [World.exec, History.observe]
    split <;> simp [History.modify, History.setLoaded, Ne.symm hc]
  exact this.trans h

theorem stable_loaded :
    (protocol config).Stable c fun w => w.history.loaded c = some ts := by
  intro c' a e w hc _ _ h
  have : (w.exec config c' a e).2.history.loaded c = w.history.loaded c := by
    simp only [World.exec, History.observe]
    split <;> simp [History.modify, History.setLoaded, Ne.symm hc]
  exact this.trans h

theorem stable_logged : (protocol config).Stable c (·.Logged t) :=
  fun _ _ _ _ _ _ _ h => h.exec

theorem stable_unlogged :
    (protocol config).Stable c fun w =>
      w.Holds c t (.described ws) ∧ (w.Logged t → (w.txn t).awaitFailed) := by
  intro c' a e w hc hi hr ⟨hh, hl⟩
  refine ⟨stable_holds hc hi hr hh, fun h => ?_⟩
  obtain h | rfl := World.logged_exec h
  case inl => exact World.awaitFailed_exec (hl h)
  case inr =>
    cases hr with
    | appendTransaction hh' => exact absurd (Option.some.inj (hh'.1.symm.trans hh.1)) hc

end

end Linkrs
