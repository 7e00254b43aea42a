import Linkrs.Context.Savepoint

namespace Linkrs

namespace TransactionContext

variable (ctx : TransactionContext)

def FitsBudget : Prop :=
  (0 < ctx.maxMutationCount → ctx.mutationCount < ctx.maxMutationCount) ∧
  (0 < ctx.maxUndoBytes → ctx.undoBytes + 64 ≤ ctx.maxUndoBytes)

variable (mutation : MutationResult) (expired : Bool)

-- A mutation is turned down before it is counted, or it is counted and does not fit, or its writes
-- are recorded.
theorem recordMutation_cases :
    (∃ e, ctx.recordMutation mutation expired = (.error e, ctx) ∧ (ctx.canExecute expired = .ok () → ctx.readOnly)) ∨
    (∃ e ctx', ctx.recordMutation mutation expired = (.error e, ctx') ∧ ctx'.mutationCount = ctx.mutationCount + 1 ∧
      ctx.canExecute expired = .ok () ∧ ¬ctx.readOnly ∧ ¬ctx.FitsBudget) ∨
    (∃ ctx', ctx.recordMutation mutation expired = (.ok (), ctx') ∧
      ctx.canExecute expired = .ok () ∧ ¬ctx.readOnly ∧ ctx.FitsBudget) := by
  simp only [recordMutation, FitsBudget]
  split
  case h_1 e he => exact .inl ⟨e, rfl, by simp [he]⟩
  case h_2 he =>
    split
    case isTrue hr => exact .inl ⟨_, rfl, fun _ => hr⟩
    case isFalse hr =>
      split
      case isTrue hm =>
        exact .inr (.inl ⟨_, _, rfl, rfl, he, hr, by omega⟩)
      case isFalse hm =>
        split
        case isTrue hu => exact .inr (.inl ⟨_, _, rfl, rfl, he, hr, by omega⟩)
        case isFalse hu => exact .inr (.inr ⟨_, rfl, he, hr, by omega⟩)

end TransactionContext

namespace FileBackedUndoLog

variable {ε σ : Type} (target : UndoTarget ε σ) (log : FileBackedUndoLog ε)

-- The entry stays in memory, or the block that it fills can be written.
def Takes (entry : ε) (s : σ) : Prop :=
  log.buffer.length + 1 < log.threshold ∨ (target.writeBlock (entry :: log.buffer) s).1 = .ok ()

variable {target log}

theorem add_eq_ok_iff : (log.add target entry s).1 = .ok () ↔ log.Takes target entry s := by
  have hlen : (log.push entry).buffer.length = log.buffer.length + 1 := rfl
  unfold add Takes
  by_cases h : log.threshold ≤ log.buffer.length + 1
  · rw [if_pos (by omega), or_iff_right (by omega), show (log.push entry).buffer = entry :: log.buffer from rfl]
    split
    case h_1 hw => simp [hw]
    case h_2 hw => simp [hw]
  · rw [if_neg (by omega)]
    exact iff_of_true rfl (.inl (by omega))

end FileBackedUndoLog

namespace JournaledContext

variable {ε σ : Type}

-- What a mutation that is rejected should leave alone.
structure Unchanged (ctx ctx' : JournaledContext ε) : Prop where
  mutationJournal : ctx'.mutationJournal = ctx.mutationJournal
  writeSet : ctx'.writeSet = ctx.writeSet
  mutationCount : ctx'.mutationCount = ctx.mutationCount
  undoBytes : ctx'.undoBytes = ctx.undoBytes
  modifiedTables : ctx'.modifiedTables = ctx.modifiedTables
  undoLogs : ctx'.undoLogs = ctx.undoLogs

variable (orderingKey : IndexMutation → String) (target : UndoTarget ε σ) (ctx : JournaledContext ε)
variable (mutation : Mutation ε) (expired : Bool) (s : σ)

-- The context takes no mutations now.
def Refuses : Prop :=
  ctx.canExecute expired ≠ .ok () ∨ ctx.readOnly

-- A mutation that is counted is also kept.
def Admits : Prop :=
  ctx.FitsBudget ∧ ∀ entry ∈ mutation.undoEntry, ctx.undoLogs.Takes target entry s

-- An error leaves the context as it was only if the mutation was turned down before it was counted.
theorem recordMutation_atomic_iff : (∀ e, (ctx.recordMutation orderingKey target mutation expired s).1 = .error e →
      ctx.Unchanged (ctx.recordMutation orderingKey target mutation expired s).2.1) ↔
    ctx.Refuses expired ∨ ctx.Admits target mutation s := by
  obtain ⟨e, h, hr⟩ | ⟨e, base, h, hcount, hx, hr, hb⟩ | ⟨base, h, hx, hr, hb⟩ :=
    ctx.toTransactionContext.recordMutation_cases (mutation.result orderingKey) expired
  · refine iff_of_true (fun _ _ => ?_) (.inl ?_)
    · simp only [recordMutation, h]
      exact ⟨rfl, rfl, rfl, rfl, rfl, rfl⟩
    · exact or_iff_not_imp_left.mpr fun hx => hr (not_not.mp hx)
  · refine iff_of_false (fun hall => ?_) (not_or.mpr ⟨not_or.mpr ⟨not_not.mpr hx, hr⟩, fun ha => hb ha.1⟩)
    have hu := hall e (by simp only [recordMutation, h])
    simp only [recordMutation, h] at hu
    have := hu.mutationCount
    simp only [hcount] at this
    omega
  · have hadmits := or_iff_right (b := ctx.Admits target mutation s) (not_or.mpr ⟨not_not.mpr hx, hr⟩)
    rw [Refuses, hadmits, Admits, and_iff_right hb]
    cases hundo : mutation.undoEntry with
    | none =>
      simp only [recordMutation, h, hundo]
      exact iff_of_true (by simp) (by simp)
    | some entry =>
      rcases hadd : ctx.undoLogs.add target entry s with ⟨added, log, s'⟩
      have htakes : added = .ok () ↔ ctx.undoLogs.Takes target entry s := by
        rw [← FileBackedUndoLog.add_eq_ok_iff, hadd]
      simp only [recordMutation, h, hundo, addUndoLog, hadd, Option.mem_some_iff, forall_eq', ← htakes]
      cases added with
      | ok u => exact iff_of_true (fun _ h => by cases h) rfl
      | error e =>
        refine iff_of_false (fun hall => ?_) (by simp)
        have hjournal : ctx.mutationJournal.push (ctx.mutationRecord mutation) = ctx.mutationJournal :=
          (hall _ rfl).mutationJournal
        simpa [MutationJournal.push] using congrArg (·.records.length) hjournal

-- A second mutation where one is the limit.
theorem recordMutation_counts_rejected :
    let ctx := ((JournaledContext.new { someContext with maxMutationCount := 1 } 1 1).recordMutation (fun _ => "")
      obedient (someMutation 1) false ()).2.1
    let (result, ctx', _) := ctx.recordMutation (fun _ => "") obedient (someMutation 2) false ()
    result = .error (.transactionBudgetExceeded 2 1) ∧ ¬ctx.Unchanged ctx' := by
  refine ⟨by decide +kernel, fun h => ?_⟩
  exact absurd h.mutationCount (by decide +kernel)

end JournaledContext

end Linkrs
