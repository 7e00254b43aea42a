import Mathlib.Data.Finmap

-- Tables whose entries are set one at a time, and journals of what the entries were before.
namespace EntryJournal

abbrev Table (κ β : Type) := Finmap fun _ : κ => β

section

variable {κ β : Type} [DecidableEq κ]

-- The entry of a key is put into the table, or it is taken out.
def setEntry (m : Table κ β) (k : κ) : Option β → Table κ β
  | none => m.erase k
  | some b => m.insert k b

variable {m : Table κ β} {k k' : κ} {e : Option β}

@[simp]
theorem lookup_setEntry : (setEntry m k e).lookup k = e := by
  cases e with
  | none => exact Finmap.lookup_erase k m
  | some b => exact Finmap.lookup_insert m

theorem lookup_setEntry_of_ne (h : k' ≠ k) : (setEntry m k e).lookup k' = m.lookup k' := by
  cases e with
  | none => exact Finmap.lookup_erase_ne h
  | some b => exact Finmap.lookup_insert_of_ne m h

theorem setEntry_lookup : setEntry (setEntry m k e) k (m.lookup k) = m := by
  refine Finmap.ext_lookup fun k' => ?_
  by_cases h : k' = k
  · rw [h, lookup_setEntry]
  · rw [lookup_setEntry_of_ne h, lookup_setEntry_of_ne h]

def setMember (s : Finset κ) (k : κ) (present : Bool) : Finset κ :=
  if present then insert k s else s.erase k

variable {s : Finset κ} {present : Bool}

@[simp]
theorem mem_setMember : k ∈ setMember s k present ↔ present := by
  cases present <;> simp [setMember]

theorem mem_setMember_of_ne (h : k' ≠ k) : k' ∈ setMember s k present ↔ k' ∈ s := by
  cases present <;> simp [setMember, h]

theorem setMember_mem : setMember (setMember s k present) k (k ∈ s) = s := by
  refine Finset.ext fun k' => ?_
  by_cases h : k' = k
  · rw [h, mem_setMember, decide_eq_true_iff]
  · rw [mem_setMember_of_ne h, mem_setMember_of_ne h]

end

section

variable {S O : Type} (undo : S → O → S)

-- The newest change is the last one of the journal, and it is undone first.
def rewind (s : S) (ops : List O) : S :=
  ops.foldr (fun op s => undo s op) s

theorem rewind_append (s : S) (ops ops' : List O) :
    rewind undo s (ops ++ ops') = rewind undo (rewind undo s ops') ops :=
  List.foldr_append

end

end EntryJournal
