import Linkrs.Lib.Chunks
import Linkrs.Lib.Transition
import Linkrs.Query.Memory

namespace Linkrs

open List Except

def collectorRunRowsMax : ℕ := 65536

-- Rows are told apart by their texts. A hash set of texts is the list of its members.
inductive SetOperatorKind (Row : Type) where
  | union (seenRows : List String) (leftConsumed : Bool)
  | unionAll (leftConsumed : Bool)
  | intersect (leftRows : List Row) (rightRows : List String)
      (leftBuffered rightBuffered emitted : Bool)
  | except (excludeRows : List String) (rightBuffered : Bool)
  | minus (excludeRows : List String) (rightBuffered : Bool)

inductive SetSpec where
  | union
  | unionAll
  | intersect
  | except
  | minus
  deriving DecidableEq, Repr

structure SetOperator (Row : Type) where
  kind : SetOperatorKind Row
  memoryTracker : MemoryTracker

namespace SetOperator

variable {Row : Type}

def fromSpec (spec : SetSpec) : SetOperator Row where
  kind := match spec with
    | .union => .union [] false
    | .unionAll => .unionAll false
    | .intersect => .intersect [] [] false false false
    | .except => .except [] false
    | .minus => .minus [] false
  memoryTracker := .new

-- The chunks that the two inputs have not delivered yet, with their rows as they are once
-- multiplicities and selections are expanded.
structure Inputs (Row : Type) where
  left : List (List Row)
  right : List (List Row)

section

variable (format : Row → String) (rowMemory : Row → ℕ) (budget : MemoryBudget)

-- The rows of a chunk whose text is new, and the texts that are seen after them.
def keepNew (seen : List String) (tracker : MemoryTracker) :
    List Row → QueryResult (List Row × List String × MemoryTracker)
  | [] => .ok ([], seen, tracker)
  | row :: rows => do
    if format row ∈ seen then
      keepNew seen tracker rows
    else
      let tracker ← tracker.reserve budget (format row).utf8ByteSize
      let (kept, seen, tracker) ← keepNew (format row :: seen) tracker rows
      return (row :: kept, seen, tracker)

-- Takes chunks from one input until one of them has new rows.
def pullNew (seen : List String) (tracker : MemoryTracker) :
    List (List Row) → QueryResult (List Row × List String × MemoryTracker × List (List Row))
  | [] => .ok ([], seen, tracker, [])
  | chunk :: chunks => do
    let (kept, seen, tracker) ← keepNew format budget seen tracker chunk
    if kept.isEmpty then pullNew seen tracker chunks
    else return (kept, seen, tracker, chunks)

def bufferTexts (texts : List String) (tracker : MemoryTracker) (rows : List Row) :
    QueryResult (List String × MemoryTracker) :=
  rows.foldlM (fun (texts, tracker) row => do
    let tracker ← tracker.reserve budget (format row).utf8ByteSize
    return (texts.insert (format row), tracker)) (texts, tracker)

def bufferRows (buffered : List Row) (tracker : MemoryTracker) (rows : List Row) :
    QueryResult (List Row × MemoryTracker) :=
  rows.foldlM (fun (buffered, tracker) row => do
    let tracker ← tracker.reserve budget (rowMemory row)
    return (buffered ++ [row], tracker)) (buffered, tracker)

-- Takes chunks from the left input until one of them has rows that are not excluded.
def pullKept (exclude : List String) : List (List Row) → List Row × List (List Row)
  | [] => ([], [])
  | chunk :: chunks =>
    let kept := chunk.filter (format · ∉ exclude)
    if kept.isEmpty then pullKept exclude chunks else (kept, chunks)

def chunkOf (rows : List Row) : Option (List Row) :=
  if rows.isEmpty then none else some rows

-- The part of a call that reads an input to its end, unless an earlier call has done so.
def readNew (consumed : Bool) (seen : List String) (tracker : MemoryTracker) (chunks : List (List Row)) :
    QueryResult (List Row × List String × MemoryTracker × List (List Row)) :=
  if consumed then .ok ([], seen, tracker, chunks) else pullNew format budget seen tracker chunks

def readTexts (buffered : Bool) (texts : List String) (tracker : MemoryTracker)
    (chunks : List (List Row)) : QueryResult (List String × MemoryTracker × List (List Row)) :=
  if buffered then .ok (texts, tracker, chunks)
  else (bufferTexts format budget texts tracker chunks.flatten).map
    fun (texts, tracker) => (texts, tracker, [])

def readRows (buffered : Bool) (rows : List Row) (tracker : MemoryTracker)
    (chunks : List (List Row)) : QueryResult (List Row × MemoryTracker × List (List Row)) :=
  if buffered then .ok (rows, tracker, chunks)
  else (bufferRows rowMemory budget rows tracker chunks.flatten).map
    fun (rows, tracker) => (rows, tracker, [])

-- `Except` and `Minus` up to their names.
def nextExcluding (make : List String → Bool → SetOperatorKind Row) (exclude : List String)
    (rightBuffered : Bool) (tracker : MemoryTracker) (inputs : Inputs Row) :
    QueryResult (Option (List Row) × SetOperator Row × Inputs Row) := do
  let (exclude, tracker, right) ←
    readTexts format budget rightBuffered exclude tracker inputs.right
  let (rows, left) := pullKept format exclude inputs.left
  return (chunkOf rows, ⟨make exclude true, tracker⟩, ⟨left, right⟩)

def nextUnion (seen : List String) (leftConsumed : Bool) (tracker : MemoryTracker)
    (inputs : Inputs Row) : QueryResult (Option (List Row) × SetOperator Row × Inputs Row) := do
  let (rows, seen, tracker, left) ← readNew format budget leftConsumed seen tracker inputs.left
  if rows.isEmpty then
    let (rows, seen, tracker, right) ← pullNew format budget seen tracker inputs.right
    return (chunkOf rows, ⟨.union seen true, tracker⟩, ⟨left, right⟩)
  else
    return (some rows, ⟨.union seen leftConsumed, tracker⟩, ⟨left, inputs.right⟩)

def nextIntersect (leftRows : List Row) (rightRows : List String)
    (leftBuffered rightBuffered : Bool) (tracker : MemoryTracker) (inputs : Inputs Row) :
    QueryResult (Option (List Row) × SetOperator Row × Inputs Row) := do
  let (leftRows, tracker, left) ←
    readRows rowMemory budget leftBuffered leftRows tracker inputs.left
  let (rightRows, tracker, right) ←
    readTexts format budget rightBuffered rightRows tracker inputs.right
  let rows := leftRows.filter (format · ∈ rightRows)
  return (chunkOf rows, ⟨.intersect leftRows rightRows true true (!rows.isEmpty), tracker⟩, ⟨left, right⟩)

-- After an empty chunk from the left the loop goes on with the right input.
def nextUnionAll (leftConsumed : Bool) (left right : List (List Row)) :
    Option (List Row) × SetOperatorKind Row × Inputs Row :=
  match leftConsumed, left, right with
  | false, (row :: rows) :: left, right => (some (row :: rows), .unionAll false, ⟨left, right⟩)
  | false, [] :: left, (row :: rows) :: right =>
    (some (row :: rows), .unionAll false, ⟨left, right⟩)
  | false, [] :: left, [] :: right => nextUnionAll false left right
  | false, [] :: left, [] => (none, .unionAll false, ⟨left, []⟩)
  | _, left, (row :: rows) :: right => (some (row :: rows), .unionAll true, ⟨left, right⟩)
  | _, left, [] :: right => nextUnionAll true left right
  | _, left, [] => (none, .unionAll true, ⟨left, []⟩)

-- A call that fails ends the query, so what it leaves behind is not told.
def next (op : SetOperator Row) (inputs : Inputs Row) :
    QueryResult (Option (List Row) × SetOperator Row × Inputs Row) :=
  match op.kind with
  | .union seen leftConsumed =>
    nextUnion format budget seen leftConsumed op.memoryTracker inputs
  | .unionAll leftConsumed =>
    let (rows, kind, inputs) := nextUnionAll leftConsumed inputs.left inputs.right
    .ok (rows, ⟨kind, op.memoryTracker⟩, inputs)
  | .intersect leftRows rightRows leftBuffered rightBuffered emitted =>
    if emitted then .ok (none, op, inputs)
    else nextIntersect format rowMemory budget leftRows rightRows leftBuffered rightBuffered
      op.memoryTracker inputs
  | .except exclude rightBuffered =>
    nextExcluding format budget .except exclude rightBuffered op.memoryTracker inputs
  | .minus exclude rightBuffered =>
    nextExcluding format budget .minus exclude rightBuffered op.memoryTracker inputs

end

section

-- Whether a run can be written is up to the environment, by the number of the run.
def writeRuns (write : ℕ → QueryResult Unit) (count : ℕ) : QueryResult Unit :=
  (List.range count).forM write

-- Rows leave the buffer before the run that takes them is written.
def drainRuns (write : ℕ → QueryResult Unit) : ℕ → List (List Row) → QueryResult Unit × List Row
  | _, [] => (.ok (), [])
  | run, _ :: pieces =>
    match write run with
    | .error e => (.error e, pieces.flatten)
    | .ok _ => drainRuns write (run + 1) pieces

-- Nothing reads the runs again.
def spillWithManager (write : ℕ → QueryResult Unit) (op : SetOperator Row) : QueryResult Unit × SetOperator Row :=
  match op.kind with
  | .union seen leftConsumed =>
    match writeRuns write (seen.pieces collectorRunRowsMax).length with
    | .error e => (.error e, op)
    | .ok _ =>
      if seen.isEmpty then (.ok (), op)
      else (.ok (), ⟨.union [] leftConsumed, op.memoryTracker.reset⟩)
  | .intersect leftRows rightRows leftBuffered rightBuffered emitted =>
    match drainRuns write 0 (leftRows.pieces collectorRunRowsMax) with
    | (.error e, leftRows) =>
      (.error e, ⟨.intersect leftRows rightRows leftBuffered rightBuffered emitted, op.memoryTracker⟩)
    | (.ok _, rest) =>
      (.ok (), ⟨.intersect rest [] leftBuffered rightBuffered emitted,
        if leftRows.isEmpty then op.memoryTracker else op.memoryTracker.reset⟩)
  | .except exclude rightBuffered =>
    if exclude.isEmpty then (.ok (), op)
    else (.ok (), ⟨.except [] rightBuffered, op.memoryTracker.reset⟩)
  | .minus exclude rightBuffered =>
    if exclude.isEmpty then (.ok (), op)
    else (.ok (), ⟨.minus [] rightBuffered, op.memoryTracker.reset⟩)
  | .unionAll _ => (.ok (), op)

end

-- A query that takes everything from the operator, and what it has so far.
structure Drain (Row : Type) where
  op : SetOperator Row
  inputs : Inputs Row
  output : List Row
  finished : Bool

inductive Call where
  | next
  | spill (write : ℕ → QueryResult Unit)

namespace Drain

def start (spec : SetSpec) (left right : List (List Row)) : Drain Row :=
  ⟨.fromSpec spec, ⟨left, right⟩, [], false⟩

section

variable (format : Row → String) (rowMemory : Row → ℕ) (budget : MemoryBudget) (d : Drain Row)

-- Nothing follows an error or the end of the output.
def step (call : Call) : Option (Drain Row) :=
  if d.finished then none
  else match call with
    | .next =>
      match d.op.next format rowMemory budget d.inputs with
      | .error _ => none
      | .ok (rows, op, inputs) => some ⟨op, inputs, d.output ++ rows.getD [], rows.isNone⟩
    | .spill write =>
      match d.op.spillWithManager write with
      | (.error _, _) => none
      | (.ok _, op) => some { d with op := op }

def texts : List String :=
  match d.op.kind with
  | .union seen _ => seen
  | .unionAll _ => []
  | .intersect _ rightRows _ _ _ => rightRows
  | .except exclude _ => exclude
  | .minus exclude _ => exclude

-- A spill does no harm if none of the rows to come is known by its text.
def Harmless (d : Drain Row) : Call → Prop
  | .next => True
  | .spill _ => ∀ row ∈ d.inputs.left.flatten ++ d.inputs.right.flatten, format row ∉ d.texts

end
end Drain

section

variable {format : Row → String} {seen seen' : List String} {rows rows' : List Row}

-- The first row for each text that is not seen before.
def fresh (format : Row → String) : List String → List Row → List Row
  | _, [] => []
  | seen, row :: rows =>
    if format row ∈ seen then fresh format seen rows
    else row :: fresh format (format row :: seen) rows

theorem fresh_congr (h : ∀ t, t ∈ seen ↔ t ∈ seen') : fresh format seen rows = fresh format seen' rows := by
  induction rows generalizing seen seen' with
  | nil => rfl
  | cons row rows ind =>
    simp only [fresh, h]
    split
    · exact ind h
    · exact congrArg _ (ind fun t => by simp [h])

theorem fresh_append : fresh format seen (rows ++ rows') =
    fresh format seen rows ++ fresh format (rows.map format ++ seen) rows' := by
  induction rows generalizing seen with
  | nil => rfl
  | cons row rows ind =>
    rw [cons_append, fresh, fresh, map_cons]
    split
    case isTrue hs =>
      rw [ind]
      congr 1
      exact fresh_congr fun t => by
        grind
    case isFalse =>
      rw [ind, cons_append]
      congr 2
      exact fresh_congr fun t => by
        grind

theorem fresh_eq_filter : fresh format (seen' ++ seen) rows =
    (fresh format seen rows).filter (format · ∉ seen') := by
  induction rows generalizing seen with
  | nil => rfl
  | cons row rows ind =>
    by_cases hs : format row ∈ seen
    case pos => simp [fresh, hs, ind]
    case neg =>
      by_cases hs' : format row ∈ seen'
      case pos =>
        simp only [fresh, mem_append, hs', hs, or_false, if_true, if_false,
          filter_cons, not_true, decide_false, Bool.false_eq_true]
        rw [← ind]
        exact fresh_congr fun t => by
          grind
      case neg =>
        simp only [fresh, mem_append, hs', hs, or_false, if_false, filter_cons,
          not_false_eq_true, decide_true, if_true]
        rw [← ind]
        congr 1
        exact fresh_congr fun t => by
          grind

theorem mem_map_fresh : t ∈ (fresh format seen rows).map format ↔ t ∈ rows.map format ∧ t ∉ seen := by
  induction rows generalizing seen with
  | nil => simp [fresh]
  | cons row rows ind =>
    rw [fresh]
    split
    case isTrue hs =>
      grind
    case isFalse hs =>
      grind

end

section

variable {format : Row → String} {rowMemory : Row → ℕ} {budget : MemoryBudget}
variable {seen seen' : List String} {tracker tracker' : MemoryTracker} {rows kept : List Row}
  {chunks rest : List (List Row)}

theorem keepNew_ok (h : keepNew format budget seen tracker rows = .ok (kept, seen', tracker')) :
    kept = fresh format seen rows ∧ ∀ t, t ∈ seen' ↔ t ∈ rows.map format ++ seen := by
  induction rows generalizing seen tracker kept with
  | nil =>
    cases h
    exact ⟨rfl, by simp⟩
  | cons row rows ind =>
    rw [keepNew] at h
    split at h
    case isTrue hs =>
      have ⟨hk, ht⟩ := ind h
      refine ⟨by rw [fresh, if_pos hs, hk], fun t => ?_⟩
      grind
    case isFalse hs =>
      obtain ⟨_, _, h⟩ := bind_eq_ok.mp h
      obtain ⟨⟨kept, seen'', _⟩, hr, h⟩ := bind_eq_ok.mp h
      cases h
      have ⟨hk, ht⟩ := ind hr
      refine ⟨by rw [fresh, if_neg hs, hk], fun t => ?_⟩
      grind

theorem pullNew_ok (h : pullNew format budget seen tracker chunks = .ok (kept, seen', tracker', rest)) :
    ∃ taken, chunks.flatten = taken ++ rest.flatten ∧ kept = fresh format seen taken ∧
      (∀ t, t ∈ seen' ↔ t ∈ taken.map format ++ seen) ∧ (kept = [] → rest = []) := by
  induction chunks generalizing seen tracker with
  | nil =>
    cases h
    exact ⟨[], by simp [fresh]⟩
  | cons chunk chunks ind =>
    obtain ⟨⟨first, seen₁, tracker₁⟩, hr, h⟩ := bind_eq_ok.mp h
    have ⟨hk, ht⟩ := keepNew_ok hr
    dsimp only at h
    split at h
    case isTrue he =>
      obtain ⟨taken, hc, hk', ht', hz⟩ := ind h
      rw [List.isEmpty_iff] at he
      refine ⟨chunk ++ taken, ?_, ?_, fun t => ?_, hz⟩
      · rw [flatten_cons, hc, append_assoc]
      · rw [fresh_append, ← hk, he, nil_append, hk']
        exact fresh_congr ht
      · rw [ht', mem_append, ht, map_append, append_assoc, mem_append, mem_append]
        grind
    case isFalse he =>
      cases h
      refine ⟨chunk, rfl, hk, ht, fun hn => ?_⟩
      exact absurd (List.isEmpty_iff.mpr hn) he

theorem bufferTexts_ok {texts texts' : List String}
    (h : bufferTexts format budget texts tracker rows = .ok (texts', tracker')) (t : String) :
    t ∈ texts' ↔ t ∈ texts ++ rows.map format := by
  rw [bufferTexts] at h
  induction rows generalizing texts tracker with
  | nil =>
    cases h
    simp
  | cons row rows ind =>
    obtain ⟨⟨_, _⟩, hr, h⟩ := bind_eq_ok.mp h
    obtain ⟨_, _, hr⟩ := bind_eq_ok.mp hr
    grind

theorem bufferRows_ok (h : bufferRows rowMemory budget buffered tracker rows = .ok (buffered', tracker')) :
    buffered' = buffered ++ rows := by
  induction rows generalizing buffered tracker with
  | nil =>
    cases h
    simp
  | cons row rows ind =>
    obtain ⟨⟨_, _⟩, hr, h⟩ := bind_eq_ok.mp h
    obtain ⟨_, _, hr⟩ := bind_eq_ok.mp hr
    cases hr
    rw [ind h, append_assoc, singleton_append]

theorem pullKept_eq (h : pullKept format exclude chunks = (kept, rest)) :
    chunks.flatten.filter (format · ∉ exclude) =
      kept ++ rest.flatten.filter (format · ∉ exclude) ∧ (kept = [] → rest = []) := by
  induction chunks with
  | nil =>
    cases h
    simp
  | cons chunk chunks ind =>
    rw [pullKept] at h
    split at h
    case isTrue he =>
      rw [List.isEmpty_iff] at he
      rw [flatten_cons, filter_append, he, nil_append]
      exact ind h
    case isFalse he =>
      cases h
      refine ⟨by rw [flatten_cons, filter_append], fun hn => ?_⟩
      exact absurd (List.isEmpty_iff.mpr hn) he

theorem readNew_ok {consumed : Bool} (hc : consumed → chunks = [])
    (h : readNew format budget consumed seen tracker chunks = .ok (kept, seen', tracker', rest)) :
    ∃ taken, chunks.flatten = taken ++ rest.flatten ∧ kept = fresh format seen taken ∧
      (∀ t, t ∈ seen' ↔ t ∈ taken.map format ++ seen) ∧ (kept = [] → rest = []) := by
  cases consumed with
  | false => exact pullNew_ok h
  | true =>
    cases h
    exact ⟨[], rfl, rfl, by simp, fun _ => hc rfl⟩

theorem readTexts_ok {buffered : Bool} {texts texts' : List String} (hc : buffered → chunks = [])
    (h : readTexts format budget buffered texts tracker chunks = .ok (texts', tracker', rest)) :
    rest = [] ∧ ∀ t, t ∈ texts' ↔ t ∈ texts ++ chunks.flatten.map format := by
  cases buffered with
  | false =>
    obtain ⟨⟨_, _⟩, hb, he⟩ := map_eq_ok.mp h
    cases he
    exact ⟨rfl, bufferTexts_ok hb⟩
  | true =>
    cases h
    rw [hc rfl]
    exact ⟨rfl, by simp⟩

end

namespace Drain

variable {format : Row → String} {rowMemory : Row → ℕ} {budget : MemoryBudget}
variable {d d' : Drain Row} {rows : List Row} {inputs : Inputs Row} {op : SetOperator Row}
  {seen : List String} {write : ℕ → QueryResult Unit}

-- The rows that are still to come if no spill follows.
def owed (format : Row → String) (d : Drain Row) : List Row :=
  let left := d.inputs.left.flatten
  let right := d.inputs.right.flatten
  match d.op.kind with
  | .union seen _ => fresh format seen (left ++ right)
  | .unionAll _ => []
  | .intersect leftRows rightRows _ _ emitted =>
    if emitted then []
    else (leftRows ++ left).filter (format · ∈ rightRows ++ right.map format)
  | .except exclude _ => left.filter (format · ∉ exclude ++ right.map format)
  | .minus exclude _ => left.filter (format · ∉ exclude ++ right.map format)

-- An input that is marked as read has no chunks left, and one that is not has not been touched.
def Marked (d : Drain Row) : Prop :=
  match d.op.kind with
  | .union _ leftConsumed => leftConsumed → d.inputs.left = []
  | .unionAll _ => False
  | .intersect leftRows rightRows leftBuffered rightBuffered emitted =>
    d.finished ∨
    if emitted then d.inputs.left = [] ∧ d.inputs.right = []
    else leftRows = [] ∧ rightRows = [] ∧ leftBuffered = false ∧ rightBuffered = false
  | .except exclude rightBuffered => if rightBuffered then d.inputs.right = [] else exclude = []
  | .minus exclude rightBuffered => if rightBuffered then d.inputs.right = [] else exclude = []

structure Sound (format : Row → String) (d : Drain Row) : Prop where
  marked : d.Marked
  done : d.finished → d.owed format = []

def total (format : Row → String) (d : Drain Row) : Multiset Row :=
  d.output + d.owed format

theorem isNone_chunkOf : (chunkOf rows).isNone ↔ rows = [] := by
  rw [chunkOf]
  split <;> simp_all

theorem getD_chunkOf : (chunkOf rows).getD [] = rows := by
  rw [chunkOf]
  split <;> simp_all

-- What one call takes from the inputs and what it delivers.
structure Advances (format : Row → String) (d d' : Drain Row) (rows : List Row) : Prop where
  marked : d'.Marked
  owed : d.owed format = rows ++ d'.owed format
  output : d'.output = d.output ++ rows
  done : d'.finished → d'.owed format = []

theorem Advances.sound (h : Advances format d d' rows) : d'.Sound format ∧ d'.total format = d.total format := by
  refine ⟨⟨h.marked, h.done⟩, ?_⟩
  rw [total, total, h.output, h.owed, Multiset.coe_add, Multiset.coe_add, append_assoc]

theorem advances_union {rows : Option (List Row)} (hk : d.op.kind = .union seen leftConsumed) (hm : d.Marked)
    (h : nextUnion format budget seen leftConsumed d.op.memoryTracker d.inputs = .ok (rows, op, inputs)) :
    Advances format d ⟨op, inputs, d.output ++ rows.getD [], rows.isNone⟩ (rows.getD []) := by
  have hm : leftConsumed → d.inputs.left = [] := by simpa [Marked, hk] using hm
  obtain ⟨⟨first, seen₁, tracker₁, left₁⟩, hr, h⟩ := bind_eq_ok.mp h
  obtain ⟨taken, hc, hf, ht, hz⟩ := readNew_ok hm hr
  dsimp only at h
  split at h
  case isTrue he =>
    rw [List.isEmpty_iff] at he
    obtain ⟨⟨second, seen₂, tracker₂, right₂⟩, hr₂, h⟩ := bind_eq_ok.mp h
    obtain ⟨taken₂, hc₂, hf₂, ht₂, hz₂⟩ := pullNew_ok hr₂
    cases h
    have hl := hz he
    have ho : d.owed format = second ++ fresh format seen₂ right₂.flatten := by
      simp only [owed, hk, hc, hl, hc₂, flatten_nil, append_nil]
      rw [fresh_append, ← hf, he, nil_append, fresh_append, hf₂, fresh_congr fun t => (ht t).symm]
      exact congrArg _ (fresh_congr fun t => by simp only [ht₂, ht, mem_append])
    refine ⟨fun _ => hl, ?_, rfl, fun hn => ?_⟩
    · simpa [owed, hl, getD_chunkOf] using ho
    · simp [owed, hl, hz₂ (isNone_chunkOf.mp hn), fresh]
  case isFalse he =>
    cases h
    refine ⟨fun hl => ?_, ?_, rfl, nofun⟩
    · subst hl
      cases hr
      exact absurd rfl he
    · simp only [owed, hk, hc, append_assoc, Option.getD_some]
      rw [fresh_append, ← hf]
      exact congrArg _ (fresh_congr fun t => (ht t).symm)

theorem advances_excluding {rows : Option (List Row)} (hmake : make = .except ∨ make = .minus)
    (hk : d.op.kind = make exclude rightBuffered) (hm : d.Marked)
    (h : nextExcluding format budget make exclude rightBuffered d.op.memoryTracker d.inputs =
      .ok (rows, op, inputs)) :
    Advances format d ⟨op, inputs, d.output ++ rows.getD [], rows.isNone⟩ (rows.getD []) := by
  have hm : rightBuffered → d.inputs.right = [] := by
    intro hb
    rcases hmake with rfl | rfl <;> simpa [Marked, hk, hb] using hm
  have ho : d.owed format =
      d.inputs.left.flatten.filter (format · ∉ exclude ++ d.inputs.right.flatten.map format) := by
    rcases hmake with rfl | rfl <;> simp only [owed, hk]
  obtain ⟨⟨texts, tracker, right⟩, hr, h⟩ := bind_eq_ok.mp h
  obtain ⟨hright, ht⟩ := readTexts_ok hm hr
  simp only [← ht] at ho
  dsimp only at h
  cases hp : pullKept format texts d.inputs.left with
  | mk kept left =>
    have ⟨hkept, hz⟩ := pullKept_eq hp
    rw [hp] at h
    cases h
    have ho' (output : List Row) (finished : Bool) :
        owed format ⟨⟨make texts true, tracker⟩, ⟨left, right⟩, output, finished⟩ =
          left.flatten.filter (format · ∉ texts) := by
      rcases hmake with rfl | rfl <;> simp [owed, hright]
    refine ⟨?_, ?_, rfl, fun hn => ?_⟩
    · rcases hmake with rfl | rfl <;> simpa [Marked] using hright
    · rw [ho, hkept, getD_chunkOf, ho']
    · rw [ho', hz (isNone_chunkOf.mp hn)]
      rfl

theorem advances_intersect {rows : Option (List Row)}
    (hk : d.op.kind = .intersect leftRows rightRows leftBuffered rightBuffered emitted)
    (hm : d.Marked) (hf : d.finished = false)
    (h : (if emitted then .ok (none, d.op, d.inputs)
      else nextIntersect format rowMemory budget leftRows rightRows leftBuffered rightBuffered
        d.op.memoryTracker d.inputs) = .ok (rows, op, inputs)) :
    Advances format d ⟨op, inputs, d.output ++ rows.getD [], rows.isNone⟩ (rows.getD []) := by
  simp only [Marked, hk, hf, Bool.false_eq_true, false_or] at hm
  cases hem : emitted
  case true =>
    rw [hem] at h hk
    cases h
    refine ⟨?_, ?_, rfl, fun _ => ?_⟩
    · simp [Marked, hk]
    · simp [owed, hk]
    · simp [owed, hk]
  case false =>
    rw [hem] at h hm hk
    obtain ⟨rfl, rfl, rfl, rfl⟩ := hm
    obtain ⟨⟨left, tracker₁, rest⟩, hl, h⟩ := bind_eq_ok.mp h
    obtain ⟨⟨_, _⟩, hb, he⟩ := map_eq_ok.mp hl
    cases he
    obtain ⟨⟨right, tracker₂, rest₂⟩, hr, h⟩ := bind_eq_ok.mp h
    obtain ⟨rfl, ht⟩ := readTexts_ok (fun hb => absurd hb Bool.false_ne_true) hr
    have hleft := bufferRows_ok hb
    cases h
    have ho : d.owed format = left.filter (format · ∈ right) := by
      simp only [owed, hk, ht, hleft, Bool.false_eq_true, if_false]
    by_cases hn : left.filter (format · ∈ right) = []
    case pos =>
      rw [hn] at ho ⊢
      refine ⟨.inl rfl, ?_, rfl, fun _ => ?_⟩
      · rw [ho]
        simpa [owed, chunkOf] using hn
      · simpa [owed] using hn
    case neg =>
      have he : (left.filter (format · ∈ right)).isEmpty = false := by simpa using hn
      rw [he]
      refine ⟨.inr ⟨rfl, rfl⟩, ?_, rfl, fun _ => rfl⟩
      rw [ho, getD_chunkOf]
      exact (append_nil _).symm

-- No call but a spill changes what the query gets in the end.
theorem next_keeps (hs : d.Sound format) (h : d.step format rowMemory budget .next = some d') :
    d'.Sound format ∧ d'.total format = d.total format := by
  rw [step] at h
  split at h
  case isTrue => cases h
  case isFalse hf =>
    split at h
    case h_1 => cases h
    case h_2 rows op inputs hn =>
      cases h
      rw [next] at hn
      split at hn
      case h_1 hk => exact (advances_union hk hs.marked hn).sound
      case h_2 hk =>
        have := hs.marked
        simp [Marked, hk] at this
      case h_3 hk => exact (advances_intersect hk hs.marked (by simpa using hf) hn).sound
      case h_4 hk => exact (advances_excluding (.inl rfl) hk hs.marked hn).sound
      case h_5 hk => exact (advances_excluding (.inr rfl) hk hs.marked hn).sound

def forget : SetOperatorKind Row → SetOperatorKind Row
  | .union _ leftConsumed => .union [] leftConsumed
  | .unionAll leftConsumed => .unionAll leftConsumed
  | .intersect _ _ leftBuffered rightBuffered emitted =>
    .intersect [] [] leftBuffered rightBuffered emitted
  | .except _ rightBuffered => .except [] rightBuffered
  | .minus _ rightBuffered => .minus [] rightBuffered

theorem drainRuns_ok {pieces : List (List Row)} (h : drainRuns write run pieces = (.ok u, rest)) : rest = [] := by
  induction pieces generalizing run with
  | nil => cases h; rfl
  | cons _ pieces ind =>
    rw [drainRuns] at h
    split at h
    case h_1 => cases h
    case h_2 => exact ind h

theorem spillWithManager_ok {op op' : SetOperator Row}
    (h : op.spillWithManager write = (.ok u, op')) : op'.kind = forget op.kind := by
  rw [spillWithManager] at h
  split at h
  case h_1 seen leftConsumed hk =>
    split at h
    case h_1 => cases h
    case h_2 =>
      split at h
      case isTrue he =>
        cases h
        rw [hk, List.isEmpty_iff.mp he]
        rfl
      case isFalse =>
        cases h
        rw [hk]
        rfl
  case h_2 hk =>
    split at h
    case h_1 => cases h
    case h_2 hd =>
      cases h
      rw [hk, drainRuns_ok hd]
      rfl
  case h_5 hk =>
    cases h
    rw [hk]
    rfl
  all_goals
    rename_i exclude rightBuffered hk
    split at h
    case isTrue he =>
      cases h
      rw [hk, List.isEmpty_iff.mp he]
      rfl
    case isFalse =>
      cases h
      rw [hk]
      rfl

theorem spill_step (h : d.step format rowMemory budget (.spill write) = some d') :
    d.finished = false ∧ d'.op.kind = forget d.op.kind ∧ d' = { d with op := d'.op } := by
  rw [step] at h
  split at h
  case isTrue => cases h
  case isFalse hf =>
    split at h
    case h_1 => cases h
    case h_2 hs =>
      cases h
      exact ⟨by simpa using hf, spillWithManager_ok hs, rfl⟩

theorem coe_filter_eq_iff : (rows : Multiset Row) = rows.filter p ↔ ∀ row ∈ rows, p row := by
  rw [Multiset.coe_eq_coe, ← length_filter_eq_length_iff]
  constructor
  · exact fun h => h.length_eq.symm
  · exact fun h => .of_eq (filter_eq_self.mpr (length_filter_eq_length_iff.mp h)).symm

theorem fresh_forget : fresh format seen rows = (fresh format [] rows).filter (format · ∉ seen) := by
  rw [← fresh_eq_filter, append_nil]

theorem forall_fresh_iff :
    (∀ row ∈ fresh format [] rows, format row ∉ seen) ↔ ∀ row ∈ rows, format row ∉ seen := by
  have hm (t : String) : t ∈ (fresh format [] rows).map format ↔ t ∈ rows.map format := by
    rw [mem_map_fresh]
    simp
  constructor
  · intro h row hr
    obtain ⟨row', hr', he⟩ := mem_map.mp ((hm _).mpr (mem_map_of_mem hr))
    exact he ▸ h row' hr'
  · intro h row hr
    obtain ⟨row', hr', he⟩ := mem_map.mp ((hm _).mp (mem_map_of_mem hr))
    exact he ▸ h row' hr'

-- The rows to come after a spill, of which those before it are the ones that pass `p`. The spill
-- does no harm iff all of them pass.
def Forgets (format : Row → String) (d : Drain Row) (rows : List Row) : Prop :=
  ∃ p : Row → Bool, d.owed format = rows.filter p ∧
    ((∀ row ∈ rows, p row) ↔ ∀ row ∈ d.inputs.left.flatten ++ d.inputs.right.flatten, format row ∉ d.texts)

theorem forgets_union (hd : d.op.kind = .union seen leftConsumed) (hk : op.kind = forget d.op.kind) :
    Forgets format d (owed format { d with op := op }) := by
  refine ⟨(format · ∉ seen), ?_, ?_⟩
  · simp only [owed, hd, hk, forget]
    exact fresh_forget
  · simp only [owed, hk, forget, texts, hd, decide_eq_true_eq]
    exact forall_fresh_iff

theorem forgets_intersect (hm : d.Marked) (hf : d.finished = false)
    (hd : d.op.kind = .intersect leftRows rightRows leftBuffered rightBuffered emitted)
    (hk : op.kind = forget d.op.kind) :
    Forgets format d (owed format { d with op := op }) := by
  simp only [Marked, hd, hf, Bool.false_eq_true, false_or] at hm
  cases emitted with
  | true =>
    obtain ⟨hl, hr⟩ := hm
    refine ⟨fun _ => true, ?_, ?_⟩
    · simp [owed, hd, hk, forget]
    · simp [hl, hr]
  | false =>
    obtain ⟨rfl, rfl, -⟩ := hm
    refine ⟨fun _ => true, ?_, ?_⟩
    · rw [filter_true]
      simp only [owed, hk, forget, hd]
    · simp [texts, hd]

theorem forgets_excluding {make : List String → Bool → SetOperatorKind Row}
    (hmake : make = .except ∨ make = .minus) (hm : d.Marked)
    (hd : d.op.kind = make exclude rightBuffered) (hk : op.kind = forget d.op.kind) :
    Forgets format d (owed format { d with op := op }) := by
  have ho : d.owed format =
      d.inputs.left.flatten.filter (format · ∉ exclude ++ d.inputs.right.flatten.map format) := by
    rcases hmake with rfl | rfl <;> simp only [owed, hd]
  have ho' : owed format { d with op := op } =
      d.inputs.left.flatten.filter (format · ∉ d.inputs.right.flatten.map format) := by
    rcases hmake with rfl | rfl <;> simp only [owed, hk, hd, forget, nil_append]
  have ht : d.texts = exclude := by
    rcases hmake with rfl | rfl <;> simp only [texts, hd]
  have hm : if rightBuffered then d.inputs.right = [] else exclude = [] := by
    rcases hmake with rfl | rfl <;> simpa only [Marked, hd] using hm
  refine ⟨(format · ∉ exclude), ?_, ?_⟩
  · rw [ho, ho', filter_filter]
    simp only [mem_append, not_or, Bool.decide_and]
  · rw [ho', ht]
    cases rightBuffered with
    | true => simp [show d.inputs.right = [] from hm]
    | false => simp [show exclude = [] from hm]

-- A spill can only add to the rows to come, and adds none iff it does no harm.
theorem forgets (hm : d.Marked) (hf : d.finished = false)
    (hk : op.kind = forget d.op.kind) : Forgets format d (owed format { d with op := op }) := by
  cases hd : d.op.kind with
  | union => exact forgets_union hd hk
  | unionAll _ => simp [Marked, hd] at hm
  | intersect => exact forgets_intersect hm hf hd hk
  | except => exact forgets_excluding (.inl rfl) hm hd hk
  | minus => exact forgets_excluding (.inr rfl) hm hd hk

theorem marked_forget (hm : d.Marked) (hk : op.kind = forget d.op.kind) :
    Marked { d with op := op } := by
  cases hd : d.op.kind <;> rw [hd] at hk <;>
    simp only [Marked, hd, hk, forget] at hm ⊢ <;> grind

theorem spill_raises (hs : d.Sound format) (h : d.step format rowMemory budget (.spill write) = some d') :
    d'.Sound format ∧ d.total format ≤ d'.total format ∧
      (d'.total format = d.total format ↔ d.Harmless format (.spill write)) := by
  obtain ⟨hf, hk, he⟩ := spill_step h
  obtain ⟨p, ho, hp⟩ : Forgets format d _ := forgets hs.marked hf hk
  rw [← he] at ho hp
  have hout : d'.output = d.output := by rw [he]
  have hfin : d'.finished = false := by rw [he, hf]
  refine ⟨⟨he ▸ marked_forget hs.marked hk, by simp [hfin]⟩, ?_, ?_⟩
  · rw [total, total, hout, ho]
    exact add_le_add_right (Multiset.coe_le.mpr filter_sublist.subperm) _
  · rw [total, total, hout, ho, add_right_inj]
    exact coe_filter_eq_iff.trans hp

theorem step_raises (hs : d.Sound format) (h : d.step format rowMemory budget call = some d') :
    d'.Sound format ∧ d.total format ≤ d'.total format ∧
      (d'.total format = d.total format ↔ d.Harmless format call) := by
  cases call with
  | spill write => exact spill_raises hs h
  | next =>
    have ⟨hs', he⟩ := next_keeps hs h
    exact ⟨hs', he.ge, iff_of_true he trivial⟩

theorem sound_start (hs : spec ≠ .unionAll) (left right : List (List Row)) :
    (start spec left right).Sound format := by
  refine ⟨?_, nofun⟩
  cases spec with
  | unionAll => exact absurd rfl hs
  | _ => simp [Marked, start, fromSpec]

theorem total_of_finished (hs : d.Sound format) (hf : d.finished) :
    d.total format = (d.output : Multiset Row) := by
  rw [total, hs.done hf, Multiset.coe_nil, add_zero]

-- Whatever is spilled on the way, the rows are those of the undisturbed query iff no spill forgets
-- a text that is asked for again.
theorem spill_keeps_output_iff {spec : SetSpec} (hs : spec ≠ .unionAll)
    {left right : List (List Row)} {budget₀ : MemoryBudget} {calls : List Call} {n : ℕ} {d₀ : Drain Row}
    (r : Transition.FreeRun (step format rowMemory budget) (start spec left right) calls d)
    (hf : d.finished) (r₀ : Transition.FreeRun (step format rowMemory budget₀) (start spec left right)
      (List.replicate n .next) d₀) (hf₀ : d₀.finished) : (d.output : Multiset Row) = d₀.output ↔
      Transition.Run (step format rowMemory budget) (Harmless format) (start spec left right) calls d := by
  have h : (start spec left right).Sound format := sound_start hs left right
  have hd := r.invariant (fun hs _ he => (step_raises hs he).1) h
  have hd₀ := r₀.invariant (fun hs _ he => (step_raises hs he).1) h
  have hr₀ : Transition.Run (step format rowMemory budget₀) (Harmless format)
      (start spec left right) (List.replicate n .next) d₀ :=
    r₀.of_forall fun call hc _ => eq_of_mem_replicate hc ▸ trivial
  have hk₀ := (r₀.measure_eq_iff step_raises h).mpr hr₀
  rw [← r.measure_eq_iff step_raises h, ← hk₀, total_of_finished hd hf, total_of_finished hd₀ hf₀]

-- A budget and a disk that never refuse.
def granted : MemoryBudget :=
  fun _ _ => .ok ()

def written (_ : ℕ) : QueryResult Unit :=
  .ok ()

-- The check of a spill by evaluation.
def harmless (format : Row → String) (d : Drain Row) : Call → Bool
  | .next => true
  | .spill _ =>
    (d.inputs.left.flatten ++ d.inputs.right.flatten).all fun row => format row ∉ d.texts

theorem harmless_sound (d : Drain Row) (call : Call) (h : d.harmless format call) : d.Harmless format call := by
  cases call with
  | next => trivial
  | spill _ => simpa only [harmless, Harmless, all_eq_true, decide_eq_true_eq] using h

-- Rows are given by their texts here and in the next result.
theorem spill_keeps_output_distinct : ∃ d d₀ : Drain String,
    Transition.FreeRun (step id (fun _ => 32) granted)
      (start .union [["[Int(1)]"], ["[Int(2)]"]] []) [.next, .spill written, .next, .next] d ∧
    Transition.FreeRun (step id (fun _ => 32) granted)
      (start .union [["[Int(1)]"], ["[Int(2)]"]] []) (List.replicate 3 .next) d₀ ∧
    d.finished = true ∧ d₀.finished = true ∧ (d.output : Multiset String) = d₀.output := by
  obtain ⟨d, r, hd⟩ := Transition.Run.exists_of_checked (step id (fun _ => 32) granted)
    (start .union [["[Int(1)]"], ["[Int(2)]"]] []) [.next, .spill written, .next, .next]
    (·.finished) (g := harmless id) harmless_sound (by decide +kernel)
  obtain ⟨d₀, r₀, hd₀⟩ := Transition.Run.exists_of_any (step id (fun _ => 32) granted)
    (start .union [["[Int(1)]"], ["[Int(2)]"]] []) (List.replicate 3 .next)
    (·.finished) (by decide +kernel)
  have rf := r.mono fun _ _ _ => trivial
  exact ⟨d, d₀, rf, r₀, hd, hd₀, (spill_keeps_output_iff (by decide) rf hd r₀ hd₀).mpr r⟩

-- The same row comes in two chunks of the left input, and the spill between them lets it pass twice.
theorem spill_repeats_row : ∃ d d₀ : Drain String,
    Transition.FreeRun (step id (fun _ => 32) granted)
      (start .union [["[Int(1)]"], ["[Int(1)]"]] []) [.next, .spill written, .next, .next] d ∧
    Transition.FreeRun (step id (fun _ => 32) granted)
      (start .union [["[Int(1)]"], ["[Int(1)]"]] []) [.next, .next] d₀ ∧
    d.finished = true ∧ d₀.finished = true ∧ (d.output : Multiset String) ≠ d₀.output := by
  obtain ⟨d, r, hd⟩ := Transition.Run.exists_of_any (step id (fun _ => 32) granted)
    (start .union [["[Int(1)]"], ["[Int(1)]"]] []) [.next, .spill written, .next, .next]
    (fun d => d.finished && d.output = ["[Int(1)]", "[Int(1)]"]) (by decide +kernel)
  obtain ⟨d₀, r₀, hd₀⟩ := Transition.Run.exists_of_any (step id (fun _ => 32) granted)
    (start .union [["[Int(1)]"], ["[Int(1)]"]] []) [.next, .next]
    (fun d => d.finished && d.output = ["[Int(1)]"]) (by decide +kernel)
  simp only [Bool.and_eq_true, decide_eq_true_eq] at hd hd₀
  refine ⟨d, d₀, r, r₀, hd.1, hd₀.1, ?_⟩
  rw [hd.2, hd₀.2]
  decide

end Drain
end SetOperator
end Linkrs
