import Linkrs.Lib.Ieee
import Linkrs.Lib.Bytes
import Mathlib.Data.List.Sort

namespace Linkrs

inductive NullType where
  | null
  | nan
  | badData
  | badType
  | errOverflow
  | unknownProp
  | divByZero
  | outOfRange
  deriving DecidableEq, Repr

-- Maps, dates, vertices, edges, paths, geographies, vectors, data sets, JSON, UUIDs, intervals, ids
-- and decimals: the modelled code compares, hashes and stores them but never looks into them. They
-- are one type here, with what is asked of them. Their equality is not reflexive, since a geography
-- may hold a NaN and a JSON text may be malformed, and transitive only among contents that hash
-- alike, since maps may hold numbers of different formats.
class Foreign (α : Type) where
  eq : α → α → Bool
  cmp : α → α → Ordering
  priority : α → ℕ
  feed : α → List ℤ
  postcard : α → List UInt8
  eq_comm : ∀ a b, eq a b = eq b a
  eq_trans : ∀ {a b c}, feed a = feed b → feed b = feed c → eq a b → eq b c → eq a c

instance : Foreign Empty where
  eq _ _ := true
  cmp _ _ := .eq
  priority _ := 0
  feed _ := []
  postcard _ := []
  eq_comm _ _ := rfl
  eq_trans _ _ := fun _ _ => rfl

-- The variants of `Value` that hold no other values. Floating-point numbers are given by their bits.
inductive Scalar (α : Type) where
  | empty
  | null (type : NullType)
  | bool (b : Bool)
  | smallInt (i : Int16)
  | int (i : Int32)
  | bigInt (i : Int64)
  | float (bits : UInt32)
  | double (bits : UInt64)
  | string (s : String)
  | fixedString (s : String)
  | blob (bytes : List UInt8)
  | other (content : α)
  deriving DecidableEq, Repr

-- A set lists its elements in the order in which they are iterated.
inductive Value (α : Type) where
  | scalar (s : Scalar α)
  | list (values : List (Value α))
  | set (values : List (Value α))
  | struct (fields : List (String × Value α))
  | array (values : List (Value α))
  deriving Repr

inductive Number where
  | int (i : ℤ)
  | float (bits : UInt32)
  | double (bits : UInt64)

namespace Number

open Ieee

-- Integers of different widths are compared as `i64`.
def eq : Number → Number → Bool
  | int a, int b => a == b
  | float a, float b => binary32.same a.toNat b.toNat
  | double a, double b => binary64.same a.toNat b.toNat
  | int a, float b => binary32.eq (binary32.ofInt a) b.toNat
  | float a, int b => binary32.eq a.toNat (binary32.ofInt b)
  | int a, double b => binary64.eq (binary64.ofInt a) b.toNat
  | double a, int b => binary64.eq a.toNat (binary64.ofInt b)
  | float a, double b => binary64.eq (widen a.toNat) b.toNat
  | double a, float b => binary64.eq a.toNat (widen b.toNat)

-- Between numbers of one floating-point format NaN comes first.
def cmpFloat (f : Format) (a b : ℕ) : Ordering :=
  if f.isNaN a && f.isNaN b then .eq
  else if f.isNaN a then .lt
  else if f.isNaN b then .gt
  else (f.partialCmp a b).getD .eq

def cmp : Number → Number → Ordering
  | int a, int b => compare a b
  | float a, float b => cmpFloat binary32 a.toNat b.toNat
  | double a, double b => cmpFloat binary64 a.toNat b.toNat
  | int a, float b => (binary32.partialCmp (binary32.ofInt a) b.toNat).getD .eq
  | float a, int b => (binary32.partialCmp a.toNat (binary32.ofInt b)).getD .eq
  | int a, double b => (binary64.partialCmp (binary64.ofInt a) b.toNat).getD .eq
  | double a, int b => (binary64.partialCmp a.toNat (binary64.ofInt b)).getD .eq
  | float a, double b => (binary64.partialCmp (widen a.toNat) b.toNat).getD .eq
  | double a, float b => (binary64.partialCmp a.toNat (widen b.toNat)).getD .eq

theorem eq_comm (a b : Number) : a.eq b = b.eq a := by
  cases a <;> cases b <;> simp only [eq, Format.same_comm, Format.eq_comm]
  case int.int a b => exact Bool.beq_comm

end Number

namespace NullType

def priority : NullType → ℕ
  | null => 0
  | nan => 1
  | badData => 2
  | badType => 2
  | errOverflow => 3
  | unknownProp => 4
  | divByZero => 5
  | outOfRange => 6

def index : NullType → ℕ
  | null => 0
  | nan => 1
  | badData => 2
  | badType => 3
  | errOverflow => 4
  | unknownProp => 5
  | divByZero => 6
  | outOfRange => 7

end NullType

namespace Scalar

variable {α : Type} [Foreign α]

def number? : Scalar α → Option Number
  | smallInt i => some (.int i.toInt)
  | int i => some (.int i.toInt)
  | bigInt i => some (.int i.toInt)
  | float bits => some (.float bits)
  | double bits => some (.double bits)
  | _ => none

def priority : Scalar α → ℕ
  | empty => 0
  | null _ => 1
  | bool _ => 2
  | smallInt _ => 3
  | int _ => 4
  | bigInt _ => 5
  | float _ => 6
  | double _ => 7
  | string _ => 12
  | fixedString _ => 13
  | blob _ => 14
  | other content => Foreign.priority content

def eq : Scalar α → Scalar α → Bool
  | empty, empty => true
  | null a, null b => a == b
  | bool a, bool b => a == b
  | string a, string b => a == b
  | fixedString a, fixedString b => a == b
  | blob a, blob b => a == b
  | other a, other b => Foreign.eq a b
  | a, b =>
    match a.number?, b.number? with
    | some m, some n => m.eq n
    | _, _ => false

def cmp : Scalar α → Scalar α → Ordering
  | empty, empty => .eq
  | null a, null b => compare a.priority b.priority
  | bool a, bool b => compare a b
  | string a, string b => compare a b
  | fixedString a, fixedString b => compare a b
  | blob a, blob b => compare a b
  | other a, other b => Foreign.cmp a b
  | a, b =>
    match a.number?, b.number? with
    | some m, some n => m.cmp n
    | _, _ => compare a.priority b.priority

-- NaNs hash alike, and so do the two zeros.
def feedFloat (f : Ieee.Format) (nan : ℕ) (bits : ℕ) : ℕ :=
  if f.isNaN bits then nan else if f.key bits = 0 then 0 else bits

def feed : Scalar α → List ℤ
  | empty => [0]
  | null type => [1, type.index]
  | bool b => [2, b.toNat]
  | smallInt i => [3, i.toInt]
  | int i => [4, i.toInt]
  | bigInt i => [5, i.toInt]
  | float bits => [6, feedFloat Ieee.binary32 0x7fc00000 bits.toNat]
  | double bits => [7, feedFloat Ieee.binary64 0x7ff8000000000000 bits.toNat]
  | string s => 9 :: s.toList.map (·.toNat)
  | fixedString s => 10 :: s.toList.map (·.toNat)
  | blob bytes => 11 :: bytes.map (·.toNat)
  | other content => -1 :: Foreign.feed content

theorem eq_comm (a b : Scalar α) : a.eq b = b.eq a := by
  cases a <;> cases b <;> simp only [eq, number?, Number.eq_comm, Foreign.eq_comm]
  all_goals exact Bool.beq_comm

-- What is equal and hashes alike is of one variant, and there equality is transitive.
theorem eq_trans {a b c : Scalar α} (hab : a.feed = b.feed) (hbc : b.feed = c.feed)
    (h : a.eq b) (h' : b.eq c) : a.eq c := by
  cases a <;> cases b <;> simp [feed] at hab <;> cases c <;> simp [feed] at hbc
  case other.other.other => exact Foreign.eq_trans hab hbc h h'
  case float.float.float => exact Ieee.binary32.same_trans h h'
  case double.double.double => exact Ieee.binary64.same_trans h h'
  all_goals simp_all [eq, number?, Number.eq]

end Scalar

-- What a value writes to a hasher. The lengths it writes make of the bytes a tree; two trees that
-- differ are taken to hash differently.
inductive Feed where
  | leaf (content : List ℤ)
  | nil
  | cons (head rest : Feed)
  deriving DecidableEq, Repr

namespace Feed

def node (tag : ℤ) : List Feed → Feed
  | [] => leaf [tag]
  | part :: parts => cons part (node tag parts)

theorem node_inj : node tag fs = node tag' gs ↔ tag = tag' ∧ fs = gs := by
  induction fs generalizing gs with
  | nil => cases gs <;> simp [node]
  | cons f fs ind => cases gs <;> simp [node, ind, and_left_comm]

end Feed

namespace Value

variable {α : Type}

@[match_pattern] abbrev empty : Value α := scalar .empty
@[match_pattern] abbrev null (type : NullType) : Value α := scalar (.null type)
@[match_pattern] abbrev bool (b : Bool) : Value α := scalar (.bool b)
@[match_pattern] abbrev smallInt (i : Int16) : Value α := scalar (.smallInt i)
@[match_pattern] abbrev int (i : Int32) : Value α := scalar (.int i)
@[match_pattern] abbrev bigInt (i : Int64) : Value α := scalar (.bigInt i)
@[match_pattern] abbrev float (bits : UInt32) : Value α := scalar (.float bits)
@[match_pattern] abbrev double (bits : UInt64) : Value α := scalar (.double bits)
@[match_pattern] abbrev string (s : String) : Value α := scalar (.string s)

def isNull : Value α → Bool
  | null _ => true
  | _ => false

mutual
def height : Value α → ℕ
  | scalar _ => 0
  | list values => heights values + 1
  | set values => heights values + 1
  | struct fields => fieldHeights fields + 1
  | array values => heights values + 1

def heights : List (Value α) → ℕ
  | [] => 0
  | v :: values => max v.height (heights values)

def fieldHeights : List (String × Value α) → ℕ
  | [] => 0
  | (_, v) :: fields => max v.height (fieldHeights fields)
end

variable [Foreign α]

def priority : Value α → ℕ
  | scalar s => s.priority
  | list _ => 18
  | set _ => 20
  | struct _ => 30
  | array _ => 31

-- The first difference of two sequences, as far as both go.
def cmpZip {β : Type} (cmp : β → β → Ordering) (xs ys : List β) : Ordering :=
  (xs.zip ys).foldl (fun acc (x, y) => acc.then (cmp x y)) .eq

def sorted {β : Type} (cmp : β → β → Ordering) (xs : List β) : List β :=
  xs.insertionSort fun x y => cmp x y ≠ .gt

-- The order of the values nested to a given depth.
def cmpTo : ℕ → Value α → Value α → Ordering
  | 0, scalar a, scalar b => a.cmp b
  | 0, a, b => compare a.priority b.priority
  | _ + 1, scalar a, scalar b => a.cmp b
  | n + 1, list as, list bs => (compare as.length bs.length).then (cmpZip (cmpTo n) as bs)
  | n + 1, set as, set bs =>
    (compare as.length bs.length).then (cmpZip (cmpTo n) (sorted (cmpTo n) as) (sorted (cmpTo n) bs))
  | n + 1, struct as, struct bs =>
    let cmp := fun (p q : String × Value α) => (compare p.1 q.1).then (cmpTo n p.2 q.2)
    (compare as.length bs.length).then (cmpZip cmp as bs)
  | n + 1, array as, array bs => (cmpZip (cmpTo n) as bs).then (compare as.length bs.length)
  | _ + 1, a, b => compare a.priority b.priority

def cmp (a b : Value α) : Ordering :=
  cmpTo (max a.height b.height) a b

-- The elements of a set are hashed in their order.
mutual
def feed : Value α → Feed
  | scalar s => .leaf s.feed
  | list values => .node 18 ((feeds values).map (·.2))
  | set values => .node 20 ((sorted (fun p q => cmp p.1 q.1) (feeds values)).map (·.2))
  | struct fields => .node 30 (fieldFeeds fields)
  | array values => .node 31 ((feeds values).map (·.2))

def feeds : List (Value α) → List (Value α × Feed)
  | [] => []
  | v :: values => (v, v.feed) :: feeds values

def fieldFeeds : List (String × Value α) → List Feed
  | [] => []
  | (name, v) :: fields => .leaf (name.toList.map (·.toNat)) :: v.feed :: fieldFeeds fields
end

-- Sets are equal when each element of one is found in the other.
mutual
def eq : Value α → Value α → Bool
  | scalar a, scalar b => a.eq b
  | list as, list bs => eqAll as bs
  | set as, set bs => allIn as bs && bs.all (oneOf as)
  | struct as, struct bs => eqFields as bs
  | array as, array bs => eqAll as bs
  | _, _ => false

def eqAll : List (Value α) → List (Value α) → Bool
  | [], [] => true
  | a :: as, b :: bs => eq a b && eqAll as bs
  | _, _ => false

def eqFields : List (String × Value α) → List (String × Value α) → Bool
  | [], [] => true
  | (n, a) :: as, (m, b) :: bs => n == m && eq a b && eqFields as bs
  | _, _ => false

def allIn : List (Value α) → List (Value α) → Bool
  | [], _ => true
  | a :: as, bs => bs.any (fun b => a.feed == b.feed && eq a b) && allIn as bs

def oneOf : List (Value α) → Value α → Bool
  | [], _ => false
  | a :: as, b => (a.feed == b.feed && eq a b) || oneOf as b
end

-- Whether a hash table takes two values for one.
def same (a b : Value α) : Bool :=
  a.feed == b.feed && a.eq b

theorem same_iff {a b : Value α} : a.same b ↔ a.feed = b.feed ∧ a.eq b := by
  simp [same]

omit [Foreign α] in
-- Induction on a value, with the hypothesis for each value inside it.
theorem induction {motive : Value α → Prop} (scalar : ∀ s, motive (.scalar s))
    (list : ∀ vs, (∀ v ∈ vs, motive v) → motive (.list vs)) (set : ∀ vs, (∀ v ∈ vs, motive v) → motive (.set vs))
    (struct : ∀ fs, (∀ f ∈ fs, motive f.2) → motive (.struct fs))
    (array : ∀ vs, (∀ v ∈ vs, motive v) → motive (.array vs)) (v : Value α) : motive v := by
  refine @Value.rec α motive (fun vs => ∀ v ∈ vs, motive v) (fun fs => ∀ f ∈ fs, motive f.2)
    (fun f => motive f.2) scalar list set struct array ?_ ?_ ?_ ?_ ?_ v
  · simp
  · exact fun _ _ hv hvs => List.forall_mem_cons.mpr ⟨hv, hvs⟩
  · simp
  · exact fun _ _ hf hfs => List.forall_mem_cons.mpr ⟨hf, hfs⟩
  · exact fun _ _ hv => hv

theorem feeds_eq (vs : List (Value α)) : feeds vs = vs.map fun v => (v, v.feed) := by
  induction vs with
  | nil => rfl
  | cons v vs ind => rw [feeds, ind, List.map_cons]

theorem map_feeds (vs : List (Value α)) : (feeds vs).map (·.2) = vs.map feed := by
  simp [feeds_eq]

variable {as bs : List (Value α)}

theorem eqAll_iff : eqAll as bs ↔ List.Forall₂ (eq · ·) as bs := by
  induction as generalizing bs with
  | nil => cases bs <;> simp [eqAll]
  | cons a as ind => cases bs <;> simp [eqAll, ind]

theorem eqFields_iff {as bs : List (String × Value α)} :
    eqFields as bs ↔ List.Forall₂ (fun a b => a.1 = b.1 ∧ a.2.eq b.2) as bs := by
  induction as generalizing bs with
  | nil => cases bs <;> simp [eqFields]
  | cons a as ind =>
    cases bs
    case nil => simp [eqFields]
    case cons b bs =>
      cases a
      cases b
      simp [eqFields, ind]

theorem allIn_iff : allIn as bs ↔ ∀ a ∈ as, ∃ b ∈ bs, a.same b := by
  induction as with
  | nil => simp [allIn]
  | cons a as ind => simp [allIn, ind, same]

theorem oneOf_iff : oneOf as b ↔ ∃ a ∈ as, a.same b := by
  induction as with
  | nil => simp [oneOf]
  | cons a as ind => simp [oneOf, ind, same]

theorem eq_set : (set as).eq (set bs) ↔ (∀ a ∈ as, ∃ b ∈ bs, a.same b) ∧ ∀ b ∈ bs, ∃ a ∈ as, a.same b := by
  simp [eq, allIn_iff, oneOf_iff]

omit [Foreign α] in
theorem forall₂_comm {β : Type} {R S : β → β → Prop} {as bs : List β} (h : ∀ a ∈ as, ∀ b, R a b ↔ S b a) :
    List.Forall₂ R as bs ↔ List.Forall₂ S bs as := by
  induction as generalizing bs with
  | nil => cases bs <;> simp
  | cons a as ind =>
    have ⟨ha, has⟩ := List.forall_mem_cons.mp h
    cases bs <;> simp [ha, ind has]

theorem eqAll_comm (h : ∀ a ∈ as, ∀ b, a.eq b = b.eq a) (bs : List (Value α)) : eqAll as bs = eqAll bs as := by
  rw [Bool.eq_iff_iff, eqAll_iff, eqAll_iff]
  exact forall₂_comm fun a ha b => by rw [h a ha]

theorem eq_comm (a b : Value α) : a.eq b = b.eq a := by
  induction a using induction generalizing b with
  | scalar s => cases b <;> simp [eq, Scalar.eq_comm]
  | list as ind => cases b <;> simp [eq, eqAll_comm ind]
  | array as ind => cases b <;> simp [eq, eqAll_comm ind]
  | struct as ind =>
    cases b <;> simp only [eq]
    case struct bs =>
      rw [Bool.eq_iff_iff, eqFields_iff, eqFields_iff]
      exact forall₂_comm fun a ha b => by rw [ind a ha, Eq.comm]
  | set as ind =>
    cases b
    case set bs =>
      have hs : ∀ a ∈ as, ∀ b, a.same b ↔ b.same a := fun a ha b => by
        rw [same_iff, same_iff, ind a ha, Eq.comm]
      rw [Bool.eq_iff_iff, eq_set, eq_set]
      grind
    all_goals simp [eq]

theorem same_comm (a b : Value α) : a.same b = b.same a := by
  rw [same, same, eq_comm, Bool.beq_comm]

theorem forall₂_same : List.Forall₂ (same · ·) as bs ↔ as.map feed = bs.map feed ∧ eqAll as bs := by
  induction as generalizing bs with
  | nil => cases bs <;> simp [eqAll]
  | cons a as ind =>
    cases bs
    case nil => simp
    case cons b bs =>
      rw [List.forall₂_cons, ind, same_iff, eqAll, List.map_cons, List.map_cons, List.cons_eq_cons]
      grind

theorem same_list : (list as).same (list bs) ↔ List.Forall₂ (same · ·) as bs := by
  rw [same_iff, feed, feed, eq, map_feeds, map_feeds, Feed.node_inj, forall₂_same]
  simp

theorem same_array : (array as).same (array bs) ↔ List.Forall₂ (same · ·) as bs := by
  rw [same_iff, feed, feed, eq, map_feeds, map_feeds, Feed.node_inj, forall₂_same]
  simp

theorem forall₂_same_fields {as bs : List (String × Value α)} :
    List.Forall₂ (fun a b => a.1 = b.1 ∧ a.2.same b.2) as bs ↔
      fieldFeeds as = fieldFeeds bs ∧ eqFields as bs := by
  induction as generalizing bs with
  | nil => cases bs <;> simp [eqFields, fieldFeeds]
  | cons a as ind =>
    cases bs
    case nil => simp [eqFields]
    case cons b bs =>
      rw [List.forall₂_cons, ind, same_iff, eqFields, fieldFeeds, fieldFeeds, List.cons_eq_cons, List.cons_eq_cons]
      grind

theorem same_struct {as bs : List (String × Value α)} :
    (struct as).same (struct bs) ↔ List.Forall₂ (fun a b => a.1 = b.1 ∧ a.2.same b.2) as bs := by
  rw [same_iff, feed, feed, eq, Feed.node_inj, forall₂_same_fields]
  simp

omit [Foreign α] in
theorem forall₂_trans {β : Type} {R : β → β → Prop} {as bs cs : List β}
    (h : ∀ a ∈ as, ∀ b c, R a b → R b c → R a c) (hab : List.Forall₂ R as bs)
    (hbc : List.Forall₂ R bs cs) : List.Forall₂ R as cs := by
  induction hab generalizing cs with
  | nil => cases hbc; exact .nil
  | cons hab _ ind =>
    have ⟨ha, has⟩ := List.forall_mem_cons.mp h
    cases hbc with
    | cons hbc hs => exact .cons (ha _ _ hab hbc) (ind has hs)

theorem same_trans {a b c : Value α} (hab : a.same b) (hbc : b.same c) : a.same c := by
  induction a using induction generalizing b c with
  | scalar s =>
    cases b
    case scalar t =>
      cases c
      case scalar u =>
        simp only [same_iff, feed, eq, Feed.leaf.injEq] at hab hbc ⊢
        exact ⟨hab.1.trans hbc.1, Scalar.eq_trans hab.1 hbc.1 hab.2 hbc.2⟩
      all_goals simp [same, eq] at hbc
    all_goals simp [same, eq] at hab
  | list as ind =>
    cases b
    case list bs =>
      cases c
      case list cs =>
        rw [same_list] at hab hbc ⊢
        exact forall₂_trans (fun a ha _ _ => ind a ha) hab hbc
      all_goals simp [same, eq] at hbc
    all_goals simp [same, eq] at hab
  | array as ind =>
    cases b
    case array bs =>
      cases c
      case array cs =>
        rw [same_array] at hab hbc ⊢
        exact forall₂_trans (fun a ha _ _ => ind a ha) hab hbc
      all_goals simp [same, eq] at hbc
    all_goals simp [same, eq] at hab
  | struct as ind =>
    cases b
    case struct bs =>
      cases c
      case struct cs =>
        rw [same_struct] at hab hbc ⊢
        exact forall₂_trans (fun a ha _ _ h h' => ⟨h.1.trans h'.1, ind a ha h.2 h'.2⟩) hab hbc
      all_goals simp [same, eq] at hbc
    all_goals simp [same, eq] at hab
  | set as ind =>
    cases b
    case set bs =>
      cases c
      case set cs =>
        rw [same_iff, eq_set] at hab hbc ⊢
        refine ⟨hab.1.trans hbc.1, fun a ha => ?_, fun c hc => ?_⟩
        · have ⟨b, hb, h⟩ := hab.2.1 a ha
          have ⟨c, hc, h'⟩ := hbc.2.1 b hb
          exact ⟨c, hc, ind a ha h h'⟩
        · have ⟨b, hb, h'⟩ := hbc.2.2 c hc
          have ⟨a, ha, h⟩ := hab.2.2 b hb
          exact ⟨a, ha, ind a ha h h'⟩
      all_goals simp [same, eq] at hbc
    all_goals simp [same, eq] at hab

end Value
end Linkrs
