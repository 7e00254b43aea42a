import Linkrs.Core.DecimalKeys

namespace Linkrs

open KeyOrder Bytes List Decimal128 Except

namespace DateValue

def Valid (d : DateValue) : Prop :=
  1 ≤ d.month.toNat ∧ d.month.toNat ≤ 12 ∧ 1 ≤ d.day.toNat ∧ d.day.toNat ≤ 31

end DateValue

namespace TimeValue

def Valid (t : TimeValue) : Prop :=
  t.hour.toNat < 24 ∧ t.minute.toNat < 60 ∧ t.sec.toNat < 60 ∧ t.microsec.toNat < 1000000

end TimeValue

namespace DateTimeValue

def date (dt : DateTimeValue) : DateValue :=
  ⟨dt.year, dt.month, dt.day⟩

def time (dt : DateTimeValue) : TimeValue :=
  ⟨dt.hour, dt.minute, dt.sec, dt.microsec⟩

def Valid (dt : DateTimeValue) : Prop :=
  dt.date.Valid ∧ dt.time.Valid

theorem cmp_eq (a b : DateTimeValue) : a.cmp b = (a.date.cmp b.date).then (a.time.cmp b.time) := by
  simp [cmp, DateValue.cmp, TimeValue.cmp, date, time, Ordering.then_assoc]

end DateTimeValue

namespace OrderedCodec

-- Values of one variant that keys of an index can be made of, with their calendar fields in range.
inductive Alike : Value KeyContent → Value KeyContent → Prop where
  | bool (a b : Bool) : Alike (.bool a) (.bool b)
  | smallInt (a b : Int16) : Alike (.smallInt a) (.smallInt b)
  | int (a b : Int32) : Alike (.int a) (.int b)
  | bigInt (a b : Int64) : Alike (.bigInt a) (.bigInt b)
  | decimal128 (a b : FiniteDecimal) :
    Alike (.scalar (.other (.decimal128 (.finite a)))) (.scalar (.other (.decimal128 (.finite b))))
  | date {a b : DateValue} (ha : a.Valid) (hb : b.Valid) : Alike (.scalar (.other (.date a))) (.scalar (.other (.date b)))
  | time {a b : TimeValue} (ha : a.Valid) (hb : b.Valid) : Alike (.scalar (.other (.time a))) (.scalar (.other (.time b)))
  | dateTime {a b : DateTimeValue} (ha : a.Valid) (hb : b.Valid) :
    Alike (.scalar (.other (.dateTime a))) (.scalar (.other (.dateTime b)))
  | string (a b : String) : Alike (.string a) (.string b)
  | fixedString (a b : String) : Alike (.scalar (.fixedString a)) (.scalar (.fixedString b))
  | blob (a b : List UInt8) : Alike (.scalar (.blob a)) (.scalar (.blob b))
  | uuid (a b : UuidValue) : Alike (.scalar (.other (.uuid a))) (.scalar (.other (.uuid b)))

theorem compare_int32 (a b : Int32) : compare a b = compare a.toInt b.toInt := by
  simp only [compare, compareOfLessAndEq, Int32.lt_iff_toInt_lt, Int32.toInt_inj]

theorem settles_flipSign (hk : 2 ^ (w + 1) = 256 ^ k) (hi : -2 ^ w ≤ i) (hi' : i < 2 ^ w)
    (hj : -2 ^ w ≤ j) (hj' : j < 2 ^ w) : Settles (compare i j) (be k (flipSign w i)) (be k (flipSign w j)) := by
  rw [← compare_flipSign hi hi' hj hj']
  exact settles_be (hk ▸ flipSign_lt hi hi') (hk ▸ flipSign_lt hj hj')

theorem settles_date {a b : DateValue} (ha : a.Valid) (hb : b.Valid) :
    Settles (a.cmp b) (encodeDate a.year a.month a.day) (encodeDate b.year b.month b.day) := by
  obtain ⟨-, ha₁, -, ha₂⟩ := ha
  obtain ⟨-, hb₁, -, hb₂⟩ := hb
  have hfield {x y : UInt32} (hx : x.toNat < 256) (hy : y.toNat < 256) : compare x y = compare x.toUInt8 y.toUInt8 := by
    rw [UInt32.compare_eq_toNat_compare_toNat, UInt8.compare_eq_toNat_compare_toNat, UInt32.toNat_toUInt8,
      UInt32.toNat_toUInt8, Nat.mod_eq_of_lt hx, Nat.mod_eq_of_lt hy]
  rw [DateValue.cmp, compare_int32, hfield (by omega) (by omega), hfield (by omega) (by omega)]
  exact (settles_flipSign rfl a.year.le_toInt a.year.toInt_lt b.year.le_toInt b.year.toInt_lt).append
    ((Settles.singleton _ _).append (Settles.singleton _ _))

theorem totalMicros_eq (h m s u : UInt32) :
    totalMicros h m s u = ((h.toNat * 60 + m.toNat) * 60 + s.toNat) * 1000000 + u.toNat := by
  unfold totalMicros
  ring

theorem settles_time {a b : TimeValue} (ha : a.Valid) (hb : b.Valid) :
    Settles (a.cmp b) (be 8 (totalMicros a.hour a.minute a.sec a.microsec))
      (be 8 (totalMicros b.hour b.minute b.sec b.microsec)) := by
  obtain ⟨ha₁, ha₂, ha₃, ha₄⟩ := ha
  obtain ⟨hb₁, hb₂, hb₃, hb₄⟩ := hb
  have hcmp : a.cmp b = compare (totalMicros a.hour a.minute a.sec a.microsec)
      (totalMicros b.hour b.minute b.sec b.microsec) := by
    rw [totalMicros_eq, totalMicros_eq, compare_mul_add ha₄ hb₄, compare_mul_add ha₃ hb₃, compare_mul_add ha₂ hb₂,
      TimeValue.cmp]
    simp only [UInt32.compare_eq_toNat_compare_toNat, Ordering.then_assoc]
  rw [hcmp]
  refine settles_be ?_ ?_
  · rw [totalMicros_eq]
    omega
  · rw [totalMicros_eq]
    omega

theorem ofFlipped_be (hk : 2 ^ (w + 1) = 256 ^ k) (hi : -2 ^ w ≤ i) (hi' : i < 2 ^ w)
    (rest : List UInt8) : ofFlipped w (ofBe ((be k (flipSign w i) ++ rest).take k)) = i := by
  rw [take_append_of_le_length (by simp), take_of_length_le (by simp),
    ofBe_be (hk ▸ flipSign_lt hi hi'), ofFlipped_flipSign hi hi']

theorem fromUtf8_toUTF8 (s : String) : fromUtf8 s.toUTF8.data.toList = .ok s := by
  have h : String.fromUTF8? ⟨s.toByteArray.data⟩ = some s := by
    exact dif_pos s.isValidUTF8
  simp [fromUtf8, h]

theorem timeOf_totalMicros (h : t.Valid) : timeOf (totalMicros t.hour t.minute t.sec t.microsec) = t := by
  obtain ⟨h₁, h₂, h₃, h₄⟩ := h
  have hof {x : UInt32} {n : ℕ} (hn : n = x.toNat) : UInt32.ofNat n = x := by
    rw [hn, UInt32.ofNat_toNat]
  rw [totalMicros_eq, timeOf, hof (x := t.hour) (by omega), hof (x := t.minute) (by omega),
    hof (x := t.sec) (by omega), hof (x := t.microsec) (by omega)]

theorem toUInt32_toUInt8 {x : UInt32} (h : x.toNat < 256) : x.toUInt8.toUInt32 = x := by
  apply UInt32.toNat_inj.mp
  rw [UInt8.toNat_toUInt32, UInt32.toNat_toUInt8, Nat.mod_eq_of_lt h]

theorem dateOf_encodeDate (h : d.Valid) (rest : List UInt8) :
    dateOf (encodeDate d.year d.month d.day ++ rest) = d := by
  obtain ⟨-, hm, -, hd⟩ := h
  have hl : (be 4 (flipSign 31 d.year.toInt)).length = 4 := length_be _ _
  have hrest : encodeDate d.year d.month d.day ++ rest =
      be 4 (flipSign 31 d.year.toInt) ++ (d.month.toUInt8 :: d.day.toUInt8 :: rest) := by
    simp [encodeDate]
  unfold dateOf
  rw [hrest, ofFlipped_be rfl d.year.le_toInt d.year.toInt_lt, Int32.ofInt_toInt, getD_eq_getElem?_getD,
    getD_eq_getElem?_getD, getElem?_append_right (by omega), getElem?_append_right (by omega), hl]
  show DateValue.mk d.year d.month.toUInt8.toUInt32 d.day.toUInt8.toUInt32 = d
  rw [toUInt32_toUInt8 (by omega), toUInt32_toUInt8 (by omega)]

theorem read_escaped {β γ : Type} {x : β} (f : β → γ) {g : List UInt8 → StorageResult β} (tag : UInt8) (rest : List UInt8)
    (hg : g data = .ok x) :
    (do let r ← decodeEscapedBytes (tag :: (encodeEscapedBytes data ++ rest)) 1
        return (f (← g r.1), r.2)) = Except.ok (f x, (tag :: encodeEscapedBytes data).length) := by
  rw [decodeEscapedBytes, drop_succ_cons, drop_zero, unescape_encodeEscapedBytes, ok_bind, length_cons, Nat.add_comm]
  simp only [pure, Except.pure, ok_bind, hg]

theorem ofBe_totalMicros {t : TimeValue} (h : t.Valid) (rest : List UInt8) :
    ofBe ((be 8 (totalMicros t.hour t.minute t.sec t.microsec) ++ rest).take 8) =
      totalMicros t.hour t.minute t.sec t.microsec := by
  obtain ⟨h₁, h₂, h₃, h₄⟩ := h
  rw [take_left' (length_be _ _), ofBe_be]
  rw [totalMicros_eq]
  omega

theorem read_flipSign {γ : Type} (f : ℤ → γ) (hk : 2 ^ (w + 1) = 256 ^ k)
    (hi : -2 ^ w ≤ i) (hi' : i < 2 ^ w) (rest : List UInt8) :
    (if (be k (flipSign w i) ++ rest).length < k then .error e
      else .ok (f (ofFlipped w (ofBe ((be k (flipSign w i) ++ rest).take k))), n) : StorageResult (γ × ℕ)) =
      .ok (f i, n) := by
  rw [if_neg (by simp), ofFlipped_be hk hi hi']

section

variable [DecimalLib] (decodeEntity : List UInt8 → StorageResult (Value KeyContent × ℕ))
variable (typeName : Value KeyContent → String) (nullLast : Bool)

theorem settles_encodeValue (h : Alike v w) :
    ∃ kv kw, encodeValue typeName nullLast v = .ok kv ∧ encodeValue typeName nullLast w = .ok kw ∧
      Settles (v.cmp w) kv kw := by
  cases h with
  | bool a b => exact ⟨_, _, rfl, rfl, .of_compare rfl (by cases a <;> cases b <;> rfl)⟩
  | smallInt a b | int a b | bigInt a b =>
    exact ⟨_, _, rfl, rfl, .cons _ (settles_flipSign rfl a.le_toInt a.toInt_lt b.le_toInt b.toInt_lt)⟩
  | decimal128 a b =>
    refine ⟨_, _, encodeDecimal_finite a, encodeDecimal_finite b, ?_⟩
    have h := settles_decimal a b
    rwa [← cmp_finite] at h
  | date ha hb => exact ⟨_, _, rfl, rfl, .cons _ (settles_date ha hb)⟩
  | time ha hb => exact ⟨_, _, rfl, rfl, .cons _ (settles_time ha hb)⟩
  | @dateTime a b ha hb =>
    refine ⟨_, _, rfl, rfl, .cons _ ?_⟩
    have h := (settles_date ha.1 hb.1).append (settles_time ha.2 hb.2)
    rwa [← DateTimeValue.cmp_eq] at h
  | string a b | fixedString a b =>
    refine ⟨_, _, rfl, rfl, .cons _ ?_⟩
    have h := settles_encodeEscapedBytes a.toUTF8.data.toList b.toUTF8.data.toList
    rwa [← compare_toUTF8] at h
  | blob a b => exact ⟨_, _, rfl, rfl, .cons _ (settles_encodeEscapedBytes a b)⟩
  | uuid a b => exact ⟨_, _, rfl, rfl, .cons _ (.of_length (a.length_eq.trans b.length_eq.symm))⟩

theorem Alike.eq_self (h : Alike v w) : v.eq v := by
  cases h with
  | decimal128 a b =>
    have heq := eq_finite (rfl : a.value = a.value)
    rwa [Value.eq]
  | _ => simp [Value.eq, Scalar.eq, Scalar.number?, Number.eq, Foreign.eq, KeyContent.eq]

theorem decodeValueInner_encodeValue (h : Alike v w)
    (hv : encodeValue typeName nullLast v = .ok key) (rest : List UInt8) :
    ∃ v', decodeValueInner decodeEntity (key ++ rest) = .ok (v', key.length) ∧ v'.eq v := by
  have hself := h.eq_self
  cases h with
  | bool a b =>
    obtain rfl := Except.ok.inj hv
    exact ⟨.bool a, by cases a <;> rfl, hself⟩
  | smallInt a b =>
    obtain rfl := Except.ok.inj hv
    have h := read_flipSign (k := 2) (n := 3) (e := deserializeError "truncated smallint")
      (fun i => (.smallInt (.ofInt i) : Value KeyContent)) rfl a.le_toInt a.toInt_lt rest
    rw [Int16.ofInt_toInt] at h
    exact ⟨.smallInt a, h, hself⟩
  | int a b =>
    obtain rfl := Except.ok.inj hv
    have h := read_flipSign (k := 4) (n := 5) (e := deserializeError "truncated int")
      (fun i => (.int (.ofInt i) : Value KeyContent)) rfl a.le_toInt a.toInt_lt rest
    rw [Int32.ofInt_toInt] at h
    exact ⟨.int a, h, hself⟩
  | bigInt a b =>
    obtain rfl := Except.ok.inj hv
    have h := read_flipSign (k := 8) (n := 9) (e := deserializeError "truncated bigint")
      (fun i => (.bigInt (.ofInt i) : Value KeyContent)) rfl a.le_toInt a.toInt_lt rest
    rw [Int64.ofInt_toInt] at h
    exact ⟨.bigInt a, h, hself⟩
  | decimal128 a b =>
    obtain rfl := Except.ok.inj ((encodeDecimal_finite a).symm.trans hv)
    obtain ⟨d, hd, hvalue⟩ := decodeDecimal_encodeKey a rest
    refine ⟨.scalar (.other (.decimal128 (.finite d))), ?_, ?_⟩
    · obtain ⟨body, hbody⟩ : ∃ body, encodeKey (sortKey a) ++ rest = tagDecimal :: body := by
        obtain ⟨negative, exponent, digits⟩ := sortKey a
        cases negative <;> exact ⟨_, rfl⟩
      have h : decodeValueInner decodeEntity (tagDecimal :: body) =
          (do let r ← decodeDecimal (tagDecimal :: body)
              return (.scalar (.other (.decimal128 r.1)), r.2)) := rfl
      rw [hbody, h, ← hbody, hd]
      rfl
    · have heq := eq_finite hvalue
      rwa [Value.eq]
  | @date a b ha hb =>
    obtain rfl := Except.ok.inj hv
    have h (body : List UInt8) : decodeValueInner decodeEntity (tagDate :: body) =
        if body.length < 6 then .error (deserializeError "truncated date")
        else .ok (.scalar (.other (.date (dateOf body))), 7) := rfl
    refine ⟨_, ?_, hself⟩
    rw [cons_append, h, if_neg (by simp [encodeDate]; omega), dateOf_encodeDate ha]
    simp [encodeDate]
  | @time a b ha hb =>
    obtain rfl := Except.ok.inj hv
    have h (body : List UInt8) : decodeValueInner decodeEntity (tagTime :: body) =
        if body.length < 8 then .error (deserializeError "truncated time")
        else .ok (.scalar (.other (.time (timeOf (ofBe (body.take 8))))), 9) := rfl
    refine ⟨_, ?_, hself⟩
    rw [cons_append, h, if_neg (by simp), ofBe_totalMicros ha, timeOf_totalMicros ha]
    simp
  | @dateTime a b ha hb =>
    obtain rfl := Except.ok.inj hv
    have h (body : List UInt8) : decodeValueInner decodeEntity (tagDateTime :: body) =
        if body.length < 14 then .error (deserializeError "truncated datetime")
        else
          let d := dateOf body
          let t := timeOf (ofBe ((body.drop 6).take 8))
          .ok (.scalar (.other (.dateTime ⟨d.year, d.month, d.day, t.hour, t.minute, t.sec, t.microsec⟩)), 15) := rfl
    refine ⟨_, ?_, hself⟩
    have hdate := dateOf_encodeDate ha.1 (be 8 (totalMicros a.hour a.minute a.sec a.microsec) ++ rest)
    have htime := timeOf_totalMicros ha.2
    have hmicros := ofBe_totalMicros ha.2 rest
    simp only [DateTimeValue.date, DateTimeValue.time] at hdate htime hmicros
    rw [cons_append, cons_append, append_assoc, h, if_neg (by simp [encodeDate]; omega), hdate,
      drop_left' (by simp [encodeDate]), hmicros, htime]
    simp [encodeDate]
  | string a b =>
    obtain rfl := Except.ok.inj hv
    exact ⟨_, read_escaped (.string : String → Value KeyContent) tagString rest (fromUtf8_toUTF8 a), hself⟩
  | fixedString a b =>
    obtain rfl := Except.ok.inj hv
    exact ⟨_, read_escaped (fun s => (.scalar (.fixedString s) : Value KeyContent)) tagFixedString rest (fromUtf8_toUTF8 a), hself⟩
  | blob a b =>
    obtain rfl := Except.ok.inj hv
    exact ⟨_, read_escaped (g := .ok) (fun bytes => (.scalar (.blob bytes) : Value KeyContent)) tagBlob rest rfl, hself⟩
  | uuid a b =>
    obtain rfl := Except.ok.inj hv
    have h (body : List UInt8) : decodeValueInner decodeEntity (tagUuid :: body) =
        if h : (body.take 16).length = 16 then .ok (.scalar (.other (.uuid ⟨body.take 16, h⟩)), 17)
        else .error (deserializeError "truncated uuid") := rfl
    have htake : (a.bytes ++ rest).take 16 = a.bytes := take_left' a.length_eq
    refine ⟨_, ?_, hself⟩
    rw [cons_append, h, dif_pos (by rw [htake, a.length_eq])]
    simp [htake, a.length_eq]

-- The first fields of a key, and the bytes behind them.
def decodeFields : ℕ → List UInt8 → StorageResult (List (Value KeyContent) × List UInt8)
  | 0, bytes => .ok ([], bytes)
  | n + 1, bytes => do
    let (value, consumed) ← decodeValueInner decodeEntity bytes
    let (values, rest) ← decodeFields n (bytes.drop consumed)
    return (value :: values, rest)

theorem encodeComposite_cons
    (hv : encodeValue typeName nullLast v = .ok k) (hvs : encodeComposite typeName vs nullLast = .ok ks) :
    encodeComposite typeName (v :: vs) nullLast = .ok (k ++ ks) := by
  have ⟨keys, hkeys, hks⟩ := bind_eq_ok.mp hvs
  obtain rfl := Except.ok.inj hks
  have h := mapM_cons_eq_ok.mpr ⟨k, keys, hv, hkeys, rfl⟩
  rw [encodeComposite, h, ok_bind]
  rfl

theorem settles_encodeComposite (h : List.Forall₂ Alike vs ws) :
    ∃ kv kw, encodeComposite typeName vs nullLast = .ok kv ∧ encodeComposite typeName ws nullLast = .ok kw ∧
      Settles (List.compareLex Value.cmp vs ws) kv kw := by
  induction h with
  | nil => exact ⟨[], [], rfl, rfl, Settles.nil⟩
  | cons h hs ind =>
    have ⟨kv, kw, hv, hw, hsettles⟩ := settles_encodeValue typeName nullLast h
    have ⟨kvs, kws, hvs, hws, hsettles'⟩ := ind
    refine ⟨kv ++ kvs, kw ++ kws, encodeComposite_cons typeName nullLast hv hvs,
      encodeComposite_cons typeName nullLast hw hws, ?_⟩
    rw [List.compareLex_cons_cons]
    exact hsettles.append hsettles'

theorem decodeFields_encodeComposite
    (h : List.Forall₂ Alike vs ws) (hkey : encodeComposite typeName vs nullLast = .ok key) :
    ∃ vs', decodeFields decodeEntity vs.length key = .ok (vs', []) ∧
      List.Forall₂ (fun v' v => v'.eq v) vs' vs := by
  induction h generalizing key with
  | nil =>
    obtain rfl := Except.ok.inj hkey
    exact ⟨[], rfl, .nil⟩
  | @cons v w vs ws h hs ind =>
    have ⟨k, _, hv, _, _⟩ := settles_encodeValue typeName nullLast h
    have ⟨ks, _, hvs, _, _⟩ := settles_encodeComposite typeName nullLast hs
    obtain rfl := Except.ok.inj ((encodeComposite_cons typeName nullLast hv hvs).symm.trans hkey)
    have ⟨v', hv', heq⟩ := decodeValueInner_encodeValue decodeEntity typeName nullLast h hv ks
    have ⟨vs', hvs', heqs⟩ := ind hvs
    refine ⟨v' :: vs', ?_, .cons heq heqs⟩
    rw [length_cons, decodeFields, hv', ok_bind]
    simp only [drop_left, hvs', ok_bind]
    rfl

-- Keys made of fields of the same variants are in the order of their fields, and the fields can be read back.
theorem encodeComposite_preserves_order {vs ws : List (Value KeyContent)} (h : List.Forall₂ Alike vs ws) :
    ∃ kv kw, encodeComposite typeName vs nullLast = .ok kv ∧ encodeComposite typeName ws nullLast = .ok kw ∧
      compare kv kw = List.compareLex Value.cmp vs ws ∧
      ∃ vs', decodeFields decodeEntity vs.length kv = .ok (vs', []) ∧
        List.Forall₂ (fun v' v => v'.eq v) vs' vs := by
  have ⟨kv, kw, hv, hw, hsettles⟩ := settles_encodeComposite typeName nullLast h
  exact ⟨kv, kw, hv, hw, hsettles.compare_eq,
    decodeFields_encodeComposite decodeEntity typeName nullLast h hv⟩

end

-- 2024-02-29, -1.5 and "a\x00" against the same day, -0.25 and "b".
theorem encodeComposite_preserves_order_mixed :
    let day : DateValue := ⟨2024, 2, 29⟩
    let fields (d : FiniteDecimal) (s : String) : List (Value KeyContent) :=
      [.scalar (.other (.date day)), .scalar (.other (.decimal128 (.finite d))), .string s]
    let vs := fields ⟨true, 15, -1, by decide, by decide, by decide⟩ (String.ofList ['a', Char.ofNat 0])
    let ws := fields ⟨true, 25, -2, by decide, by decide, by decide⟩ "b"
    ∃ kv kw, encodeComposite (fun _ => "") vs false = .ok kv ∧ encodeComposite (fun _ => "") ws false = .ok kw ∧
      compare kv kw = List.compareLex Value.cmp vs ws ∧
      ∃ vs', decodeFields (fun _ => .error (deserializeError "")) 3 kv = .ok (vs', []) ∧
        List.Forall₂ (fun v' v => v'.eq v) vs' vs :=
  encodeComposite_preserves_order _ _ _
    (.cons (.date ⟨by decide, by decide, by decide, by decide⟩ ⟨by decide, by decide, by decide, by decide⟩)
      (.cons (.decimal128 _ _) (.cons (.string _ _) .nil)))

end OrderedCodec

end Linkrs
