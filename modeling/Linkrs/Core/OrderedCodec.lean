import Linkrs.Core.Decimal
import Linkrs.Core.Error
import Linkrs.Core.Value
import Linkrs.Lib.Postcard
import Linkrs.Lib.Utf8Order

namespace Linkrs

structure DateValue where
  year : Int32
  month : UInt32
  day : UInt32
  deriving DecidableEq, Repr

structure TimeValue where
  hour : UInt32
  minute : UInt32
  sec : UInt32
  microsec : UInt32
  deriving DecidableEq, Repr

structure DateTimeValue where
  year : Int32
  month : UInt32
  day : UInt32
  hour : UInt32
  minute : UInt32
  sec : UInt32
  microsec : UInt32
  deriving DecidableEq, Repr

structure UuidValue where
  bytes : List UInt8
  length_eq : bytes.length = 16
  deriving DecidableEq, Repr

namespace DateValue

def cmp (a b : DateValue) : Ordering :=
  (compare a.year b.year).then <| (compare a.month b.month).then <| compare a.day b.day

end DateValue

namespace TimeValue

def cmp (a b : TimeValue) : Ordering :=
  (compare a.hour b.hour).then <| (compare a.minute b.minute).then <|
    (compare a.sec b.sec).then <| compare a.microsec b.microsec

end TimeValue

namespace DateTimeValue

def cmp (a b : DateTimeValue) : Ordering :=
  (compare a.year b.year).then <| (compare a.month b.month).then <| (compare a.day b.day).then <|
    (compare a.hour b.hour).then <| (compare a.minute b.minute).then <|
      (compare a.sec b.sec).then <| compare a.microsec b.microsec

end DateTimeValue

-- The contents of values, other than numbers and texts, that keys of an index are made of.
inductive KeyContent where
  | decimal128 (d : Decimal128)
  | date (d : DateValue)
  | time (t : TimeValue)
  | dateTime (dt : DateTimeValue)
  | uuid (u : UuidValue)
  deriving DecidableEq, Repr

namespace KeyContent

open Postcard

variable [DecimalLib]

def priority : KeyContent → ℕ
  | decimal128 _ => 8
  | date _ => 9
  | time _ => 10
  | dateTime _ => 11
  | uuid _ => 26

def eq : KeyContent → KeyContent → Bool
  | decimal128 a, decimal128 b => a.eq b
  | date a, date b => a == b
  | time a, time b => a == b
  | dateTime a, dateTime b => a == b
  | uuid a, uuid b => a == b
  | _, _ => false

def cmp : KeyContent → KeyContent → Ordering
  | decimal128 a, decimal128 b => a.cmp b
  | date a, date b => a.cmp b
  | time a, time b => a.cmp b
  | dateTime a, dateTime b => a.cmp b
  | uuid a, uuid b => compare a.bytes b.bytes
  | a, b => compare a.priority b.priority

def feed : KeyContent → List ℤ
  | decimal128 d => 8 :: (DecimalLib.toText d).map (·.toNat)
  | date d => [12, d.year.toInt, d.month.toNat, d.day.toNat]
  | time t => [13, t.hour.toNat, t.minute.toNat, t.sec.toNat, t.microsec.toNat]
  | dateTime dt =>
    [14, dt.year.toInt, dt.month.toNat, dt.day.toNat, dt.hour.toNat, dt.minute.toNat, dt.sec.toNat, dt.microsec.toNat]
  | uuid u => 26 :: u.bytes.map (·.toNat)

def postcard : KeyContent → List UInt8
  | decimal128 d => varint 8 ++ bytes (DecimalLib.toText d)
  | date d => varint 12 ++ varint (zigzag d.year.toInt) ++ varint d.month.toNat ++ varint d.day.toNat
  | time t =>
    varint 13 ++ varint t.hour.toNat ++ varint t.minute.toNat ++ varint t.sec.toNat ++ varint t.microsec.toNat
  | dateTime dt =>
    varint 14 ++ varint (zigzag dt.year.toInt) ++ varint dt.month.toNat ++ varint dt.day.toNat ++
      varint dt.hour.toNat ++ varint dt.minute.toNat ++ varint dt.sec.toNat ++ varint dt.microsec.toNat
  | uuid u => varint 27 ++ u.bytes

end KeyContent

instance [DecimalLib] : Foreign KeyContent where
  eq := KeyContent.eq
  cmp := KeyContent.cmp
  priority := KeyContent.priority
  feed := KeyContent.feed
  postcard := KeyContent.postcard
  eq_comm a b := by
    cases a <;> cases b <;> simp only [KeyContent.eq]
    case decimal128.decimal128 a b => exact Decimal128.eq_comm a b
    all_goals exact Bool.beq_comm
  eq_trans {a b c} _ _ hab hbc := by
    cases a <;> cases b <;> simp only [KeyContent.eq, Bool.false_eq_true] at hab <;> cases c <;>
      simp only [KeyContent.eq, Bool.false_eq_true] at hbc ⊢
    case decimal128.decimal128.decimal128 => exact Decimal128.eq_trans hab hbc
    all_goals simp_all

namespace OrderedCodec

open Bytes Numeral

variable [DecimalLib]

def tagEmpty : UInt8 := 0x00
def tagNull : UInt8 := 0x01
def tagBool : UInt8 := 0x02
def tagSmallInt : UInt8 := 0x03
def tagInt : UInt8 := 0x04
def tagBigInt : UInt8 := 0x05
def tagFloat : UInt8 := 0x06
def tagDouble : UInt8 := 0x07
def tagDecimal : UInt8 := 0x08
def tagDate : UInt8 := 0x09
def tagTime : UInt8 := 0x0A
def tagDateTime : UInt8 := 0x0B
def tagString : UInt8 := 0x0C
def tagFixedString : UInt8 := 0x0D
def tagBlob : UInt8 := 0x0E
def tagVertexId : UInt8 := 0x0F
def tagEdgeRef : UInt8 := 0x10
def tagUuid : UInt8 := 0x1A
def tagNullLast : UInt8 := 0xFF
def nullKindEmpty : UInt8 := 0xFF

def escape (byte : UInt8) : List UInt8 :=
  if byte = 0 then [0, 1] else [byte]

def encodeEscapedBytes (data : List UInt8) : List UInt8 :=
  data.flatMap escape ++ [0, 0]

-- The data up to the terminator, and how many bytes were read.
def unescape : List UInt8 → StorageResult (List UInt8 × ℕ)
  | [] => .error (deserializeError "missing variable-length value terminator")
  | byte :: bytes =>
    if byte ≠ 0 then do
      let (data, n) ← unescape bytes
      return (byte :: data, n + 1)
    else match bytes with
      | [] => .error (deserializeError "missing variable-length value terminator")
      | escape :: bytes =>
        if escape = 0 then .ok ([], 2)
        else if escape = 1 then do
          let (data, n) ← unescape bytes
          return (0 :: data, n + 2)
        else .error (deserializeError "invalid variable-length value escape")

def decodeEscapedBytes (bytes : List UInt8) (position : ℕ) : StorageResult (List UInt8 × ℕ) := do
  let (data, n) ← unescape (bytes.drop position)
  return (data, position + n)

def encodeNullType (type : NullType) : UInt8 :=
  .ofNat type.index

def decodeNullType (code : UInt8) : StorageResult NullType :=
  match code.toNat with
  | 0 => .ok .null
  | 1 => .ok .nan
  | 2 => .ok .badData
  | 3 => .ok .badType
  | 4 => .ok .errOverflow
  | 5 => .ok .unknownProp
  | 6 => .ok .divByZero
  | 7 => .ok .outOfRange
  | _ => .error (deserializeError s!"invalid null type code {code}")

-- A number of `w + 1` bits in the order of floating-point numbers. NaN comes first.
def encodeOrdered (f : Ieee.Format) (w : ℕ) (bits : ℕ) : ℕ :=
  if f.isNaN bits then 0
  else if f.key bits = 0 then 2 ^ w + 1
  else if f.negative bits then (2 ^ (w + 1) - 1 - bits) + 1
  else (bits ^^^ 2 ^ w) + 1

def decodeOrdered (nan : ℕ) (w : ℕ) (raw : ℕ) : ℕ :=
  if raw = 0 then nan
  else if 2 ^ w ≤ raw - 1 then (raw - 1) ^^^ 2 ^ w
  else 2 ^ (w + 1) - 1 - (raw - 1)

def totalMicros (hour minute sec microsec : UInt32) : ℕ :=
  hour.toNat * 3600000000 + minute.toNat * 60000000 + sec.toNat * 1000000 + microsec.toNat

-- The digits before and behind the point, and the exponent.
def decimalParts (text : Text) : StorageResult (Text × Text × ℤ) :=
  let (mantissa, exponentPart) := Text.splitExponent (Text.stripSign text)
  match Text.parseI32 exponentPart with
  | .error error => .error (serializeError s!"Invalid decimal exponent: {error}")
  | .ok exponent10 =>
    let (whole, fractional) := Text.splitPoint mantissa
    if whole ++ fractional = [] ∨ (whole ++ fractional).any (!isDigit ·) then
      let shown := String.ofList (text.map fun b => Char.ofNat b.toNat)
      .error (serializeError s!"Invalid decimal value {shown}")
    else .ok (whole, fractional, exponent10)

def digitExponent (wholeLen leadingZeroCount : ℕ) (exponent10 : ℤ) : StorageResult ℤ :=
  if !Text.inI32 wholeLen then .error (serializeError "Decimal integral part is too long")
  else if !Text.inI32 leadingZeroCount then .error (serializeError "Decimal significand is too long")
  else if !Text.inI32 (wholeLen + exponent10) || !Text.inI32 (wholeLen + exponent10 - leadingZeroCount) then
    .error (serializeError "Decimal exponent is out of range")
  else .ok (wholeLen + exponent10 - leadingZeroCount)

-- The sign, where the point stands before the digits, and the digits without zeros on either side.
def significand (d : Decimal128) : StorageResult (Bool × ℤ × List UInt8) := do
  let (whole, fractional, exponent10) ← decimalParts (DecimalLib.toText d)
  let digits := whole ++ fractional
  if digits.all (· = '0'.toUInt8) then .ok (false, -2 ^ 31, ['0'.toUInt8])
  else
    let leadingZeroCount := (digits.takeWhile (· = '0'.toUInt8)).length
    let exponent ← digitExponent whole.length leadingZeroCount exponent10
    .ok ((DecimalLib.toText d).startsWith '-'.toUInt8, exponent, (digits.drop leadingZeroCount).rdropWhile (· = '0'.toUInt8))

def encodeDecimal (d : Decimal128) : StorageResult (List UInt8) := do
  let (negative, digitExponent, digits) ← significand d
  let biased := flipSign 31 digitExponent
  if negative then
    return tagDecimal :: 0 :: be 4 (2 ^ 32 - 1 - biased) ++ digits.map (~~~ ·) ++ [0xFF]
  else
    return tagDecimal :: 1 :: be 4 biased ++ digits ++ [0x00]

section

def parseDecimal (text : Text) : StorageResult Decimal128 :=
  match DecimalLib.fromStr text with
  | .ok d => .ok d
  | .error error => .error (deserializeError s!"invalid decimal: Decimal128 parse failed: {error}")

def decodeDigits (negative : Bool) (terminator : UInt8) : List UInt8 → StorageResult (List UInt8)
  | [] => .ok []
  | byte :: bytes =>
    let digit := if negative then ~~~byte else byte
    if byte = terminator then .ok []
    else if !isDigit digit then .error (deserializeError "invalid decimal significand")
    else do return digit :: (← decodeDigits negative terminator bytes)

-- The decimal with these digits right behind the point, times a power of ten.
def decimalOf (negative : Bool) (exponent : ℤ) (digits : List UInt8) : StorageResult Decimal128 :=
  let exponent10 := exponent - digits.length
  if digits.all (· = '0'.toUInt8) then parseDecimal ['0'.toUInt8]
  else if !Text.inI32 digits.length then .error (deserializeError "decimal significand is too long")
  else if !Text.inI32 exponent10 then .error (deserializeError "decimal exponent is out of range")
  else parseDecimal (Text.sign (negative && digits.any (· ≠ '0'.toUInt8)) ++
    (digits ++ if exponent10 ≠ 0 then 'e'.toUInt8 :: Text.ofInt exponent10 else []))

def decodeDecimal (bytes : List UInt8) : StorageResult (Decimal128 × ℕ) :=
  let sign := bytes.getD 1 0
  let raw := ofBe ((bytes.drop 2).take 4)
  let wireExponent := if sign = 0 then 2 ^ 32 - 1 - raw else raw
  if bytes.length < 7 then .error (deserializeError "truncated decimal")
  else if 1 < sign then .error (deserializeError "invalid decimal sign")
  else do
    let digits ← decodeDigits (sign = 0) (if sign = 0 then 0xFF else 0x00) (bytes.drop 6)
    if digits = [] ∨ 6 + digits.length = bytes.length then .error (deserializeError "missing decimal terminator")
    else
      let d ← decimalOf (sign = 0) (ofFlipped 31 wireExponent) digits
      return (d, 6 + digits.length + 1)

-- Where an entity was written by another function, the value and the number of its bytes.
variable (decodeEntity : List UInt8 → StorageResult (Value KeyContent × ℕ))

def hexByte (b : UInt8) : String :=
  .ofList [Nat.digitChar (b.toNat / 16), Nat.digitChar (b.toNat % 16)]

def fromUtf8 (data : List UInt8) : StorageResult String :=
  match String.fromUTF8? ⟨data.toArray⟩ with
  | some s => .ok s
  | none => .error (deserializeError "invalid UTF-8")

def timeOf (totalMicros : ℕ) : TimeValue :=
  let totalSecs := totalMicros / 1000000
  { hour := .ofNat (totalSecs / 3600)
    minute := .ofNat (totalSecs % 3600 / 60)
    sec := .ofNat (totalSecs % 60)
    microsec := .ofNat (totalMicros % 1000000) }

def dateOf (bytes : List UInt8) : DateValue where
  year := .ofInt (ofFlipped 31 (ofBe (bytes.take 4)))
  month := (bytes.getD 4 0).toUInt32
  day := (bytes.getD 5 0).toUInt32

def decodeValueInner (bytes : List UInt8) : StorageResult (Value KeyContent × ℕ) :=
  match bytes with
  | [] => .error (deserializeError "OrderedCodec decode_value: empty input")
  | tag :: body =>
    if tag = tagEmpty then .ok (.empty, 1)
    else if tag = tagNull ∨ tag = tagNullLast then
      match body with
      | [] => .error (deserializeError "truncated null value")
      | kind :: _ =>
        if tag = tagNullLast ∧ kind = nullKindEmpty then .ok (.empty, 2)
        else do return (.null (← decodeNullType kind), 2)
    else if tag = tagBool then
      match body with
      | [] => .error (deserializeError "truncated bool")
      | b :: _ => .ok (.bool (b ≠ 0), 2)
    else if tag = tagSmallInt then
      if body.length < 2 then .error (deserializeError "truncated smallint")
      else .ok (.smallInt (.ofInt (ofFlipped 15 (ofBe (body.take 2)))), 3)
    else if tag = tagInt then
      if body.length < 4 then .error (deserializeError "truncated int")
      else .ok (.int (.ofInt (ofFlipped 31 (ofBe (body.take 4)))), 5)
    else if tag = tagBigInt then
      if body.length < 8 then .error (deserializeError "truncated bigint")
      else .ok (.bigInt (.ofInt (ofFlipped 63 (ofBe (body.take 8)))), 9)
    else if tag = tagFloat then
      if body.length < 4 then .error (deserializeError "truncated float")
      else .ok (.float (.ofNat (decodeOrdered 0x7fc00000 31 (ofBe (body.take 4)))), 5)
    else if tag = tagDouble then
      if body.length < 8 then .error (deserializeError "truncated double")
      else .ok (.double (.ofNat (decodeOrdered 0x7ff8000000000000 63 (ofBe (body.take 8)))), 9)
    else if tag = tagDecimal then do
      let (d, consumed) ← decodeDecimal bytes
      return (.scalar (.other (.decimal128 d)), consumed)
    else if tag = tagString ∨ tag = tagFixedString ∨ tag = tagBlob then do
      let (data, stop) ← decodeEscapedBytes bytes 1
      if tag = tagString then return (.string (← fromUtf8 data), stop)
      else if tag = tagBlob then return (.scalar (.blob data), stop)
      else return (.scalar (.fixedString (← fromUtf8 data)), stop)
    else if tag = tagDate then
      if body.length < 6 then .error (deserializeError "truncated date")
      else .ok (.scalar (.other (.date (dateOf body))), 7)
    else if tag = tagTime then
      if body.length < 8 then .error (deserializeError "truncated time")
      else .ok (.scalar (.other (.time (timeOf (ofBe (body.take 8))))), 9)
    else if tag = tagDateTime then
      if body.length < 14 then .error (deserializeError "truncated datetime")
      else
        let d := dateOf body
        let t := timeOf (ofBe ((body.drop 6).take 8))
        .ok (.scalar (.other (.dateTime ⟨d.year, d.month, d.day, t.hour, t.minute, t.sec, t.microsec⟩)), 15)
    else if tag = tagUuid then
      if h : (body.take 16).length = 16 then .ok (.scalar (.other (.uuid ⟨body.take 16, h⟩)), 17)
      else .error (deserializeError "truncated uuid")
    else if tag = tagVertexId ∨ tag = tagEdgeRef then decodeEntity bytes
    else
      let shown := hexByte tag
      .error (deserializeError s!"unknown type tag 0x{shown}")

def decode (bytes : List UInt8) : StorageResult (Value KeyContent) := do
  let (value, consumed) ← decodeValueInner decodeEntity bytes
  if consumed ≠ bytes.length then
    throw (deserializeError s!"OrderedCodec decode: {bytes.length - consumed} bytes trailing data after value")
  return value

end

section

-- How messages show a value or its type.
variable (typeName debug : Value KeyContent → String)

def encodeDate (year : Int32) (month day : UInt32) : List UInt8 :=
  be 4 (flipSign 31 year.toInt) ++ [month.toUInt8, day.toUInt8]

def encodeContent : KeyContent → StorageResult (List UInt8)
  | .decimal128 d => encodeDecimal d
  | .date d => .ok (tagDate :: encodeDate d.year d.month d.day)
  | .time t => .ok (tagTime :: be 8 (totalMicros t.hour t.minute t.sec t.microsec))
  | .dateTime dt =>
    .ok (tagDateTime :: encodeDate dt.year dt.month dt.day ++ be 8 (totalMicros dt.hour dt.minute dt.sec dt.microsec))
  | .uuid u => .ok (tagUuid :: u.bytes)

def encodeValue (nullLast : Bool) : Value KeyContent → StorageResult (List UInt8)
  | .scalar .empty => .ok (if nullLast then [tagNullLast, nullKindEmpty] else [tagEmpty])
  | .scalar (.null type) => .ok [if nullLast then tagNullLast else tagNull, encodeNullType type]
  | .scalar (.bool b) => .ok [tagBool, .ofNat b.toNat]
  | .scalar (.smallInt n) => .ok (tagSmallInt :: be 2 (flipSign 15 n.toInt))
  | .scalar (.int n) => .ok (tagInt :: be 4 (flipSign 31 n.toInt))
  | .scalar (.bigInt n) => .ok (tagBigInt :: be 8 (flipSign 63 n.toInt))
  | .scalar (.float bits) => .ok (tagFloat :: be 4 (encodeOrdered Ieee.binary32 31 bits.toNat))
  | .scalar (.double bits) => .ok (tagDouble :: be 8 (encodeOrdered Ieee.binary64 63 bits.toNat))
  | .scalar (.string s) => .ok (tagString :: encodeEscapedBytes s.toUTF8.data.toList)
  | .scalar (.fixedString s) => .ok (tagFixedString :: encodeEscapedBytes s.toUTF8.data.toList)
  | .scalar (.blob b) => .ok (tagBlob :: encodeEscapedBytes b)
  | .scalar (.other content) => encodeContent content
  | value =>
    .error ⟨.invalidInput, s!"Value type {typeName value} is not supported by OrderedCodec"⟩

def encode (value : Value KeyContent) : StorageResult (List UInt8) :=
  encodeValue typeName false value

-- The entity that is put behind the fields is left out.
def encodeComposite (values : List (Value KeyContent)) (nullLast : Bool) : StorageResult (List UInt8) := do
  return (← values.mapM (encodeValue typeName nullLast)).flatten

-- The bytes from the last one on.
def increment : List UInt8 → List UInt8
  | [] => []
  | byte :: bytes => if byte = 0xFF then 0x00 :: increment bytes else (byte + 1) :: bytes

def prefixUpperBound (bytes : List UInt8) : List UInt8 :=
  (increment bytes.reverse).reverse

def prefixBounds (value : Value KeyContent) : StorageResult (List UInt8 × List UInt8) :=
  let fixedLength : StorageResult (List UInt8 × List UInt8) := do
    let lower ← encode typeName value
    return (lower, prefixUpperBound lower)
  let escaped : StorageResult (List UInt8 × List UInt8) := do
    let lower ← encode typeName value
    let (_, terminatorEnd) ← decodeEscapedBytes lower 1
    let data := (lower.take (terminatorEnd - 2)).drop 1
    return (lower, if data = [] then prefixUpperBound (lower.take 1) else lower.take 1 ++ prefixUpperBound data)
  match value with
  | .scalar (.string _) | .scalar (.fixedString _) | .scalar (.blob _) => escaped
  | .scalar (.other (.decimal128 _)) =>
    .error ⟨.dbError, s!"prefix_bounds not supported for type {debug value}"⟩
  | .scalar _ => fixedLength
  | value =>
    .error ⟨.dbError, s!"prefix_bounds not supported for type {debug value}"⟩

end

end OrderedCodec

end Linkrs
