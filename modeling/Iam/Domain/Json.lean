import Iam.Domain.Basic

/-!
# JSON member lists

`Binding.Members` is a `datatypes.JSON`: the raw bytes of a JSON array of
principals.  `Binding.GetMembers` decodes it with `json.Unmarshal` into a
`[]string`, and `CreateBinding` produces it with `json.Marshal`.  Both follow
`encoding/json` byte for byte: the validity scan that `Unmarshal` runs before
decoding, the decoding of string literals (escapes, surrogate pairs, and the
coercion of ill-formed UTF-8 to U+FFFD), and the HTML-safe encoding of
`Marshal`.  The `jsonb` column accepts a value only if PostgreSQL's own
parser does, which adds three rejections: ill-formed UTF-8, `\u0000`, and
unpaired surrogate escapes.  Its containment operator `@>` compares strings
after decoding their escapes and numbers by value.
-/

namespace Iam.Json

inductive Value where
  | null
  | bool (b : Bool)
  | number (raw : GoString)
  | string (raw : GoString)
  | array (elems : List Value)
  | object (fields : List (GoString × Value))
  deriving Repr

def isSpace (c : UInt8) : Bool := c == 32 || c == 9 || c == 10 || c == 13

def skipSpace : GoString → GoString
  | [] => []
  | c :: s => if isSpace c then skipSpace s else c :: s

def isDigit (c : UInt8) : Bool := 48 ≤ c && c ≤ 57

def isHex (c : UInt8) : Bool := isDigit c || (97 ≤ c && c ≤ 102) || (65 ≤ c && c ≤ 70)

def hexVal (c : UInt8) : Nat :=
  if c ≤ 57 then c.toNat - 48 else if c ≤ 70 then c.toNat - 55 else c.toNat - 87

def hex4 (a b c d : UInt8) : Option Nat :=
  if isHex a && isHex b && isHex c && isHex d then
    some (((hexVal a * 16 + hexVal b) * 16 + hexVal c) * 16 + hexVal d)
  else none

def isSurrogate (r : Nat) : Bool := 0xD800 ≤ r && r < 0xE000

def headIn (lo hi : UInt8) : GoString → Bool
  | c :: _ => lo ≤ c && c ≤ hi
  | [] => false

/--
`utf8.DecodeRune`: the length of the well-formed sequence at the front, or
`0` when it is ill-formed (Go then reports `RuneError` of width one).
-/
def utf8SeqLen : GoString → Nat
  | [] => 0
  | c :: s =>
    let tail (lo hi : UInt8) (n : Nat) :=
      headIn lo hi s && (List.range (n - 2)).all fun i => headIn 0x80 0xBF (s.drop (i + 1))
    if c < 0x80 then 1
    else if c < 0xC2 then 0
    else if c < 0xE0 then if tail 0x80 0xBF 2 then 2 else 0
    else if c < 0xF5 then
      let n := if c < 0xF0 then 3 else 4
      let lo : UInt8 := if c = 0xE0 then 0xA0 else if c = 0xF0 then 0x90 else 0x80
      let hi : UInt8 := if c = 0xED then 0x9F else if c = 0xF4 then 0x8F else 0xBF
      if tail lo hi n then n else 0
    else 0

def utf8Valid (s : GoString) : Bool := go s.length s
where
  go : Nat → GoString → Bool
    | _, [] => true
    | 0, _ :: _ => false
    | fuel + 1, c :: s => match utf8SeqLen (c :: s) with
      | 0 => false
      | n + 1 => go fuel (s.drop n)

def runeError : GoString := [0xEF, 0xBF, 0xBD]

/-- `utf8.EncodeRune`; surrogates and values past U+10FFFF become U+FFFD. -/
def encodeRune (r : Nat) : GoString :=
  if r < 0x80 then [r.toUInt8]
  else if r < 0x800 then [(0xC0 + r / 64).toUInt8, (0x80 + r % 64).toUInt8]
  else if isSurrogate r || 0x10FFFF < r then runeError
  else if r < 0x10000 then
    [(0xE0 + r / 4096).toUInt8, (0x80 + r / 64 % 64).toUInt8, (0x80 + r % 64).toUInt8]
  else
    [(0xF0 + r / 262144).toUInt8, (0x80 + r / 4096 % 64).toUInt8,
      (0x80 + r / 64 % 64).toUInt8, (0x80 + r % 64).toUInt8]

def isShortEscape (c : UInt8) : Bool := [34, 92, 47, 98, 102, 110, 114, 116].contains c

/--
The body of a string literal up to its closing quote, checked as the scanner
checks it: no byte below 0x20, and only the escapes `\" \\ \/ \b \f \n \r \t`
and `\uXXXX`.  With `pg`, PostgreSQL's further rejections of `\u0000` and of
surrogate escapes that are not a high-low pair apply.
-/
def scanString (pg : Bool) : GoString → Option (GoString × GoString)
  | [] => none
  | 34 :: s => some ([], s)
  | 92 :: 117 :: a :: b :: c :: d :: s =>
    match hex4 a b c d with
    | none => none
    | some r =>
      if pg && r = 0 then none
      else if pg && isSurrogate r then
        match s with
        | 92 :: 117 :: e :: f :: g :: h :: t =>
          match hex4 e f g h with
          | some r1 =>
            if r < 0xDC00 && 0xDC00 ≤ r1 && r1 < 0xE000 then
              (scanString pg t).map fun p =>
                ([92, 117, a, b, c, d, 92, 117, e, f, g, h] ++ p.1, p.2)
            else none
          | none => none
        | _ => none
      else (scanString pg s).map fun p => ([92, 117, a, b, c, d] ++ p.1, p.2)
  | 92 :: c :: s =>
    if isShortEscape c then (scanString pg s).map fun p => (92 :: c :: p.1, p.2) else none
  | c :: s => if c < 32 then none else (scanString pg s).map fun p => (c :: p.1, p.2)

def digits1 (s : GoString) : Option (GoString × GoString) :=
  match s.span isDigit with
  | ([], _) => none
  | p => some p

def fraction (s : GoString) : Option (GoString × GoString) :=
  match s with
  | 46 :: t => (digits1 t).map fun p => (46 :: p.1, p.2)
  | _ => some ([], s)

def exponent (s : GoString) : Option (GoString × GoString) :=
  match s with
  | e :: t =>
    if e = 101 || e = 69 then
      let (sign, t) : GoString × GoString := match t with
        | c :: u => if c = 43 || c = 45 then ([c], u) else ([], t)
        | [] => ([], t)
      (digits1 t).map fun p => (e :: sign ++ p.1, p.2)
    else some ([], s)
  | [] => some ([], s)

def scanNumber (s : GoString) : Option (GoString × GoString) := do
  let (sign, s) : GoString × GoString := match s with
    | 45 :: t => ([45], t)
    | _ => ([], s)
  let (int, s) ← match s with
    | 48 :: t => some ([48], t)
    | _ => digits1 s
  let (frac, s) ← fraction s
  let (exp, s) ← exponent s
  pure (sign ++ int ++ frac ++ exp, s)

mutual
def parseValue (pg : Bool) : Nat → GoString → Option (Value × GoString)
  | 0, _ => none
  | fuel + 1, s =>
    match skipSpace s with
    | 123 :: s =>
      match skipSpace s with
      | 125 :: s => some (.object [], s)
      | s => (parseFields pg fuel s).map fun p => (.object p.1, p.2)
    | 91 :: s =>
      match skipSpace s with
      | 93 :: s => some (.array [], s)
      | s => (parseElements pg fuel s).map fun p => (.array p.1, p.2)
    | 34 :: s => (scanString pg s).map fun p => (.string p.1, p.2)
    | 116 :: 114 :: 117 :: 101 :: s => some (.bool true, s)
    | 102 :: 97 :: 108 :: 115 :: 101 :: s => some (.bool false, s)
    | 110 :: 117 :: 108 :: 108 :: s => some (.null, s)
    | s => (scanNumber s).map fun p => (.number p.1, p.2)

def parseElements (pg : Bool) : Nat → GoString → Option (List Value × GoString)
  | 0, _ => none
  | fuel + 1, s => do
    let (v, s) ← parseValue pg fuel s
    match skipSpace s with
    | 44 :: s => (parseElements pg fuel s).map fun p => (v :: p.1, p.2)
    | 93 :: s => some ([v], s)
    | _ => none

def parseFields (pg : Bool) : Nat → GoString → Option (List (GoString × Value) × GoString)
  | 0, _ => none
  | fuel + 1, s => do
    let (key, s) ← match skipSpace s with
      | 34 :: s => scanString pg s
      | _ => none
    let s ← match skipSpace s with
      | 58 :: s => some s
      | _ => none
    let (v, s) ← parseValue pg fuel s
    match skipSpace s with
    | 44 :: s => (parseFields pg fuel s).map fun p => ((key, v) :: p.1, p.2)
    | 125 :: s => some ([(key, v)], s)
    | _ => none
end

def parse (pg : Bool) (s : GoString) : Option Value :=
  match parseValue pg (2 * s.length + 1) s with
  | some (v, rest) => if skipSpace rest = [] then some v else none
  | none => none

def escapeByte : UInt8 → UInt8
  | 98 => 8
  | 102 => 12
  | 110 => 10
  | 114 => 13
  | 116 => 9
  | c => c

/--
`unquoteBytes` on a body that passed the scan: escapes are decoded, a
surrogate pair becomes its rune and any other surrogate U+FFFD, and every
byte that starts no well-formed UTF-8 sequence becomes U+FFFD.
-/
def unquote (s : GoString) : GoString := go s.length s
where
  go : Nat → GoString → GoString
    | _, [] => []
    | 0, _ :: _ => []
    | fuel + 1, 92 :: 117 :: a :: b :: c :: d :: s =>
      match hex4 a b c d with
      | none => []
      | some r =>
        if isSurrogate r then
          match s with
          | 92 :: 117 :: e :: f :: g :: h :: t =>
            match hex4 e f g h with
            | some r1 =>
              if r < 0xDC00 && 0xDC00 ≤ r1 && r1 < 0xE000 then
                encodeRune (0x10000 + (r - 0xD800) * 0x400 + (r1 - 0xDC00)) ++ go fuel t
              else runeError ++ go fuel s
            | none => runeError ++ go fuel s
          | _ => runeError ++ go fuel s
        else encodeRune r ++ go fuel s
    | fuel + 1, 92 :: c :: s => escapeByte c :: go fuel s
    | fuel + 1, c :: s =>
      if c < 0x80 then c :: go fuel s
      else match utf8SeqLen (c :: s) with
        | 0 => runeError ++ go fuel s
        | n + 1 => c :: s.take n ++ go fuel (s.drop n)

/--
`Unmarshal` into a `[]string`: `null` leaves the slice nil, an array of
strings and nulls gives its strings (a null element stays `""`), and any
other value is an `UnmarshalTypeError`.
-/
def Value.toStrings : Value → Option (List GoString)
  | .null => some []
  | .array elems => elems.mapM fun
    | .string raw => some (unquote raw)
    | .null => some []
    | _ => none
  | _ => none

def unmarshalStrings (data : GoString) : Option (List GoString) :=
  (parse false data).bind Value.toStrings

/--
`encodeState.string` with HTML escaping, as `json.Marshal` calls it: the
bytes between the quotes.
-/
def escape (s : GoString) : GoString := go s.length s
where
  go : Nat → GoString → GoString
    | _, [] => []
    | 0, _ :: _ => []
    | fuel + 1, c :: s =>
      if c < 0x80 then
        (if c = 92 || c = 34 then [92, c]
        else if c = 8 then [92, 98]
        else if c = 12 then [92, 102]
        else if c = 10 then [92, 110]
        else if c = 13 then [92, 114]
        else if c = 9 then [92, 116]
        else if c < 32 || c = 60 || c = 62 || c = 38 then
          [92, 117, 48, 48, hexDigit (c.toNat / 16), hexDigit (c.toNat % 16)]
        else [c]) ++ go fuel s
      else match utf8SeqLen (c :: s) with
        | 0 => lit "\\ufffd" ++ go fuel s
        | n + 1 =>
          if c = 0xE2 && s.take 2 = [0x80, 0xA8] then lit "\\u2028" ++ go fuel (s.drop 2)
          else if c = 0xE2 && s.take 2 = [0x80, 0xA9] then lit "\\u2029" ++ go fuel (s.drop 2)
          else c :: s.take n ++ go fuel (s.drop n)

def marshalStrings (xs : List GoString) : GoString :=
  91 :: List.intercalate [44] (xs.map fun x => 34 :: escape x ++ [34]) ++ [93]

/--
What the `jsonb` column `bindings.members` accepts.  GORM sends an empty
`datatypes.JSON` as NULL, which `not null` rejects; any other text must be
well-formed UTF-8 that PostgreSQL parses as JSON.
-/
def jsonbAccepts (data : GoString) : Bool :=
  !data.isEmpty && utf8Valid data && (parse true data).isSome

/-! ## `jsonb` containment -/

def digitsValue (ds : GoString) : Nat := ds.foldl (fun n d => 10 * n + (d.toNat - 48)) 0

def stripZeros : Nat → Nat → Int → Nat × Int
  | 0, m, e => (m, e)
  | fuel + 1, m, e => if m ≠ 0 ∧ m % 10 = 0 then stripZeros fuel (m / 10) (e + 1) else (m, e)

/--
A number literal as PostgreSQL's `numeric` compares it: the sign and
`m · 10^e` with no trailing zero in `m`; zero has the one form `(false, 0, 0)`.
-/
def numberValue (raw : GoString) : Bool × Nat × Int :=
  let (neg, s) : Bool × GoString := match raw with
    | 45 :: t => (true, t)
    | s => (false, s)
  let (int, s) := s.span isDigit
  let (frac, s) : GoString × GoString := match s with
    | 46 :: t => t.span isDigit
    | s => ([], s)
  let exp : Int := match s with
    | _ :: 45 :: t => -(digitsValue t : Int)
    | _ :: 43 :: t => digitsValue t
    | _ :: t => digitsValue t
    | [] => 0
  match stripZeros raw.length (digitsValue (int ++ frac)) (exp - frac.length) with
  | (0, _) => (false, 0, 0)
  | (m, e) => (neg, m, e)

/-- `equalsJsonbScalarValue`: strings compare decoded, numbers by value; containers never. -/
def Value.scalarEq : Value → Value → Bool
  | .null, .null => true
  | .bool a, .bool b => a == b
  | .number a, .number b => numberValue a == numberValue b
  | .string a, .string b => unquote a == unquote b
  | _, _ => false

def Value.isScalar : Value → Bool
  | .array _ | .object _ => false
  | _ => true

/-- The value `jsonb` keeps for a key: that of the key's last occurrence. -/
def lookupKey (fields : List (GoString × Value)) (key : GoString) : Option Value :=
  (fields.reverse.find? fun f => unquote f.1 == unquote key).map (·.2)

mutual
/--
`JsonbDeepContains` on containers of one kind: each element of the
contained array is matched by some element, each key of the contained object
(its last occurrence) by the value of that key.
-/
def Value.containsNested (a : Value) : Value → Bool
  | .array bs => match a with
    | .array as => containsElems as bs
    | _ => false
  | .object gs => match a with
    | .object fs => containsFields fs gs
    | _ => false
  | _ => false
termination_by structural b => b

def containsElems (as : List Value) : List Value → Bool
  | [] => true
  | b :: bs =>
    as.any (fun a => if b.isScalar then a.scalarEq b else a.containsNested b) &&
      containsElems as bs
termination_by structural bs => bs

def containsFields (fs : List (GoString × Value)) : List (GoString × Value) → Bool
  | [] => true
  | (k, v) :: gs =>
    (gs.any (fun g => unquote g.1 == unquote k) ||
      match lookupKey fs k with
      | some a => if v.isScalar then a.scalarEq v else a.containsNested v
      | none => false) &&
    containsFields fs gs
termination_by structural gs => gs
end

/--
`a @> b` on two documents: a scalar document is a one-element array that
contains only a scalar; otherwise containers of one kind are compared.
-/
def Value.jsonbContains (a b : Value) : Bool :=
  if b.isScalar then
    match a with
    | .array as => as.any (·.scalarEq b)
    | a => a.scalarEq b
  else a.containsNested b

end Iam.Json
