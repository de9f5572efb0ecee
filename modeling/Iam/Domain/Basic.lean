import Mathlib.Data.List.Basic
import Mathlib.Algebra.Group.Nat.Basic
import Mathlib.Algebra.Group.Int

/-!
# Go values

A Go `string` is a sequence of bytes, and the service compares principals,
member strings and role names byte for byte, so a `GoString` is a list of
bytes rather than a Lean `String`.  Identifiers are the 128-bit `uuid.UUID`
of `github.com/google/uuid`; the zero value `uuid.Nil` is the identifier that
the `BeforeCreate` hooks replace by a fresh one.
-/

namespace Iam

abbrev GoString := List UInt8

def lit (s : String) : GoString := s.toList.map fun c => c.toNat.toUInt8

abbrev UUID := BitVec 128

def UUID.nil : UUID := 0

def hexDigit (n : Nat) : UInt8 := if n < 10 then (48 + n).toUInt8 else (87 + n).toUInt8

def UUID.nibble (u : UUID) (i : Nat) : UInt8 := hexDigit (u.toNat / 2 ^ (4 * (31 - i)) % 16)

/--
`UUID.String`: the 36-byte form `xxxxxxxx-xxxx-xxxx-xxxx-xxxxxxxxxxxx`.
It is also what `%s` prints for a `uuid.UUID`.
-/
def UUID.string (u : UUID) : GoString :=
  let digits (a n : Nat) := (List.range' a n).map u.nibble
  digits 0 8 ++ 45 :: digits 8 4 ++ 45 :: digits 12 4 ++ 45 :: digits 16 4 ++ 45 :: digits 20 12

abbrev StringMap := List (GoString × GoString)

inductive DbError where
  /-- The connection or the statement failed. -/
  | connection
  /-- A primary key or unique index already holds the value. -/
  | uniqueViolation
  /-- A foreign key names no row. -/
  | foreignKeyViolation
  /-- The column type or a `not null` rejects the value. -/
  | invalidInput
  /-- An `ON CONFLICT DO UPDATE` that would change one row twice. -/
  | cardinalityViolation
  /-- `gorm.ErrRecordNotFound`, from a `First` that matches no live row. -/
  | recordNotFound
  /-- The recursive ancestor query never ends; the model stops it here. -/
  | nonTermination
  deriving DecidableEq, Repr

inductive GoError where
  /-- An error returned by the store unchanged. -/
  | db (e : DbError)
  /-- `fmt.Errorf(msg)`. -/
  | text (msg : String)
  /-- `fmt.Errorf(msg + ": %w", inner)`. -/
  | wrap (msg : String) (inner : GoError)
  deriving DecidableEq, Repr

end Iam
