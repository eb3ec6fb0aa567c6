import Stowage.Bytes
import Stowage.Fault.Basic

/-!
# String tables

A string table holds byte strings behind their count, each behind its own length; counts and
lengths take four bytes. `ofEntries` writes a table, and refuses a count or a length that does not
fit in its bytes. `entries` reads one and passes over what lies behind the last entry;
`exactEntries?` reads a table that is the whole payload and has the expected number of entries.
-/

set_option autoImplicit false

namespace Stowage.StringTable

/-- Bytes of a count or a length. -/
def countSize : Nat := 4

/-- Counts and lengths below this fit in their four bytes. -/
def sizeLimit : Nat := Nat.pow 2 32

/-- An entry behind its length. -/
def entryBytes (entry : Bytes) : Bytes := Bytes.ofNat countSize entry.length ++ entry

/-- The bytes of a table. -/
def tableBytes (entries : List Bytes) : Bytes :=
  Bytes.ofNat countSize entries.length ++ entries.flatMap entryBytes

/-- Entries that are few and short enough for a table. -/
def Fits (entries : List Bytes) : Prop :=
  entries.length < sizeLimit ∧ ∀ entry ∈ entries, entry.length < sizeLimit

instance (entries : List Bytes) : Decidable (Fits entries) := inferInstanceAs (Decidable (_ ∧ _))

/-- The table of byte strings. -/
def ofEntries (entries : List Bytes) : Except Fault Bytes :=
  if Fits entries then .ok (tableBytes entries) else .error .storage

/-- Reads `count` entries, the first of which has the given number, and gives what lies behind
them. -/
def readEntries : (number count : Nat) → Bytes → Except Fault (List Bytes × Bytes)
  | _, 0, rest => .ok ([], rest)
  | number, count + 1, bytes =>
    if bytes.length < countSize then .error (.invalid (.tableTruncated number))
    else
      let length := Bytes.toNat (bytes.take countSize)
      let rest := bytes.drop countSize
      if rest.length < length then .error (.invalid (.tableOverrun number))
      else
        match readEntries (number + 1) count (rest.drop length) with
        | .ok (entries, after) => .ok (rest.take length :: entries, after)
        | .error fault => .error fault

/-- The count of a table. -/
def count? (payload : Bytes) : Option Nat :=
  if payload.length < countSize then none else some (Bytes.toNat (payload.take countSize))

/-- The entries of a table and what lies behind it. -/
def read (payload : Bytes) : Except Fault (List Bytes × Bytes) :=
  match count? payload with
  | none => .error (.invalid .tableTooShort)
  | some count => readEntries 0 count (payload.drop countSize)

/-- The entries of a table. -/
def entries (payload : Bytes) : Except Fault (List Bytes) := (read payload).map (·.1)

/-- The entries of a payload that is exactly a table with the expected number of entries. -/
def exactEntries? (payload : Bytes) (expected : Int) : Option (List Bytes) :=
  match count? payload with
  | none => none
  | some count =>
    if (count : Int) ≠ expected then none
    else
      match read payload with
      | .ok (entries, []) => some entries
      | _ => none

end Stowage.StringTable
