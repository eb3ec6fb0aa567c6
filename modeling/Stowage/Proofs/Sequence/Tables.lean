import Stowage.Proofs.Sequence.Texts

/-!
# String tables are read exactly as they are written

Reading entries succeeds on what was written, followed by anything, and on nothing else
(`readEntries_eq_ok_iff`). So a payload is a whole table with an expected number of entries exactly
when it was written from so many (`exactEntries?_eq_some_iff`), and every entry takes more bytes in
a table than it has (`length_tableBytes`).

A payload that is no table is refused for the first place where it is cut off (`Broken`): in its
count, in the length of an entry, or in an entry. Both readers together are described by
`entries_exact`.
-/

set_option autoImplicit false

namespace Stowage

namespace StringTable

/-- A count or a length in its four bytes. -/
theorem ofNat_toNat_take {bytes : Bytes} (h : countSize ≤ bytes.length) :
    Bytes.ofNat countSize (Bytes.toNat (bytes.take countSize)) = bytes.take countSize ∧
      Bytes.toNat (bytes.take countSize) < sizeLimit := by
  have hlength : (bytes.take countSize).length = countSize := by
    rw [List.length_take, Nat.min_eq_left h]
  have hbytes := Bytes.ofNat_toNat (bytes.take countSize)
  have hlt := Bytes.toNat_lt (bytes.take countSize)
  rw [hlength] at hbytes hlt
  exact ⟨hbytes, hlt⟩

/-- Entries are read from what was written, and what lies behind them is left. -/
theorem readEntries_eq_ok_iff {number count : Nat} {bytes rest : Bytes} {entries : List Bytes} :
    readEntries number count bytes = .ok (entries, rest) ↔
      bytes = entries.flatMap entryBytes ++ rest ∧ entries.length = count ∧
        ∀ entry ∈ entries, entry.length < sizeLimit := by
  constructor
  · intro h
    induction count generalizing number bytes entries with
    | zero =>
      obtain ⟨rfl, rfl⟩ := Prod.mk.inj (Except.ok.inj h)
      exact ⟨rfl, rfl, fun entry hentry ↦ absurd hentry List.not_mem_nil⟩
    | succ count ih =>
      rw [readEntries] at h
      split at h
      · exact absurd h (by simp)
      · next hlong =>
        obtain ⟨hcount, hlt⟩ := ofNat_toNat_take (Nat.not_lt.1 hlong)
        dsimp only at h
        generalize Bytes.toNat (bytes.take countSize) = length at h hcount hlt
        split at h
        · exact absurd h (by simp)
        · next henough =>
          have hlength : ((bytes.drop countSize).take length).length = length := by
            rw [List.length_take, Nat.min_eq_left (Nat.not_lt.1 henough)]
          split at h
          · next others after hothers =>
            obtain ⟨rfl, rfl⟩ := Prod.mk.inj (Except.ok.inj h)
            obtain ⟨hrest, hsame, hshort⟩ := ih hothers
            refine ⟨?_, by rw [List.length_cons, hsame], fun entry hentry ↦ ?_⟩
            · rw [List.flatMap_cons, entryBytes, hlength, hcount, List.append_assoc,
                List.append_assoc, ← hrest, List.take_append_drop, List.take_append_drop]
            · rcases List.mem_cons.1 hentry with rfl | hentry
              · rw [hlength]
                exact hlt
              · exact hshort entry hentry
          · exact absurd h (by simp)
  · rintro ⟨rfl, rfl, hshort⟩
    exact readEntries_flatMap hshort number rest

/-- Whether the payload is what is written for the entries. -/
def IsTable (payload : Bytes) (entries : List Bytes) : Prop := ofEntries entries = .ok payload

/-- Reading a table gives its entries and what lies behind it. -/
theorem read_eq_ok_iff {payload rest : Bytes} {entries : List Bytes} :
    read payload = .ok (entries, rest) ↔
      ∃ table, payload = table ++ rest ∧ IsTable table entries := by
  constructor
  · intro h
    unfold read count? at h
    by_cases hshort : payload.length < countSize
    · rw [if_pos hshort] at h
      exact absurd h (by simp)
    · rw [if_neg hshort] at h
      obtain ⟨hcount, hlt⟩ := ofNat_toNat_take (Nat.not_lt.1 hshort)
      obtain ⟨hrest, hsame, hentries⟩ := readEntries_eq_ok_iff.1 h
      rw [← hsame] at hcount hlt
      refine ⟨tableBytes entries, ?_, ofEntries_eq_ok_iff.2 ⟨rfl, hlt, hentries⟩⟩
      rw [tableBytes, hcount, List.append_assoc, ← hrest, List.take_append_drop]
  · rintro ⟨table, rfl, htable⟩
    obtain ⟨rfl, hcount, hentries⟩ := ofEntries_eq_ok_iff.1 htable
    have hlength := Bytes.length_ofNat countSize entries.length
    rw [read, tableBytes, List.append_assoc, count?_append hcount, List.drop_left' hlength]
    exact readEntries_flatMap hentries 0 rest

/-- A payload has an expected number of entries and nothing else exactly when it is their table. -/
theorem exactEntries?_eq_some_iff {payload : Bytes} {expected : Int} {entries : List Bytes} :
    exactEntries? payload expected = some entries ↔
      IsTable payload entries ∧ (entries.length : Int) = expected := by
  have hcount {found : List Bytes} (h : read payload = .ok (found, [])) :
      count? payload = some found.length := by
    obtain ⟨table, hpayload, htable⟩ := read_eq_ok_iff.1 h
    obtain ⟨rfl, hlt, _⟩ := ofEntries_eq_ok_iff.1 htable
    rw [hpayload, List.append_nil, tableBytes, count?_append hlt]
  constructor
  · intro h
    unfold exactEntries? at h
    split at h
    · exact absurd h (by simp)
    · next count hstored =>
      split at h
      · exact absurd h (by simp)
      · next hexpected =>
        split at h
        · next found hread =>
          obtain rfl := Option.some.inj h
          obtain rfl := Option.some.inj (hstored.symm.trans (hcount hread))
          obtain ⟨table, hpayload, htable⟩ := read_eq_ok_iff.1 hread
          rw [List.append_nil] at hpayload
          exact ⟨hpayload ▸ htable, Decidable.not_not.1 hexpected⟩
        · exact absurd h (by simp)
  · rintro ⟨htable, rfl⟩
    have hread : read payload = .ok (entries, []) :=
      read_eq_ok_iff.2 ⟨payload, (List.append_nil payload).symm, htable⟩
    rw [exactEntries?, hcount hread]
    dsimp only
    rw [if_neg (fun hne ↦ hne rfl), hread]

/-- Every entry takes four bytes more in a table than it has, and the count another four. -/
theorem length_tableBytes (entries : List Bytes) :
    (tableBytes entries).length =
      countSize + entries.length * countSize + entries.flatten.length := by
  have hentries : (entries.flatMap entryBytes).length =
      entries.length * countSize + entries.flatten.length := by
    induction entries with
    | nil => rfl
    | cons entry rest ih =>
      rw [List.flatMap_cons, List.length_append, ih, entryBytes, List.length_append,
        Bytes.length_ofNat, List.length_cons, List.flatten_cons, List.length_append, Nat.succ_mul]
      omega
  rw [tableBytes, List.length_append, Bytes.length_ofNat, hentries]
  omega

/-! ### Payloads that are cut off -/

/-- Bytes that begin with no whole entry, and the fault of the entry with the given number. -/
inductive Cut (number : Nat) (bytes : Bytes) : InvalidFault → Prop where
  /-- The length is cut off. -/
  | length (hshort : bytes.length < countSize) : Cut number bytes (.tableTruncated number)
  /-- The length is there, and the entry behind it is cut off. -/
  | entry (hlong : countSize ≤ bytes.length)
      (hshort : bytes.length < countSize + Bytes.toNat (bytes.take countSize)) :
      Cut number bytes (.tableOverrun number)

/-- A payload that begins with no whole table, and its fault. -/
inductive Broken (payload : Bytes) : InvalidFault → Prop where
  /-- The count is cut off. -/
  | atCount (hshort : payload.length < countSize) : Broken payload .tableTooShort
  /-- Fewer whole entries follow the count than it says, and then none. -/
  | atEntry {count : Nat} {whole : List Bytes} {rest : Bytes} {cause : InvalidFault}
      (hpayload : payload = Bytes.ofNat countSize count ++ (whole.flatMap entryBytes ++ rest))
      (hcount : count < sizeLimit) (hwhole : ∀ entry ∈ whole, entry.length < sizeLimit)
      (hfewer : whole.length < count) (hcut : Cut whole.length rest cause) : Broken payload cause

/-- Where no whole entry comes, no further entry is read. -/
theorem Cut.readEntries_eq {number : Nat} {bytes : Bytes} {cause : InvalidFault}
    (h : Cut number bytes cause) (count : Nat) :
    readEntries number (count + 1) bytes = .error (.invalid cause) := by
  rw [readEntries]
  cases h with
  | length hshort => rw [if_pos hshort]
  | entry hlong hshort =>
    rw [if_neg (Nat.not_lt.2 hlong)]
    dsimp only
    rw [if_pos]
    rw [List.length_drop]
    omega

/-- Entries are read up to the last one, or up to one that is cut off. -/
theorem readEntries_cases (number count : Nat) (bytes : Bytes) :
    (∃ entries rest, readEntries number count bytes = .ok (entries, rest)) ∨
      ∃ (whole : List Bytes) (rest : Bytes) (cause : InvalidFault),
        bytes = whole.flatMap entryBytes ++ rest ∧ whole.length < count ∧
          (∀ entry ∈ whole, entry.length < sizeLimit) ∧ Cut (number + whole.length) rest cause := by
  induction count generalizing number bytes with
  | zero => exact .inl ⟨[], bytes, rfl⟩
  | succ count ih =>
    by_cases hshort : bytes.length < countSize
    · exact .inr ⟨[], bytes, _, rfl, Nat.succ_pos _, by simp, .length hshort⟩
    have hlong := Nat.not_lt.1 hshort
    by_cases hover : bytes.length < countSize + Bytes.toNat (bytes.take countSize)
    · exact .inr ⟨[], bytes, _, rfl, Nat.succ_pos _, by simp, .entry hlong hover⟩
    -- a whole entry comes first
    obtain ⟨entry, rest, rfl, hentry⟩ : ∃ entry rest, bytes = entryBytes entry ++ rest ∧
        entry.length < sizeLimit := by
      obtain ⟨hcount, hlt⟩ := ofNat_toNat_take hlong
      generalize Bytes.toNat (bytes.take countSize) = length at hcount hlt hover
      have hlength : ((bytes.drop countSize).take length).length = length := by
        rw [List.length_take, List.length_drop]
        omega
      refine ⟨(bytes.drop countSize).take length, (bytes.drop countSize).drop length, ?_,
        hlength.symm ▸ hlt⟩
      rw [entryBytes, hlength, hcount, List.append_assoc, List.take_append_drop,
        List.take_append_drop]
    rw [readEntries_entryBytes hentry]
    rcases ih (number + 1) rest with ⟨entries, after, hread⟩ |
      ⟨whole, after, cause, rfl, hfewer, hwhole, hcut⟩
    · exact .inl ⟨entry :: entries, after, by rw [hread]; rfl⟩
    · refine .inr ⟨entry :: whole, after, cause, ?_, Nat.succ_lt_succ hfewer,
        List.forall_mem_cons.2 ⟨hentry, hwhole⟩, ?_⟩
      · rw [List.flatMap_cons, List.append_assoc]
      · rw [List.length_cons, Nat.add_comm whole.length, ← Nat.add_assoc]
        exact hcut

/-- A payload that begins with no whole table is refused with its fault. -/
theorem Broken.entries_eq {payload : Bytes} {cause : InvalidFault} (h : Broken payload cause) :
    entries payload = .error (.invalid cause) := by
  cases h with
  | atCount hshort =>
    rw [entries, read, count?, if_pos hshort]
    rfl
  | @atEntry count whole rest _ hpayload hcount hwhole hfewer hcut =>
    subst hpayload
    have hlength := Bytes.length_ofNat countSize count
    obtain ⟨missing, rfl⟩ := Nat.exists_eq_add_of_lt hfewer
    rw [entries, read, count?_append hcount, List.drop_left' hlength]
    dsimp only
    rw [Nat.add_assoc, readEntries_append hwhole, Nat.zero_add, hcut.readEntries_eq]
    rfl

/-- A payload begins with a whole table or else is cut off somewhere. -/
theorem entries_cases (payload : Bytes) :
    (∃ table, entries payload = .ok table) ∨ ∃ cause, Broken payload cause := by
  by_cases hshort : payload.length < countSize
  · exact .inr ⟨_, .atCount hshort⟩
  obtain ⟨hstored, hlt⟩ := ofNat_toNat_take (Nat.not_lt.1 hshort)
  rcases readEntries_cases 0 (Bytes.toNat (payload.take countSize)) (payload.drop countSize) with
    ⟨table, rest, hread⟩ | ⟨whole, rest, cause, hrest, hfewer, hwhole, hcut⟩
  · refine .inl ⟨table, ?_⟩
    rw [entries, read, count?, if_neg hshort]
    dsimp only
    rw [hread]
    rfl
  · rw [Nat.zero_add] at hcut
    refine .inr ⟨cause, .atEntry ?_ hlt hwhole hfewer hcut⟩
    rw [hstored, ← hrest, List.take_append_drop]

/-- A payload is refused for the place where it is cut off. -/
theorem entries_eq_error_iff {payload : Bytes} {fault : Fault} :
    entries payload = .error fault ↔ ∃ cause, fault = .invalid cause ∧ Broken payload cause := by
  constructor
  · intro h
    rcases entries_cases payload with ⟨table, hread⟩ | ⟨cause, hbroken⟩
    · exact absurd (hread.symm.trans h) (by simp)
    · exact ⟨cause, Except.error.inj (h.symm.trans hbroken.entries_eq), hbroken⟩
  · rintro ⟨cause, rfl, hbroken⟩
    exact hbroken.entries_eq

/-- The entries that are read are those of the table that the payload begins with. -/
theorem entries_eq_ok_iff {payload : Bytes} {table : List Bytes} :
    entries payload = .ok table ↔
      ∃ written rest, payload = written ++ rest ∧ IsTable written table := by
  rw [entries, Outcome.map_eq_ok]
  constructor
  · rintro ⟨⟨_, rest⟩, hread, rfl⟩
    obtain ⟨written, hpayload, htable⟩ := read_eq_ok_iff.1 hread
    exact ⟨written, rest, hpayload, htable⟩
  · rintro ⟨written, rest, hpayload, htable⟩
    exact ⟨(table, rest), read_eq_ok_iff.2 ⟨written, hpayload, htable⟩, rfl⟩

/-- String tables are read exactly as they are written.

The entries of a payload are those of the table that it begins with, whatever lies behind; where it
begins with none, it is refused with an invalid value that names the place where it is cut off. The
payload has exactly the expected number of entries when it is a table of so many and nothing else,
and otherwise none. -/
theorem entries_exact (payload : Bytes) :
    (∀ table, entries payload = .ok table ↔
      ∃ written rest, payload = written ++ rest ∧ IsTable written table) ∧
    (∀ fault, entries payload = .error fault ↔
      ∃ cause, fault = .invalid cause ∧ Broken payload cause) ∧
    ∀ expected : Nat,
      (∀ table, exactEntries? payload expected = some table ↔
        IsTable payload table ∧ table.length = expected) ∧
      (exactEntries? payload expected = none ↔
        ∀ table, IsTable payload table → table.length ≠ expected) := by
  have hexact (expected : Nat) (table : List Bytes) :
      exactEntries? payload expected = some table ↔
        IsTable payload table ∧ table.length = expected := by
    rw [exactEntries?_eq_some_iff, Int.natCast_inj]
  refine ⟨fun _ ↦ entries_eq_ok_iff, fun _ ↦ entries_eq_error_iff, fun expected ↦
    ⟨hexact expected, ?_⟩⟩
  rw [Option.eq_none_iff_forall_ne_some]
  refine forall_congr' fun table ↦ ?_
  rw [ne_eq, hexact, not_and]

end StringTable

end Stowage
