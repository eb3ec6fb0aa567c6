import Stowage.Proofs.Bytes
import Stowage.Proofs.Outcome
import Stowage.Sequence.Capture

/-!
# Captured texts

A string table is written when its counts and lengths take four bytes
(`StringTable.ofEntries_eq_ok_iff`), and then it is read back (`StringTable.entries_tableBytes`). So
the captured element of some byte strings is decoded to their texts, whether they were decoded at
once or have to be read from the table (`Captured.decode_stringElement`).
-/

set_option autoImplicit false

namespace Stowage

/-- Valid text is read in the same way by both readers. -/
theorem Utf8.toTextLossy_of_toText? {bytes : Bytes} {text : String}
    (h : Utf8.toText? bytes = some text) : Utf8.toTextLossy bytes = text := by
  obtain ⟨chars, hchars, rfl⟩ := Option.map_eq_some_iff.1 h
  refine congrArg String.ofList ?_
  unfold Utf8.decode? at hchars
  unfold Utf8.decodeLossy
  generalize Utf8.scan none bytes = entries at hchars ⊢
  have hall := Outcome.mapM_eq_some_iff.1 hchars
  clear h hchars
  induction hall with
  | nil => rfl
  | @cons entry c _ _ hhead _ ih =>
    obtain rfl : entry = some c := hhead
    rw [List.map_cons, ih]
    rfl

theorem Utf8.map_toTextLossy {entries : List Bytes} {texts : List String}
    (h : entries.mapM Utf8.toText? = some texts) : entries.map Utf8.toTextLossy = texts := by
  have hall := Outcome.mapM_eq_some_iff.1 h
  clear h
  induction hall with
  | nil => rfl
  | cons hhead _ ih => rw [List.map_cons, ih, Utf8.toTextLossy_of_toText? hhead]

namespace StringTable

theorem fits_nil : Fits [] := ⟨Nat.two_pow_pos 32, fun _ hentry ↦ absurd hentry List.not_mem_nil⟩

/-- Entries are written when they are few and short enough, and refused otherwise. -/
theorem ofEntries_eq_ok_iff {entries : List Bytes} {payload : Bytes} :
    ofEntries entries = .ok payload ↔ payload = tableBytes entries ∧ Fits entries := by
  unfold ofEntries
  split
  · next hfits => exact ⟨fun h ↦ ⟨(Except.ok.inj h).symm, hfits⟩, fun h ↦ congrArg _ h.1.symm⟩
  · next hnot => exact ⟨fun h ↦ absurd h (by simp), fun h ↦ absurd h.2 hnot⟩

theorem toNat_ofNat_countSize {n : Nat} (h : n < sizeLimit) :
    Bytes.toNat (Bytes.ofNat countSize n) = n :=
  Bytes.ofNat_eq_of_lt (Nat.lt_of_lt_of_le h (by decide))

/-- A count that was written is read back. -/
theorem count?_append {count : Nat} (h : count < sizeLimit) (rest : Bytes) :
    count? (Bytes.ofNat countSize count ++ rest) = some count := by
  have hlength := Bytes.length_ofNat countSize count
  rw [count?, if_neg, List.take_left' hlength, toNat_ofNat_countSize h]
  rw [List.length_append, hlength]
  omega

/-- An entry that was written is read first. -/
theorem readEntries_entryBytes {entry : Bytes} (h : entry.length < sizeLimit)
    (number count : Nat) (bytes : Bytes) :
    readEntries number (count + 1) (entryBytes entry ++ bytes) =
      (readEntries (number + 1) count bytes).map fun found ↦ (entry :: found.1, found.2) := by
  have hcount := Bytes.length_ofNat countSize entry.length
  rw [entryBytes, List.append_assoc, readEntries, List.take_left' hcount, List.drop_left' hcount,
    toNat_ofNat_countSize h, if_neg, if_neg, List.take_left, List.drop_left]
  · rcases readEntries (number + 1) count bytes with _ | _ <;> rfl
  · rw [List.length_append]
    omega
  · rw [List.length_append, hcount]
    omega

/-- Entries that were written are read first. -/
theorem readEntries_append {entries : List Bytes} (h : ∀ entry ∈ entries, entry.length < sizeLimit)
    (number count : Nat) (bytes : Bytes) :
    readEntries number (entries.length + count) (entries.flatMap entryBytes ++ bytes) =
      (readEntries (number + entries.length) count bytes).map fun found ↦
        (entries ++ found.1, found.2) := by
  induction entries generalizing number with
  | nil =>
    rw [List.length_nil, Nat.zero_add]
    change readEntries number count bytes = _
    rcases readEntries number count bytes with _ | _ <;> rfl
  | cons entry others ih =>
    obtain ⟨hentry, hothers⟩ := List.forall_mem_cons.1 h
    rw [List.length_cons, Nat.add_right_comm, List.flatMap_cons, List.append_assoc,
      readEntries_entryBytes hentry, ih hothers, Nat.add_right_comm, Nat.add_assoc number]
    rcases readEntries (number + (others.length + 1)) count bytes with _ | _ <;> rfl

/-- Entries that were written are read back, and what lies behind them is left. -/
theorem readEntries_flatMap {entries : List Bytes} (h : ∀ entry ∈ entries, entry.length < sizeLimit)
    (number : Nat) (rest : Bytes) :
    readEntries number entries.length (entries.flatMap entryBytes ++ rest) =
      .ok (entries, rest) := by
  have hread := readEntries_append h number 0 rest
  rw [readEntries, Nat.add_zero] at hread
  simpa [Except.map] using hread

/-- A table that was written is read back. -/
theorem entries_tableBytes {table : List Bytes} (h : Fits table) :
    entries (tableBytes table) = .ok table := by
  have hlength := Bytes.length_ofNat countSize table.length
  have hread := readEntries_flatMap h.2 0 []
  rw [List.append_nil] at hread
  rw [entries, read, tableBytes, count?_append h.1, List.drop_left' hlength]
  dsimp only
  rw [hread]
  rfl

end StringTable

namespace Captured

/-- The values of an element that can be decoded. -/
theorem interpret_of_decode {base : ElementType} {captured : Captured} {values : List Value}
    (hdecode : decode base captured = .ok values)
    (hlength : (values.length : Int) = captured.length) :
    interpret base captured = .ok values := by
  unfold interpret
  by_cases hempty : captured.length = 0
  · have hnone : values = [] := List.length_eq_zero_iff.1 (by omega)
    rw [if_pos hempty, hnone]
  · rw [if_neg hempty, hdecode]
    rfl

/-- The element of byte strings that fit in a table. -/
def stringElement (entries : List Bytes) (complete : Bool) (length : Int) : Captured :=
  .mk (StringTable.tableBytes entries) length (decodedTexts entries complete) none

/-- Byte strings make up an element when they fit in a table, and are refused otherwise. -/
theorem okIff_ofStrings (entries : List Bytes) (complete : Bool) (length : Int) :
    Outcome.OkIff (StringTable.Fits entries) .storage (· = stringElement entries complete length)
      (ofStrings entries complete length) := by
  refine ⟨fun hfits ↦ ⟨_, ?_, rfl⟩, fun hnot ↦ ?_⟩
  · rw [ofStrings, StringTable.ofEntries_eq_ok_iff.2 ⟨rfl, hfits⟩]
    rfl
  · rw [ofStrings, StringTable.ofEntries, if_neg hnot]
    rfl

/-- Byte strings that fit in a table make up an element. -/
theorem ofStrings_eq_ok {entries : List Bytes} (complete : Bool) (length : Int)
    (hfits : StringTable.Fits entries) :
    ofStrings entries complete length = .ok (stringElement entries complete length) := by
  obtain ⟨_, helement, rfl⟩ := (okIff_ofStrings entries complete length).granted hfits
  exact helement

/-- The table of byte strings is decoded to their texts. -/
theorem decodeTexts_tableBytes {entries : List Bytes} (h : StringTable.Fits entries) :
    decodeTexts (StringTable.tableBytes entries) entries.length =
      .ok (entries.map fun entry ↦ .text (Utf8.toTextLossy entry)) := by
  have hslice : Bytes.slice entries 0 entries.length = entries := by
    have hcast := Bytes.slice_natCast entries 0 entries.length
    rw [List.take_length] at hcast
    exact hcast
  rw [decodeTexts, StringTable.entries_tableBytes h]
  dsimp only
  rw [hslice, List.length_map, Int.sub_self, if_neg (by decide)]
  exact congrArg Except.ok (List.append_nil _)

/-- Byte strings that are decoded at once become the texts that the table gives. -/
theorem eq_of_decodedTexts {entries : List Bytes} {complete : Bool} {values : List Value}
    (h : decodedTexts entries complete = some values) :
    values = entries.map fun entry ↦ .text (Utf8.toTextLossy entry) := by
  unfold decodedTexts at h
  split at h
  · obtain ⟨texts, htexts, rfl⟩ := Option.map_eq_some_iff.1 h
    rw [← Utf8.map_toTextLossy htexts, List.map_map]
    rfl
  · exact absurd h (by simp)

/-- Assumes: as many byte strings as the element has values, which fit in a string table. The
element that holds them is decoded to their texts. -/
theorem decode_stringElement {base : ElementType} (hbase : base.isText = true)
    {entries : List Bytes} (complete : Bool) (h : StringTable.Fits entries) :
    decode base (stringElement entries complete entries.length) =
      .ok (entries.map fun entry ↦ .text (Utf8.toTextLossy entry)) := by
  unfold stringElement
  rcases hdecoded : decodedTexts entries complete with _ | values
  · have htable : decode base (.mk (StringTable.tableBytes entries) entries.length none none) =
        decodeTexts (StringTable.tableBytes entries) entries.length := by
      cases base with
      | fixedString _ | string => rfl
      | _ => exact absurd hbase Bool.false_ne_true
    rw [htable, decodeTexts_tableBytes h]
  · rw [decode, eq_of_decodedTexts hdecoded, if_neg]
    rw [List.length_map]
    exact fun hne ↦ hne rfl

end Captured

end Stowage
