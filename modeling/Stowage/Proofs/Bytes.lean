import Stowage.Buffer
import Stowage.Heap
import Stowage.Proofs.Outcome
import Mathlib.Algebra.Group.Nat.Defs

/-!
# Parts of byte sequences

`Bytes.cut` takes bytes out at a position and `Heap.overwrite` puts bytes in the place of others.
The lemmas say how the two go together: a cut sees what was written into it and nothing written
beside it, and writes next to or inside each other are one write. Words are cuts and overwrites at
positions inside their buffer.
-/

set_option autoImplicit false

namespace Stowage.Bytes

open Heap (overwrite)

/-! ### Up to the first zero byte -/

theorem ne_zero_of_mem_untilNul {bytes : Bytes} {b : UInt8} (h : b ∈ untilNul bytes) : b ≠ 0 := by
  have hall : (bytes.takeWhile (· ≠ 0)).all (· ≠ 0) = true := List.all_takeWhile
  simpa using List.all_eq_true.1 hall b h

/-- A sequence with a zero byte is what stands before the first one, the zero byte, and the rest. -/
theorem untilNul_append_cons {bytes : Bytes} (h : bytes.contains 0 = true) :
    ∃ rest, bytes = untilNul bytes ++ 0 :: rest := by
  induction bytes with
  | nil => exact absurd h (by simp)
  | cons b rest ih =>
    by_cases hb : b = 0
    · exact ⟨rest, by simp [untilNul, hb]⟩
    · have hrest : rest.contains 0 = true := by
        have hne : ¬ (0 : UInt8) = b := fun heq ↦ hb heq.symm
        simpa [hne] using h
      obtain ⟨tail, htail⟩ := ih hrest
      refine ⟨tail, ?_⟩
      have hstep : untilNul (b :: rest) = b :: untilNul rest := by simp [untilNul, hb]
      rw [hstep, List.cons_append, ← htail]

theorem untilNul_eq_self {text : Bytes} (h : ∀ b ∈ text, b ≠ 0) : untilNul text = text := by
  induction text with
  | nil => rfl
  | cons b text ih =>
    have hb := h b List.mem_cons_self
    have hrest := ih fun c hc ↦ h c (List.mem_cons_of_mem _ hc)
    simpa [untilNul, hb] using hrest

/-- A zero byte ends a text, whatever follows. -/
theorem untilNul_append_zero (text rest : Bytes) :
    untilNul (text ++ 0 :: rest) = untilNul text := by
  induction text with
  | nil => simp [untilNul]
  | cons b text ih =>
    by_cases hb : b = 0
    · simp [untilNul, hb]
    · simpa [untilNul, hb] using ih

/-! ### Padding -/

theorem length_padTo (length : Nat) (bytes : Bytes) :
    (padTo length bytes).length = max bytes.length length := by
  simp only [padTo, List.length_append, length_zeros]
  omega

theorem length_padTo_one_pos (bytes : Bytes) : 0 < (padTo 1 bytes).length := by
  rw [length_padTo]
  omega

theorem padTo_of_le {length : Nat} {bytes : Bytes} (h : length ≤ bytes.length) :
    padTo length bytes = bytes := by
  have hzero : length - bytes.length = 0 := by omega
  simp [padTo, zeros, hzero]

theorem zeros_append_zeros (m n : Nat) : zeros m ++ zeros n = zeros (m + n) := by
  simp [zeros]

/-- Zero bytes that are appended in parts are appended. -/
theorem padTo_padTo_append_zeros {length inner count : Nat} {bytes : Bytes}
    (h : max inner bytes.length + count ≤ length) :
    padTo length (padTo inner bytes ++ zeros count) = padTo length bytes := by
  have hcount : inner - bytes.length + count +
      (length - (bytes.length + (inner - bytes.length + count))) = length - bytes.length := by
    omega
  simp only [padTo, List.append_assoc, zeros_append_zeros, List.length_append, length_zeros, hcount]

theorem padTo_padTo {length inner : Nat} {bytes : Bytes} (h : max inner bytes.length ≤ length) :
    padTo length (padTo inner bytes) = padTo length bytes := by
  have happend : padTo length (padTo inner bytes ++ zeros 0) = padTo length bytes :=
    padTo_padTo_append_zeros h
  rwa [show zeros 0 = [] from rfl, List.append_nil] at happend

/-- Zero bytes behind the end change no byte. -/
theorem getD_padTo (length : Nat) (bytes : Bytes) (i : Nat) :
    (padTo length bytes).getD i 0 = bytes.getD i 0 := by
  simp only [padTo, zeros, List.getD_eq_getElem?_getD, List.getElem?_append,
    List.getElem?_replicate]
  split
  · rfl
  · next hbehind =>
    rw [List.getElem?_eq_none (Nat.not_lt.1 hbehind)]
    split <;> rfl

theorem take_padTo (length : Nat) (bytes : Bytes) :
    (padTo length bytes).take bytes.length = bytes := by
  simp [padTo]

/-! ### Cuts and overwrites -/

/-- The bytes at a position. -/
def cut (bytes : Bytes) (start count : Nat) : Bytes := (bytes.drop start).take count

theorem length_cut {bytes : Bytes} {start count : Nat} (h : start + count ≤ bytes.length) :
    (cut bytes start count).length = count := by
  simp only [cut, List.length_take, List.length_drop]
  omega

theorem getElem?_cut (bytes : Bytes) (start count i : Nat) :
    (cut bytes start count)[i]? = if i < count then bytes[start + i]? else none := by
  unfold cut
  by_cases hi : i < count
  · rw [if_pos hi, List.getElem?_take_of_lt hi, List.getElem?_drop]
  · rw [if_neg hi, List.getElem?_eq_none]
    rw [List.length_take]
    omega

theorem cut_zero_length (bytes : Bytes) : cut bytes 0 bytes.length = bytes := by
  simp [cut]

/-- A cut that ends before it starts is empty. -/
theorem slice_of_lt {start stop : Int} (bytes : Bytes) (hstop : 0 ≤ stop) (h : stop < start) :
    slice bytes start stop = [] := by
  obtain ⟨stop, rfl⟩ := Int.eq_ofNat_of_zero_le hstop
  obtain ⟨start, rfl⟩ := Int.eq_ofNat_of_zero_le (by omega : (0 : Int) ≤ start)
  rw [slice_natCast, List.drop_eq_nil_iff, List.length_take]
  omega

theorem cut_append_left {first : Bytes} (rest : Bytes) {start count : Nat}
    (h : start + count ≤ first.length) :
    cut (first ++ rest) start count = cut first start count := by
  have hroom : count ≤ (first.drop start).length := by
    rw [List.length_drop]
    omega
  rw [cut, cut, List.drop_append_of_le_length (by omega), List.take_append_of_le_length hroom]

theorem cut_append_right (first rest : Bytes) (start count : Nat) :
    cut (first ++ rest) (first.length + start) count = cut rest start count := by
  rw [cut, cut, List.drop_length_add_append]

/-- Behind the end there is nothing to cut. -/
theorem cut_of_length_le {bytes : Bytes} {start : Nat} (h : bytes.length ≤ start) (count : Nat) :
    cut bytes start count = [] := by
  rw [cut, List.drop_of_length_le h, List.take_nil]

theorem cut_cut (bytes : Bytes) {start count inner length : Nat} (h : inner + length ≤ count) :
    cut (cut bytes start count) inner length = cut bytes (start + inner) length := by
  apply List.ext_getElem?
  intro i
  simp only [getElem?_cut]
  by_cases hi : i < length
  · rw [if_pos hi, if_pos hi, if_pos (by omega), Nat.add_assoc]
  · rw [if_neg hi, if_neg hi]

theorem length_overwrite {offset : Nat} {bytes data : Bytes}
    (h : offset + bytes.length ≤ data.length) :
    (overwrite offset bytes data).length = data.length := by
  simp only [overwrite, List.length_append, List.length_take, List.length_drop]
  omega

theorem getElem?_overwrite {offset : Nat} {bytes data : Bytes} (i : Nat)
    (h : offset + bytes.length ≤ data.length) :
    (overwrite offset bytes data)[i]? =
      if i < offset then data[i]? else (bytes[i - offset]?).or data[i]? := by
  have htake : (data.take offset).length = offset := by
    rw [List.length_take]
    omega
  unfold overwrite
  by_cases hbelow : i < offset
  · rw [if_pos hbelow, List.append_assoc, List.getElem?_append_left (by omega),
      List.getElem?_take_of_lt hbelow]
  · rw [if_neg hbelow, List.append_assoc, List.getElem?_append_right (by omega), htake]
    by_cases hinside : i - offset < bytes.length
    · rw [List.getElem?_append_left hinside, List.getElem?_eq_getElem hinside]
      rfl
    · have hindex : offset + bytes.length + (i - offset - bytes.length) = i := by omega
      have hnone : bytes[i - offset]? = none := List.getElem?_eq_none (by omega)
      rw [List.getElem?_append_right (by omega), List.getElem?_drop, hindex, hnone]
      rfl

/-- A byte that is written over. -/
theorem getElem?_overwrite_inside {offset : Nat} {bytes data : Bytes} {i : Nat}
    (h : offset + bytes.length ≤ data.length) (hstart : offset ≤ i)
    (hstop : i < offset + bytes.length) :
    (overwrite offset bytes data)[i]? = bytes[i - offset]? := by
  rw [getElem?_overwrite i h, if_neg (by omega), List.getElem?_eq_getElem (by omega)]
  rfl

/-- A byte that is not written over. -/
theorem getElem?_overwrite_outside {offset : Nat} {bytes data : Bytes} {i : Nat}
    (h : offset + bytes.length ≤ data.length) (hi : i < offset ∨ offset + bytes.length ≤ i) :
    (overwrite offset bytes data)[i]? = data[i]? := by
  rw [getElem?_overwrite i h]
  by_cases hbelow : i < offset
  · rw [if_pos hbelow]
  · have hnone : bytes[i - offset]? = none := List.getElem?_eq_none (by omega)
    rw [if_neg hbelow, hnone]
    rfl

/-- A cut beside what was written over. -/
theorem cut_overwrite_outside {offset start count : Nat} {bytes data : Bytes}
    (h : offset + bytes.length ≤ data.length)
    (hbeside : start + count ≤ offset ∨ offset + bytes.length ≤ start) :
    cut (overwrite offset bytes data) start count = cut data start count := by
  apply List.ext_getElem?
  intro i
  simp only [getElem?_cut]
  by_cases hi : i < count
  · rw [if_pos hi, if_pos hi, getElem?_overwrite_outside h (by omega)]
  · rw [if_neg hi, if_neg hi]

/-- A cut inside what was written over. -/
theorem cut_overwrite_inside {offset inner count : Nat} {bytes data : Bytes}
    (h : offset + bytes.length ≤ data.length) (hinner : inner + count ≤ bytes.length) :
    cut (overwrite offset bytes data) (offset + inner) count = cut bytes inner count := by
  apply List.ext_getElem?
  intro i
  simp only [getElem?_cut]
  by_cases hi : i < count
  · have hindex : offset + inner + i - offset = inner + i := by omega
    rw [if_pos hi, if_pos hi, getElem?_overwrite_inside h (by omega) (by omega), hindex]
  · rw [if_neg hi, if_neg hi]

theorem cut_overwrite {offset : Nat} {bytes data : Bytes}
    (h : offset + bytes.length ≤ data.length) :
    cut (overwrite offset bytes data) offset bytes.length = bytes := by
  have hinside := cut_overwrite_inside h (by omega : 0 + bytes.length ≤ bytes.length)
  rw [Nat.add_zero, cut_zero_length] at hinside
  exact hinside

/-- A cut written back changes nothing. -/
theorem overwrite_cut {start count : Nat} {bytes : Bytes} (h : start + count ≤ bytes.length) :
    overwrite start (cut bytes start count) bytes = bytes := by
  rw [overwrite, length_cut h, cut, List.append_assoc, ← List.drop_drop, List.take_append_drop,
    List.take_append_drop]

theorem drop_overwrite {offset : Nat} {bytes data : Bytes}
    (h : offset + bytes.length ≤ data.length) :
    (overwrite offset bytes data).drop (offset + bytes.length) =
      data.drop (offset + bytes.length) := by
  refine List.drop_left' ?_
  rw [List.length_append, List.length_take]
  omega

/-- Two writes next to each other are one. -/
theorem overwrite_overwrite_next {offset : Nat} {first second data : Bytes}
    (h : offset + first.length ≤ data.length) :
    overwrite (offset + first.length) second (overwrite offset first data) =
      overwrite offset (first ++ second) data := by
  have htake : (overwrite offset first data).take (offset + first.length) =
      data.take offset ++ first := by
    refine List.take_left' ?_
    rw [List.length_append, List.length_take]
    omega
  have hdrop : (overwrite offset first data).drop (offset + first.length + second.length) =
      data.drop (offset + (first ++ second).length) := by
    rw [← List.drop_drop, drop_overwrite h, List.drop_drop, List.length_append, Nat.add_assoc]
  conv_lhs => rw [overwrite]
  rw [htake, hdrop, overwrite, List.append_assoc (data.take offset)]

/-- A write inside a cut that is written back is a write at the sum of the positions. -/
theorem overwrite_overwrite_cut {start count inner : Nat} {bytes data : Bytes}
    (hcut : start + count ≤ data.length) (hinner : inner + bytes.length ≤ count) :
    overwrite start (overwrite inner bytes (cut data start count)) data =
      overwrite (start + inner) bytes data := by
  have hlength := length_cut hcut
  have hinside : inner + bytes.length ≤ (cut data start count).length := by omega
  have houter : start + (overwrite inner bytes (cut data start count)).length ≤ data.length := by
    rw [length_overwrite hinside]
    omega
  have hdirect : start + inner + bytes.length ≤ data.length := by omega
  apply List.ext_getElem?
  intro i
  by_cases hin : start ≤ i ∧ i < start + count
  · rw [getElem?_overwrite_inside houter hin.1 (by rw [length_overwrite hinside]; omega)]
    by_cases hwritten : start + inner ≤ i ∧ i < start + inner + bytes.length
    · have hindex : i - start - inner = i - (start + inner) := by omega
      rw [getElem?_overwrite_inside hinside (by omega) (by omega),
        getElem?_overwrite_inside hdirect hwritten.1 hwritten.2, hindex]
    · have hindex : start + (i - start) = i := by omega
      rw [getElem?_overwrite_outside hinside (by omega), getElem?_cut, if_pos (by omega),
        getElem?_overwrite_outside hdirect (by omega), hindex]
  · rw [getElem?_overwrite_outside houter (by rw [length_overwrite hinside]; omega),
      getElem?_overwrite_outside hdirect (by omega)]

/-- A cut around what was written over. -/
theorem cut_overwrite_around {start count inner : Nat} {bytes data : Bytes}
    (hcut : start + count ≤ data.length) (hinner : inner + bytes.length ≤ count) :
    cut (overwrite (start + inner) bytes data) start count =
      overwrite inner bytes (cut data start count) := by
  have hlength := length_cut hcut
  have hinside : (overwrite inner bytes (cut data start count)).length = count := by
    rw [length_overwrite (by omega), hlength]
  have hwhole := cut_overwrite (by rw [hinside]; exact hcut :
    start + (overwrite inner bytes (cut data start count)).length ≤ data.length)
  rw [overwrite_overwrite_cut hcut hinner, hinside] at hwhole
  exact hwhole

/-- What was written is gone when more is written over it. -/
theorem overwrite_overwrite_covered {start offset : Nat} {bytes first data : Bytes}
    (hstart : start ≤ offset) (hcovered : offset + first.length ≤ start + bytes.length)
    (h : start + bytes.length ≤ data.length) :
    overwrite start bytes (overwrite offset first data) = overwrite start bytes data := by
  have hfirst : offset + first.length ≤ data.length := by omega
  have houter : start + bytes.length ≤ (overwrite offset first data).length := by
    rw [length_overwrite hfirst]
    exact h
  apply List.ext_getElem?
  intro i
  by_cases hin : start ≤ i ∧ i < start + bytes.length
  · rw [getElem?_overwrite_inside houter hin.1 hin.2, getElem?_overwrite_inside h hin.1 hin.2]
  · rw [getElem?_overwrite_outside houter (by omega), getElem?_overwrite_outside h (by omega),
      getElem?_overwrite_outside hfirst (by omega)]

theorem overwrite_nil (offset : Nat) (data : Bytes) : overwrite offset [] data = data := by
  simp [overwrite]

theorem overwrite_zero {bytes data : Bytes} (h : bytes.length = data.length) :
    overwrite 0 bytes data = bytes := by
  simp [overwrite, h]

theorem overwrite_append_left {offset : Nat} {bytes first : Bytes}
    (h : offset + bytes.length ≤ first.length) (rest : Bytes) :
    overwrite offset bytes (first ++ rest) = overwrite offset bytes first ++ rest := by
  rw [overwrite, overwrite, List.take_append_of_le_length (by omega),
    List.drop_append_of_le_length h, List.append_assoc _ _ rest]

theorem overwrite_append_right {start : Nat} {first : Bytes} (h : first.length = start)
    (offset : Nat) (bytes rest : Bytes) :
    overwrite (start + offset) bytes (first ++ rest) = first ++ overwrite offset bytes rest := by
  subst h
  simp only [overwrite, List.take_length_add_append, Nat.add_assoc, List.drop_length_add_append,
    List.append_assoc]

theorem padTo_overwrite {offset : Nat} {bytes data : Bytes}
    (h : offset + bytes.length ≤ data.length) (length : Nat) :
    padTo length (overwrite offset bytes data) = overwrite offset bytes (padTo length data) := by
  rw [padTo, padTo, length_overwrite h, overwrite_append_left h]

/-- A splice that keeps the length is an overwrite. -/
theorem splice_eq_overwrite {bytes word : Bytes} {position width : Nat}
    (hword : word.length = width) (h : position + width ≤ bytes.length) :
    splice bytes (position : Int) ((position : Int) + (width : Int)) word =
      overwrite position word bytes := by
  have hstop : (position : Int) + (width : Int) = ((position + width : Nat) : Int) := by omega
  rw [splice, hstop, clampIndex_natCast, clampIndex_natCast, Nat.min_eq_left (by omega),
    Nat.min_eq_left h, Nat.max_eq_right (by omega), overwrite, hword]

/-- Bytes copied to the front of zero bytes. -/
theorem splice_zeros {length : Nat} {bytes : Bytes} (h : bytes.length ≤ length) :
    splice (zeros length) 0 bytes.length bytes = padTo length bytes := by
  have hfits : 0 + bytes.length ≤ (zeros length).length := by
    rw [length_zeros]
    omega
  have hsplice := splice_eq_overwrite rfl hfits
  rw [Int.natCast_zero, Int.zero_add] at hsplice
  rw [hsplice]
  simp [overwrite, padTo, zeros]

/-! ### Parts of one size -/

theorem length_flatten_of_forall {size : Nat} {parts : List Bytes}
    (h : ∀ part ∈ parts, part.length = size) : parts.flatten.length = parts.length * size := by
  induction parts with
  | nil => exact (Nat.zero_mul size).symm
  | cons part rest ih =>
    rw [List.flatten_cons, List.length_append, List.length_cons, h part List.mem_cons_self,
      ih fun p hp ↦ h p (List.mem_cons_of_mem _ hp), Nat.succ_mul, Nat.add_comm]

/-- Parts of one size are cut out of their bytes back to back. -/
theorem cut_flatten {size : Nat} {parts : List Bytes} (h : ∀ part ∈ parts, part.length = size)
    {k : Nat} {part : Bytes} (hpart : parts[k]? = some part) :
    cut parts.flatten (k * size) size = part := by
  induction parts generalizing k with
  | nil => exact absurd hpart (by simp)
  | cons first rest ih =>
    obtain ⟨rfl, hrest⟩ := List.forall_mem_cons.1 h
    cases k with
    | zero =>
      obtain rfl := Option.some.inj hpart
      rw [List.flatten_cons, Nat.zero_mul, cut_append_left _ (Nat.le_of_eq (Nat.zero_add _)),
        cut_zero_length]
    | succ k =>
      rw [List.flatten_cons, Nat.succ_mul, Nat.add_comm, cut_append_right]
      exact ih hrest hpart

/-! ### Words -/

theorem wordStart?_natCast (length position width : Nat) :
    wordStart? length position width =
      if position + width ≤ length then some position else none := by
  have hneg : ¬ (position : Int) < 0 := by omega
  simp only [wordStart?, hneg, if_false]
  by_cases h : position + width ≤ length
  · rw [if_pos h, if_pos (by omega)]
    rfl
  · rw [if_neg h, if_neg (by omega)]

theorem wordAt?_natCast (bytes : Bytes) (position width : Nat) :
    wordAt? bytes position width =
      if position + width ≤ bytes.length then some (cut bytes position width) else none := by
  rw [wordAt?, wordStart?_natCast]
  split <;> rfl

theorem putWord?_natCast (bytes : Bytes) (position : Nat) (word : Bytes) :
    putWord? bytes position word =
      if position + word.length ≤ bytes.length then some (overwrite position word bytes)
      else none := by
  rw [putWord?, wordStart?_natCast]
  split <;> rfl

/-! ### Numbers as bytes -/

/-- Reading undoes writing up to the width. -/
theorem toNat_ofNat (width n : Nat) : toNat (ofNat width n) = n % 256 ^ width := by
  induction width generalizing n with
  | zero => simp [ofNat, toNat, Nat.mod_one]
  | succ width ih =>
    have hpow : 256 ^ (width + 1) = 256 * 256 ^ width := by rw [Nat.pow_succ, Nat.mul_comm]
    have hbyte : (UInt8.ofNat n).toNat = n % 256 := by simp
    rw [ofNat, toNat, ih, hpow, Nat.mod_mul, hbyte]

theorem toNat_lt (bytes : Bytes) : toNat bytes < 256 ^ bytes.length := by
  induction bytes with
  | nil => simp [toNat]
  | cons b rest ih =>
    have hb : b.toNat < 256 := b.toNat_lt
    rw [toNat, List.length_cons, Nat.pow_succ]
    omega

theorem ofNat_eq_of_lt {width n : Nat} (h : n < 256 ^ width) : toNat (ofNat width n) = n := by
  rw [toNat_ofNat, Nat.mod_eq_of_lt h]

/-- The bytes of the number that bytes stand for are these bytes. -/
theorem ofNat_toNat (bytes : Bytes) : ofNat bytes.length (toNat bytes) = bytes := by
  induction bytes with
  | nil => rfl
  | cons b rest ih =>
    have hlow : UInt8.ofNat (b.toNat + 256 * toNat rest) = b := by
      apply UInt8.toNat_inj.1
      have hb : b.toNat < 256 := b.toNat_lt
      rw [UInt8.toNat_ofNat']
      omega
    have hhigh : (b.toNat + 256 * toNat rest) / 256 = toNat rest := by
      have hb : b.toNat < 256 := b.toNat_lt
      omega
    rw [List.length_cons, toNat, ofNat, hlow, hhigh, ih]

/-- What does not fit in the width does not count. -/
theorem ofNat_mod (width n : Nat) : ofNat width (n % 256 ^ width) = ofNat width n := by
  have h := ofNat_toNat (ofNat width n)
  rwa [length_ofNat, toNat_ofNat] at h

end Stowage.Bytes

namespace Stowage.Buffer

open Heap (overwrite)

/-- A word inside its buffer. -/
theorem wordBytes_eq {buffer : Bytes} {position width : Nat}
    (h : position + width ≤ buffer.length) :
    wordBytes buffer position width = .ok (Bytes.cut buffer position width) := by
  rw [wordBytes, Bytes.wordAt?_natCast, if_pos h]

theorem loadWord_eq {buffer : Bytes} {position width : Nat}
    (h : position + width ≤ buffer.length) :
    loadWord buffer position width = .ok (Bytes.toNat (Bytes.cut buffer position width)) := by
  rw [loadWord, wordBytes_eq h]
  rfl

/-- A length and an address are the two halves of an entry. -/
theorem loadEntry_eq {buffer : Bytes} {position : Nat} (h : position + 16 ≤ buffer.length) :
    loadEntry buffer position = .ok (Bytes.toNat (Bytes.cut (Bytes.cut buffer position 16) 0 8),
      Bytes.toNat (Bytes.cut (Bytes.cut buffer position 16) 8 8)) := by
  have hlength := Bytes.length_cut h
  have hsecond : Bytes.cut (Bytes.cut buffer position 16) 8 8 =
      (Bytes.cut buffer position 16).drop 8 := by
    refine List.take_of_length_le ?_
    rw [List.length_drop]
    omega
  rw [loadEntry, wordBytes_eq h, hsecond]
  rfl

theorem storeWord_eq {buffer word : Bytes} {position : Nat}
    (h : position + word.length ≤ buffer.length) :
    storeWord buffer position word = .ok (overwrite position word buffer) := by
  rw [storeWord, Bytes.putWord?_natCast, if_pos h]

@[simp] theorem length_entryBytes (length address : Nat) :
    (entryBytes length address).length = 16 := by
  simp [entryBytes]

/-- The length in the bytes of a length and an address. -/
theorem toNat_cut_entryBytes_length {length : Nat} (address : Nat) (h : length < 2 ^ 64) :
    Bytes.toNat (Bytes.cut (entryBytes length address) 0 8) = length := by
  have hfront : Bytes.cut (entryBytes length address) 0 8 = Bytes.ofNat 8 length := by
    rw [Bytes.cut, List.drop_zero, entryBytes, List.take_left' (Bytes.length_ofNat 8 length)]
  rw [hfront]
  exact Bytes.ofNat_eq_of_lt h

/-- The address in the bytes of a length and an address. -/
theorem toNat_cut_entryBytes_address (length address : Nat) :
    Bytes.toNat (Bytes.cut (entryBytes length address) 8 8) =
      Bytes.toNat (Bytes.ofNat 8 address) := by
  rw [Bytes.cut, entryBytes, List.drop_left' (Bytes.length_ofNat 8 length),
    List.take_of_length_le (Nat.le_of_eq (Bytes.length_ofNat 8 address))]

theorem wordNumber_eq_ok {width n m : Nat} :
    wordNumber width n = .ok m ↔ n < 256 ^ width ∧ m = n := by
  change (if n < 256 ^ width then Except.ok n else .error Fault.storage) = .ok m ↔ _
  split
  · next hfits => simp [hfits, eq_comm]
  · next hlarge => simp [hlarge]

theorem zeroed_eq_ok {length : Int} {data : Bytes} :
    zeroed length = .ok data ↔
      0 ≤ length ∧ length < indexLimit ∧ data = Bytes.zeros length.toNat := by
  unfold Buffer.zeroed
  by_cases hneg : length < 0
  · rw [if_pos hneg]
    simp only [reduceCtorEq, false_iff, not_and]
    omega
  · rw [if_neg hneg]
    by_cases hlimit : indexLimit ≤ length
    · rw [if_pos hlimit]
      simp only [reduceCtorEq, false_iff, not_and]
      omega
    · rw [if_neg hlimit, Except.ok.injEq, eq_comm]
      exact ⟨fun h ↦ ⟨by omega, by omega, h⟩, fun h ↦ h.2.2⟩

theorem toNat_cut_lt (buffer : Bytes) (position : Nat) :
    Bytes.toNat (Bytes.cut buffer position 8) < 2 ^ 64 := by
  refine Nat.lt_of_lt_of_le (Bytes.toNat_lt _) ?_
  change 256 ^ _ ≤ 256 ^ 8
  refine Nat.pow_le_pow_right (by omega) ?_
  rw [Bytes.cut, List.length_take]
  omega

/-! ### Refusals -/

theorem notMemory_zeroed (length : Int) : Outcome.NotMemory (zeroed length) := by
  unfold zeroed
  split
  · simp
  · split <;> simp

theorem notMemory_wordBytes (buffer : Bytes) (position : Int) (width : Nat) :
    Outcome.NotMemory (wordBytes buffer position width) := by
  unfold wordBytes
  split
  · simp
  · split <;> simp

theorem notMemory_storeWord (buffer : Bytes) (position : Int) (word : Bytes) :
    Outcome.NotMemory (storeWord buffer position word) := by
  unfold storeWord
  split
  · simp
  · split <;> simp

theorem notMemory_wordNumber (width n : Nat) : Outcome.NotMemory (wordNumber width n) := by
  unfold wordNumber
  split <;> simp

end Stowage.Buffer
