import Equational.Cbor.Reader
import Equational.Cbor.Writer
import Equational.Proofs.Floats

/-!
# Reading what was written

The reader finds every item again that was written, as far as it opens
containers: where an item lies deeper, the reader breaks off, and what it has
read is the item cut off at that depth.
-/

namespace Equational
namespace Cbor

open Number

/-!
## Numbers and strings
-/

theorem length_bigEndian (count n : Nat) : (bigEndian count n).length = count := by
  induction count with
  | zero => rfl
  | succ count ih => rw [bigEndian, List.length_cons, ih]

namespace Source

theorem take?_append {bytes : List UInt8} {count : Nat} (h : bytes.length = count) (offset : Nat)
    (tail : List UInt8) :
    take? ⟨offset, bytes ++ tail⟩ count = some (bytes, ⟨offset + count, tail⟩) := by
  have hsplit : splitBytes? count (bytes ++ tail) = some (bytes, tail) := by
    induction bytes generalizing count with
    | nil =>
        rw [← h]
        rfl
    | cons b bytes ih =>
        rw [← h, List.length_cons, List.cons_append, splitBytes?, ih rfl, Option.map_some]
  rw [take?, hsplit, Option.map_some]

theorem number_bigEndian {count n : Nat} (h : n < twoTo (8 * count)) :
    number (bigEndian count n) = n := by
  have hfold : ∀ high, (bigEndian count n).foldl (fun n b => n * 256 + b.toNat) high =
      high * twoTo (8 * count) + n % twoTo (8 * count) := by
    clear h
    induction count with
    | zero =>
        intro high
        rw [bigEndian, List.foldl_nil, Nat.mul_zero]
        change high = high * 1 + n % 1
        rw [Nat.mod_one, Nat.mul_one, Nat.add_zero]
    | succ count ih =>
        intro high
        have hbyte : (n / twoTo (8 * count) % 256).toUInt8.toNat = n / twoTo (8 * count) % 256 :=
          UInt8.toNat_ofNat_of_lt' (Nat.mod_lt _ (by decide))
        have hpower : twoTo (8 * (count + 1)) = twoTo (8 * count) * 256 := twoTo_add (8 * count) 8
        rw [bigEndian, List.foldl_cons, ih, hbyte, hpower, Nat.mod_mul, Nat.add_mul, Nat.mul_assoc,
          Nat.mul_comm 256, Nat.mul_comm (n / _ % 256)]
        omega
  rw [number, hfold, Nat.zero_mul, Nat.zero_add, Nat.mod_eq_of_lt h]

theorem number?_bigEndian {count n : Nat} (h : n < twoTo (8 * count)) (offset : Nat)
    (tail : List UInt8) :
    number? ⟨offset, bigEndian count n ++ tail⟩ count = .ok (n, ⟨offset + count, tail⟩) := by
  rw [number?, take?_append (length_bigEndian count n)]
  simp only [number_bigEndian h]

end Source

theorem text?_utf8 (s : String) : text? (utf8 s) = some s := by
  have hbytes : (⟨(utf8 s).toArray⟩ : ByteArray) = s.toUTF8 := by
    simp [utf8]
  unfold text? String.fromUTF8?
  rw [hbytes]
  exact dif_pos s.isValidUTF8

/-!
## Heads
-/

/-- A first byte and the bytes behind it that announce a major type and a number. -/
structure Announces (major n : Nat) (first : UInt8) (more : List UInt8) : Prop where
  major : first.toNat / 32 = major
  closed : isOpen (first.toNat % 32) = false
  single : (first.toNat % 32 == 1) = (n == 1)
  argument : ∀ offset tail, Source.argument ⟨offset, more ++ tail⟩ (first.toNat % 32) =
    .ok (n, ⟨offset + more.length, tail⟩)

theorem exists_announces {major n : Nat} (hmajor : major < 8) (hn : n < twoTo 64) :
    ∃ first more, head major n = first :: more ∧ Announces major n first more := by
  have hfirst : ∀ info, info < 32 → ((major * 32 + info).toUInt8).toNat = major * 32 + info := by
    intro info hinfo
    exact UInt8.toNat_ofNat_of_lt' (by change _ < 256; omega)
  have hmod : ∀ info, info < 32 → ((major * 32 + info).toUInt8).toNat % 32 = info := by
    intro info hinfo
    rw [hfirst info hinfo]
    omega
  have hdiv : ∀ info, info < 32 → ((major * 32 + info).toUInt8).toNat / 32 = major := by
    intro info hinfo
    rw [hfirst info hinfo]
    omega
  -- a number behind the first byte, of one, two, four or eight bytes
  have hlong : ∀ info count, 24 ≤ info → info < 28 → 24 ≤ n → n < twoTo (8 * count) →
      (∀ source : Source, source.argument info = source.number? count) →
      Announces major n (major * 32 + info).toUInt8 (bigEndian count n) := by
    intro info count hlow hhigh hlarge hbound hargument
    constructor
    · exact hdiv info (by omega)
    · rw [hmod info (by omega), isOpen, beq_eq_false_iff_ne]
      omega
    · rw [hmod info (by omega), Bool.eq_iff_iff, beq_iff_eq, beq_iff_eq]
      omega
    · intro offset tail
      rw [hmod info (by omega), hargument, Source.number?_bigEndian hbound, length_bigEndian]
  unfold head
  simp only
  split
  · rename_i hsmall
    refine ⟨_, [], rfl, hdiv n (by omega), ?_, ?_, ?_⟩
    · rw [hmod n (by omega), isOpen, beq_eq_false_iff_ne]
      omega
    · rw [hmod n (by omega)]
    · intro offset tail
      rw [hmod n (by omega), Source.argument, if_pos hsmall]
      rfl
  · split
    · exact ⟨_, _, rfl, hlong 24 1 (by omega) (by omega) (by omega) (by change n < 256; omega)
        fun _ => rfl⟩
    · split
      · exact ⟨_, _, rfl, hlong 25 2 (by omega) (by omega) (by omega) (by change n < 65536; omega)
          fun _ => rfl⟩
      · split
        · exact ⟨_, _, rfl, hlong 26 4 (by omega) (by omega) (by omega)
            (by change n < 4294967296; omega) fun _ => rfl⟩
        · exact ⟨_, _, rfl, hlong 27 8 (by omega) (by omega) (by omega) hn fun _ => rfl⟩

namespace Item

/-!
## Items that are written
-/

mutual

/-- Items of the kinds that are written: their numbers have 64 bits, a float that is no number is
the one that is written for all of them, and their lists are whole. -/
def Sound : Item → Prop
  | unsigned value | negative value => value < twoTo 64
  | text _ | boolean _ => True
  | float value => value.IsQuiet
  | array items isCut => isCut = false ∧ ListSound items
  | map single items isCut =>
    isCut = false ∧ (∃ n, items.length = 2 * n ∧ single = (n == 1)) ∧ ListSound items
  | _ => False

def ListSound : List Item → Prop
  | [] => True
  | item :: rest => Sound item ∧ ListSound rest

end

mutual

/-- How many containers are open at once in an item. -/
def nesting : Item → Nat
  | array items _ | map _ items _ => listNesting items + 1
  | _ => 0

def listNesting : List Item → Nat
  | [] => 0
  | item :: rest => max (nesting item) (listNesting rest)

end

mutual

/-- An item up to the place where more containers would be open than a reader allows. -/
def clip : Nat → Item → Item
  | 0, array _ _ | 0, map _ _ _ => broken .syntaxError
  | depth + 1, array items isCut => array (listClip depth items) isCut
  | depth + 1, map single items isCut => map single (listClip depth items) isCut
  | _, item => item

def listClip : Nat → List Item → List Item
  | _, [] => []
  | depth, item :: rest =>
    clip depth item :: if nesting item ≤ depth then listClip depth rest else []

end

theorem write_ne_nil {item : Item} (h : item.Sound) : item.write ≠ [] := by
  have hhead : ∀ major n more, head major n ++ more ≠ [] := by
    intro major n more
    unfold head
    simp only
    repeat' split
    all_goals exact List.cons_ne_nil _ _
  cases item with
  | unsigned value => simpa [write] using hhead 0 value []
  | negative value => simpa [write] using hhead 1 value []
  | text value => exact hhead _ _ _
  | boolean value => exact List.cons_ne_nil _ _
  | float value =>
      rw [write, writeFloat]
      repeat' split
      all_goals exact List.cons_ne_nil _ _
  | array items isCut => exact hhead _ _ _
  | map single items isCut => exact hhead _ _ _
  | _ => cases h

theorem length_le_length_writeList {items : List Item} (h : ListSound items) :
    items.length ≤ (writeList items).length := by
  induction items with
  | nil => exact Nat.le_refl _
  | cons item rest ih =>
      have hitem := List.length_pos_iff.mpr (write_ne_nil h.1)
      have hrest := ih h.2
      rw [writeList, List.length_append, List.length_cons]
      omega

/-!
## Reading them again

No container is opened beyond the limit.  A container is read as far as its items are, and an item
without items in it is not cut off.
-/

variable {fuel depth offset : Nat} {first : UInt8} {more tail : List UInt8} {n : Nat}

theorem take?_first (offset : Nat) (first : UInt8) (bytes : List UInt8) :
    Source.take? ⟨offset, first :: bytes⟩ 1 = some ([first], ⟨offset + 1, bytes⟩) := rfl

theorem read_unsigned (h : Announces 0 n first more) :
    read (fuel + 1) depth ⟨offset, first :: (more ++ tail)⟩ =
      (unsigned n, some ⟨offset + 1 + more.length, tail⟩) := by
  unfold read
  simp only [take?_first, h.major, withArgument, h.argument, if_true]

theorem read_negative (h : Announces 1 n first more) :
    read (fuel + 1) depth ⟨offset, first :: (more ++ tail)⟩ =
      (negative n, some ⟨offset + 1 + more.length, tail⟩) := by
  unfold read
  simp [take?_first, h.major, withArgument, h.argument]

theorem read_text (h : Announces 3 n first more) :
    read (fuel + 1) depth ⟨offset, first :: (more ++ tail)⟩ =
      readString true n ⟨offset + 1 + more.length, tail⟩ := by
  unfold read
  simp [take?_first, h.major, h.closed, withArgument, h.argument]

theorem read_array (h : Announces 4 n first more) :
    read (fuel + 1) (depth + 1) ⟨offset, first :: (more ++ tail)⟩ =
      (array (readList fuel depth n ⟨offset + 1 + more.length, tail⟩).1 false,
        (readList fuel depth n ⟨offset + 1 + more.length, tail⟩).2) := by
  unfold read
  simp [take?_first, h.major, h.closed, withArgument, h.argument]

theorem read_map (h : Announces 5 n first more) :
    read (fuel + 1) (depth + 1) ⟨offset, first :: (more ++ tail)⟩ =
      (map (n == 1) (readList fuel depth (2 * n) ⟨offset + 1 + more.length, tail⟩).1 false,
        (readList fuel depth (2 * n) ⟨offset + 1 + more.length, tail⟩).2) := by
  unfold read
  simp [take?_first, h.major, h.closed, h.single, withArgument, h.argument]

theorem read_container {major : Nat} (hmajor : major = 4 ∨ major = 5)
    (h : Announces major n first more) :
    read (fuel + 1) 0 ⟨offset, first :: (more ++ tail)⟩ = (broken .syntaxError, none) := by
  unfold read
  rcases hmajor with rfl | rfl
  · simp [take?_first, h.major, h.closed, withArgument, h.argument, stop]
  · simp [take?_first, h.major, h.closed, withArgument, h.argument, stop]

theorem read_simple {info : Nat} (hmajor : first.toNat / 32 = 7) (hinfo : first.toNat % 32 = info) :
    read (fuel + 1) depth ⟨offset, first :: tail⟩ = readSimple info ⟨offset + 1, tail⟩ := by
  unfold read
  simp [take?_first, hmajor, hinfo]

theorem read_string (value : String) (h : offset + (utf8 value).length < twoTo 64) :
    readString true (utf8 value).length ⟨offset, utf8 value ++ tail⟩ =
      (text value, some ⟨offset + (utf8 value).length, tail⟩) := by
  unfold readString
  rw [Source.take?_append rfl, if_neg (by simpa using h)]
  simp [ofString, text?_utf8]

theorem read_boolean (value : Bool) :
    read (fuel + 1) depth ⟨offset, write (boolean value) ++ tail⟩ =
      (boolean value, some ⟨offset + 1, tail⟩) := by
  cases value with
  | false => exact read_simple rfl rfl
  | true => exact read_simple rfl rfl

theorem read_half {bits : Nat} (h : bits < twoTo 16) :
    read (fuel + 1) depth ⟨offset, 0xf9 :: (bigEndian 2 bits ++ tail)⟩ =
      (float (.widen .half bits), some ⟨offset + 3, tail⟩) := by
  rw [@read_simple _ _ _ _ _ 25 rfl rfl, readSimple]
  simp [@Source.number?_bigEndian 2 _ h]

theorem read_single {bits : Nat} (h : bits < twoTo 32) :
    read (fuel + 1) depth ⟨offset, 0xfa :: (bigEndian 4 bits ++ tail)⟩ =
      (float (.widen .single bits), some ⟨offset + 5, tail⟩) := by
  rw [@read_simple _ _ _ _ _ 26 rfl rfl, readSimple]
  simp [@Source.number?_bigEndian 4 _ h]

theorem read_double (bits : UInt64) :
    read (fuel + 1) depth ⟨offset, 0xfb :: (bigEndian 8 bits.toNat ++ tail)⟩ =
      (float ⟨bits⟩, some ⟨offset + 9, tail⟩) := by
  rw [@read_simple _ _ _ _ _ 27 rfl rfl, readSimple]
  simp [@Source.number?_bigEndian 8 _ bits.toNat_lt]

theorem read_float {value : Binary64} (h : value.IsQuiet) :
    read (fuel + 1) depth ⟨offset, writeFloat value ++ tail⟩ =
      (float value, some ⟨offset + (writeFloat value).length, tail⟩) := by
  unfold writeFloat
  split
  · rename_i negative payload hvalue
    have hbits : [0x7e, 0x00] = bigEndian 2 0x7e00 := by decide
    rw [h negative payload hvalue, hbits, List.length_cons, length_bigEndian, List.cons_append,
      read_half (by decide)]
    rfl
  · rename_i negative hvalue
    have hhalf : [if negative then 0xfc else 0x7c, 0x00] =
        bigEndian 2 (BinaryFormat.half.pack negative BinaryFormat.half.topExponent 0) := by
      cases negative <;> decide
    have hbound : BinaryFormat.half.pack negative BinaryFormat.half.topExponent 0 < twoTo 16 :=
      BinaryFormat.pack_lt (Nat.le_refl _) (twoTo_pos _)
    rw [hhalf, List.length_cons, length_bigEndian, List.cons_append, read_half hbound,
      Binary64.widen_of_infinity hvalue]
  · split
    · rename_i bits single hhalf
      rcases Binary64.widen_of_narrow? (by decide) hhalf with ⟨hwiden, hbound⟩
      rw [List.length_cons, length_bigEndian]
      rw [← hwiden]
      exact read_half hbound
    · rename_i bits hhalf hsingle
      rcases Binary64.widen_of_narrow? (by decide) hsingle with ⟨hwiden, hbound⟩
      rw [List.length_cons, length_bigEndian]
      rw [← hwiden]
      exact read_single hbound
    · exact read_double value.bits

theorem clip_of_leaf {item : Item} (h : item.nesting = 0) (depth : Nat) :
    item.clip depth = item := by
  cases item with
  | array items isCut => cases h
  | map single items isCut => cases h
  | _ => cases depth <;> rfl

theorem listClip_of_leaf {item : Item} (h : item.nesting = 0) (depth : Nat) (rest : List Item) :
    listClip depth (item :: rest) = item :: listClip depth rest := by
  rw [listClip, clip_of_leaf h, h, if_pos (Nat.zero_le _)]

/-- What is read of an item: the item as far as the depth reaches, and what follows it unless it
reaches deeper. -/
def reading (item : Item) (depth offset : Nat) (tail : List UInt8) : Reading Item :=
  (item.clip depth,
    if item.nesting ≤ depth then some ⟨offset + item.write.length, tail⟩ else none)

def listReading (items : List Item) (depth offset : Nat)
    (tail : List UInt8) : Reading (List Item) :=
  (listClip depth items,
    if listNesting items ≤ depth then some ⟨offset + (writeList items).length, tail⟩ else none)

theorem reading_of_leaf {item : Item} (h : item.nesting = 0) (depth offset : Nat)
    (tail : List UInt8) :
    item.reading depth offset tail = (item, some ⟨offset + item.write.length, tail⟩) := by
  rw [reading, clip_of_leaf h, h, if_pos (Nat.zero_le _)]

theorem reading_array (items : List Item) (depth : Nat) {offset length : Nat} (tail : List UInt8)
    (hlength : length + (writeList items).length = (array items false).write.length) :
    (array items false).reading (depth + 1) offset tail =
      (array (listReading items depth (offset + length) tail).1 false,
        (listReading items depth (offset + length) tail).2) := by
  unfold reading listReading
  rw [← hlength, clip, nesting, Nat.add_assoc]
  simp only [Nat.add_le_add_iff_right]

theorem reading_map (single : Bool) (items : List Item) (depth : Nat) {offset length : Nat}
    (tail : List UInt8)
    (hlength : length + (writeList items).length = (map single items false).write.length) :
    (map single items false).reading (depth + 1) offset tail =
      (map single (listReading items depth (offset + length) tail).1 false,
        (listReading items depth (offset + length) tail).2) := by
  unfold reading listReading
  rw [← hlength, clip, nesting, Nat.add_assoc]
  simp only [Nat.add_le_add_iff_right]

theorem listReading_cons (item : Item) (rest : List Item) (depth offset : Nat) (tail : List UInt8) :
    listReading (item :: rest) depth offset tail =
      if item.nesting ≤ depth then
        (item.clip depth :: (listReading rest depth (offset + item.write.length) tail).1,
          (listReading rest depth (offset + item.write.length) tail).2)
      else ([item.clip depth], none) := by
  unfold listReading
  rw [listClip, listNesting, writeList, List.length_append, ← Nat.add_assoc]
  by_cases hitem : item.nesting ≤ depth
  · simp only [Nat.max_le, hitem, true_and, if_true]
  · simp only [Nat.max_le, hitem, false_and, if_false]

mutual

/-- Written items are read again. -/
theorem read_write : ∀ item : Item, item.Sound → ∀ fuel depth offset tail,
    2 * item.write.length ≤ fuel + 2 → offset + item.write.length < twoTo 64 →
    read (fuel + 1) depth ⟨offset, item.write ++ tail⟩ = item.reading depth offset tail
  | unsigned value => by
      intro h fuel depth offset tail _ _
      rcases exists_announces (by decide : 0 < 8) h with ⟨first, more, hhead, hannounces⟩
      rw [reading_of_leaf rfl, write, hhead, List.cons_append, read_unsigned hannounces,
        List.length_cons, Nat.add_right_comm, Nat.add_assoc]
  | negative value => by
      intro h fuel depth offset tail _ _
      rcases exists_announces (by decide : 1 < 8) h with ⟨first, more, hhead, hannounces⟩
      rw [reading_of_leaf rfl, write, hhead, List.cons_append, read_negative hannounces,
        List.length_cons, Nat.add_right_comm, Nat.add_assoc]
  | text value => by
      intro h fuel depth offset tail _ hoffset
      rw [write, List.length_append] at hoffset
      rcases exists_announces (by decide : 3 < 8) (by omega : (utf8 value).length < twoTo 64) with
        ⟨first, more, hhead, hannounces⟩
      rw [hhead, List.length_cons] at hoffset
      rw [reading_of_leaf rfl, write, hhead, List.cons_append, List.cons_append, List.append_assoc,
        read_text hannounces, read_string value (by omega), List.length_cons, List.length_append]
      congr 3
      omega
  | boolean value => by
      intro _ fuel depth offset tail _ _
      rw [reading_of_leaf rfl, read_boolean]
      rfl
  | float value => by
      intro h fuel depth offset tail _ _
      rw [reading_of_leaf rfl, write, read_float h]
  | array items isCut => by
      intro h fuel depth offset tail hfuel hoffset
      have hlength := length_le_length_writeList h.2
      rw [write, List.length_append] at hfuel hoffset
      rcases exists_announces (by decide : 4 < 8) (by omega : items.length < twoTo 64) with
        ⟨first, more, hhead, hannounces⟩
      rw [hhead, List.length_cons] at hfuel hoffset
      rw [write, hhead, List.cons_append, List.cons_append, List.append_assoc]
      cases depth with
      | zero => exact read_container (.inl rfl) hannounces
      | succ depth =>
          rw [h.1, read_array hannounces, readList_write items h.2 fuel depth _ tail (by omega)
            (by omega), Nat.add_assoc, reading_array]
          rw [write, hhead, List.length_append, List.length_cons, Nat.add_comm 1]
  | map single items isCut => by
      intro h fuel depth offset tail hfuel hoffset
      rcases h.2.1 with ⟨n, hn, hsingle⟩
      have hhalf : items.length / 2 = n := by omega
      have hlength := length_le_length_writeList h.2.2
      rw [write, List.length_append, hhalf] at hfuel hoffset
      rcases exists_announces (by decide : 5 < 8) (by omega : n < twoTo 64) with
        ⟨first, more, hhead, hannounces⟩
      rw [hhead, List.length_cons] at hfuel hoffset
      rw [write, hhalf, hhead, List.cons_append, List.cons_append, List.append_assoc]
      cases depth with
      | zero => exact read_container (.inr rfl) hannounces
      | succ depth =>
          rw [h.1, hsingle, read_map hannounces, ← hn,
            readList_write items h.2.2 fuel depth _ tail (by omega) (by omega), Nat.add_assoc,
            reading_map]
          rw [write, hhalf, hhead, List.length_append, List.length_cons, Nat.add_comm 1]
  | bytes _ | tagged _ | null | undefined | broken _ => fun h => h.elim

theorem readList_write : ∀ items : List Item, ListSound items → ∀ fuel depth offset tail,
    2 * (writeList items).length ≤ fuel → offset + (writeList items).length < twoTo 64 →
    readList fuel depth items.length ⟨offset, writeList items ++ tail⟩ =
      listReading items depth offset tail
  | [] => by
      intro _ fuel depth offset tail _ _
      rw [List.length_nil, readList, listReading, listNesting, if_pos (Nat.zero_le _)]
      rfl
  | item :: rest => by
      intro h fuel depth offset tail hfuel hoffset
      have hitem := List.length_pos_iff.mpr (write_ne_nil h.1)
      rw [writeList, List.length_append] at hfuel hoffset
      rcases Nat.exists_eq_add_of_le (by omega : 2 ≤ fuel) with ⟨more, rfl⟩
      rw [List.length_cons, Nat.add_comm 2 more, readList, writeList, List.append_assoc,
        read_write item h.1 more depth offset _ (by omega) (by omega), reading, listReading_cons]
      by_cases hnesting : item.nesting ≤ depth
      · simp only [if_pos hnesting]
        rw [readList_write rest h.2 (more + 1) depth _ tail (by omega) (by omega)]
      · simp only [if_neg hnesting]

end

theorem ofBytes_write {item : Item} (h : item.Sound) (hlength : item.write.length < twoTo 64) :
    ofBytes item.write = item.reading nestingLimit 0 [] := by
  have hread :=
    read_write item h (2 * item.write.length + 1) nestingLimit 0 [] (by omega) (by omega)
  rw [List.append_nil] at hread
  exact hread

end Item

end Cbor
end Equational
