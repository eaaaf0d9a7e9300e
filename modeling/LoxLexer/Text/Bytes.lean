import LoxLexer.Position.Fault
import LoxLexer.Position.Place

/-!
# Texts by byte offset

A text is kept as its UTF-8 bytes, and a reader finds its way in it by byte offsets. This file
has what such a reader asks of a text: the position at an offset (`positionAt`), the character
at a position (`charAt`), the part between two offsets (`slice`), the next occurrence of a byte
(`findByte`) and how often a byte occurs in a stretch (`countByte`).

An offset may lie beyond the end of the text or inside a character, so the first and the third
of these may fail. The lemmas say that they do not, and what they give, where the text is cut
at the offset into the characters `done` before it and the characters `rest` behind it. The
search for a byte is one for a character as long as the byte is below 128: such a byte is in
the encoding of no other character (`mem_utf8EncodeChar`).
-/

set_option autoImplicit false

namespace LoxLexer

/-! ## Definitions -/

/-- The position at a byte offset, which has to be in the text and between two characters. -/
def positionAt (source : String) (offset : Nat) : Except Fault source.Pos :=
  if valid : (⟨offset⟩ : String.Pos.Raw).IsValid source then .ok ⟨⟨offset⟩, valid⟩
  else .error (.brokenText offset)

/-- The character at a position, if it is not the end of the text. -/
def charAt {source : String} (here : source.Pos) : Option Char :=
  if more : here ≠ source.endPos then some (here.get more) else none

/-- The character behind the one at a position. -/
def charBehind {source : String} (here : source.Pos) : Option Char :=
  if more : here ≠ source.endPos then charAt (here.next more) else none

/-- The part of a text between two byte offsets. -/
def slice (source : String) (start stop : Nat) : Except Fault String := do
  let first ← positionAt source start
  let last ← positionAt source stop
  if start ≤ stop then return source.extract first last
  else throw (.brokenText start)

/-- The offset of the first byte `byte` at or behind `offset`. -/
def findByte (source : String) (byte : UInt8) (offset : Nat) : Option Nat :=
  if inside : offset < source.utf8ByteSize then
    if source.getUTF8Byte ⟨offset⟩ inside = byte then some offset
    else findByte source byte (offset + 1)
  else none
termination_by source.utf8ByteSize - offset

/-- Adds to `count` the number of bytes `byte` from the offset `start` on, up to `stop`. -/
def countByte (source : String) (byte : UInt8) (stop count start : Nat) : Nat :=
  if inside : start < stop ∧ start < source.utf8ByteSize then
    if source.getUTF8Byte ⟨start⟩ inside.2 = byte then
      countByte source byte stop (count + 1) (start + 1)
    else countByte source byte stop count (start + 1)
  else count
termination_by stop - start

/-! ## Bytes and characters -/

/-- The bytes of some characters in UTF-8. -/
def encode (text : List Char) : List UInt8 := text.flatMap String.utf8EncodeChar

theorem encode_append (s t : List Char) : encode (s ++ t) = encode s ++ encode t :=
  List.flatMap_append

theorem length_encode (text : List Char) : (encode text).length = byteSize text := by
  induction text with
  | nil => rfl
  | cons c rest ih =>
      rw [encode, List.flatMap_cons, List.length_append, String.length_utf8EncodeChar,
        byteSize_cons, ← ih]
      rfl

/-- All bytes of a character outside ASCII are outside ASCII. -/
theorem le_of_mem_utf8EncodeChar {c : Char} {b : UInt8} (hc : 127 < c.toNat)
    (hb : b ∈ String.utf8EncodeChar c) : 128 ≤ b.toNat := by
  -- a byte of a longer encoding is made of a marker of at least 128 and a remainder
  have hlow (n : Nat) (h : 128 ≤ n) (h' : n < 256) : 128 ≤ (UInt8.ofNat n).toNat := by
    rw [UInt8.toNat_ofNat_of_lt' h']
    exact h
  have hval : c.val.toNat = c.toNat := rfl
  -- one case for each length that an encoding may have
  unfold String.utf8EncodeChar at hb
  simp only [hval] at hb
  split at hb
  · omega
  · split at hb
    · simp only [List.mem_cons, List.not_mem_nil, or_false] at hb
      rcases hb with rfl | rfl <;> exact hlow _ (by omega) (by omega)
    · split at hb
      · simp only [List.mem_cons, List.not_mem_nil, or_false] at hb
        rcases hb with rfl | rfl | rfl <;> exact hlow _ (by omega) (by omega)
      · simp only [List.mem_cons, List.not_mem_nil, or_false] at hb
        rcases hb with rfl | rfl | rfl | rfl <;> exact hlow _ (by omega) (by omega)

/-- A character of ASCII is its own byte. -/
theorem utf8EncodeChar_of_ascii {c : Char} (hc : c.toNat < 128) :
    String.utf8EncodeChar c = [c.toUInt8] := by
  apply String.utf8EncodeChar_eq_singleton
  rw [Char.utf8Size_eq_one_iff, UInt32.le_iff_toNat_le]
  exact Nat.le_of_lt_succ hc

theorem toNat_toUInt8 {c : Char} (hc : c.toNat < 128) : c.toUInt8.toNat = c.toNat := by
  have hval : c.val.toNat < 128 := hc
  show c.val.toUInt8.toNat = c.val.toNat
  rw [UInt32.toNat_toUInt8]
  omega

/-- **The byte of an ASCII character is in the encoding of that character only.** -/
theorem mem_utf8EncodeChar {c a : Char} (ha : a.toNat < 128) :
    a.toUInt8 ∈ String.utf8EncodeChar c ↔ c = a := by
  constructor
  · intro hmem
    by_cases hc : c.toNat < 128
    · rw [utf8EncodeChar_of_ascii hc, List.mem_singleton] at hmem
      have heq : a.toNat = c.toNat := by
        rw [← toNat_toUInt8 ha, hmem, toNat_toUInt8 hc]
      exact Char.ext (UInt32.toNat_inj.mp heq.symm)
    · have hlow := le_of_mem_utf8EncodeChar (by omega) hmem
      rw [toNat_toUInt8 ha] at hlow
      omega
  · rintro rfl
    rw [utf8EncodeChar_of_ascii ha]
    exact List.mem_singleton.mpr rfl

theorem mem_encode {text : List Char} {a : Char} (ha : a.toNat < 128) :
    a.toUInt8 ∈ encode text ↔ a ∈ text := by
  simp [encode, mem_utf8EncodeChar ha]

theorem count_encode (text : List Char) {a : Char} (ha : a.toNat < 128) :
    (encode text).count a.toUInt8 = text.count a := by
  induction text with
  | nil => rfl
  | cons c rest ih =>
      have hrest : (rest.flatMap String.utf8EncodeChar).count a.toUInt8 = rest.count a := ih
      rw [encode, List.flatMap_cons, List.count_append, hrest, List.count_cons, Nat.add_comm]
      by_cases hc : c = a
      · rw [hc, utf8EncodeChar_of_ascii ha]
        simp
      · have hnot : a.toUInt8 ∉ String.utf8EncodeChar c := fun h =>
          hc ((mem_utf8EncodeChar ha).mp h)
        rw [List.count_eq_zero_of_not_mem hnot, if_neg (by simpa using hc)]

/-! ## Cutting a text in two

In what follows the text is `done ++ rest`, and the reader is behind `done`. -/

variable {source : String} {done rest : List Char}

/-- **The reader's position**: there is one behind `done`, and `rest` follows it. -/
theorem positionAt_eq (hs : source = String.ofList (done ++ rest)) :
    ∃ here : source.Pos, positionAt source (byteSize done) = .ok here ∧
      here.Splits (String.ofList done) (String.ofList rest) := by
  have hcut : source = String.ofList done ++ String.ofList rest := by
    rw [hs, String.ofList_append]
  have hsplit := String.Pos.splits_ofEqAppend hcut
  -- the core library has a position at every cut; it remains to see which offset it has
  have hoffset : (String.Pos.ofEqAppend hcut).offset = ⟨byteSize done⟩ := by
    rw [hsplit.offset_eq_rawEndPos]
    ext
    exact utf8ByteSize_ofList done
  have hvalid : (⟨byteSize done⟩ : String.Pos.Raw).IsValid source := by
    rw [← hoffset]
    exact (String.Pos.ofEqAppend hcut).isValid
  refine ⟨String.Pos.ofEqAppend hcut, ?_, hsplit⟩
  rw [positionAt, dif_pos hvalid]
  congr 1
  ext
  simp [hoffset]

theorem splits_next {here : source.Pos} {before : String} {c : Char}
    (h : here.Splits before (String.ofList (c :: rest))) :
    ∃ more : here ≠ source.endPos,
      (here.next more).Splits (before ++ String.singleton c) (String.ofList rest) := by
  have hcut : here.Splits before (String.singleton c ++ String.ofList rest) := by
    rwa [String.ofList_cons] at h
  exact ⟨hcut.ne_endPos_of_singleton, hcut.next⟩

theorem charAt_eq {here : source.Pos} {before : String}
    (h : here.Splits before (String.ofList rest)) : charAt here = rest.head? := by
  cases rest with
  | nil =>
      have hend : here = source.endPos := h.eq_endPos_iff.mpr rfl
      rw [charAt, dif_neg (not_not_intro hend)]
      rfl
  | cons c rest =>
      obtain ⟨more, hnext⟩ := splits_next h
      rw [charAt, dif_pos more, hnext.get_eq_of_singleton]
      rfl

theorem charBehind_eq {here : source.Pos} {before : String}
    (h : here.Splits before (String.ofList rest)) : charBehind here = rest.tail.head? := by
  cases rest with
  | nil =>
      have hend : here = source.endPos := h.eq_endPos_iff.mpr rfl
      rw [charBehind, dif_neg (not_not_intro hend)]
      rfl
  | cons c rest =>
      obtain ⟨more, hnext⟩ := splits_next h
      rw [charBehind, dif_pos more, charAt_eq hnext]
      rfl

/-- **The part of a text** between two cuts. -/
theorem slice_eq {middle : List Char} (hs : source = String.ofList (done ++ middle ++ rest)) :
    slice source (byteSize done) (byteSize (done ++ middle)) = .ok (String.ofList middle) := by
  have hfirst : source = String.ofList (done ++ (middle ++ rest)) := by
    rw [hs, List.append_assoc]
  obtain ⟨first, hf, hfs⟩ := positionAt_eq hfirst
  obtain ⟨last, hl, hls⟩ := positionAt_eq hs
  have hle : byteSize done ≤ byteSize (done ++ middle) := by
    rw [byteSize_append]
    omega
  have hpart : source.extract first last = String.ofList middle := by
    rw [String.ofList_append] at hfs hls
    -- both positions cut the text, so what is between them is determined
    obtain ⟨hord, hcopy⟩ := String.copy_slice_eq_iff_splits.mpr ⟨_, _, hfs, hls⟩
    rw [String.extract_eq_copy_slice first last hord, hcopy]
  simp only [slice, hf, hl, bind, Except.bind, if_pos hle, hpart]
  rfl

/-! ## Searching a text -/

/-- The bytes of a text from an offset on. -/
def bytesFrom (source : String) (offset : Nat) : List UInt8 :=
  source.toByteArray.data.toList.drop offset

theorem bytesFrom_of_lt {offset : Nat} (h : offset < source.utf8ByteSize) :
    bytesFrom source offset =
      source.getUTF8Byte ⟨offset⟩ h :: bytesFrom source (offset + 1) := by
  have hlt : offset < source.toByteArray.data.toList.length := by simpa using h
  rw [bytesFrom, List.drop_eq_getElem_cons hlt]
  rfl

theorem bytesFrom_of_not_lt {offset : Nat} (h : ¬ offset < source.utf8ByteSize) :
    bytesFrom source offset = [] := by
  apply List.drop_eq_nil_of_le
  simpa using h

theorem bytesFrom_eq (hs : source = String.ofList (done ++ rest)) :
    bytesFrom source (byteSize done) = encode rest := by
  have hbytes : source.toByteArray.data.toList = encode (done ++ rest) := by
    rw [hs]
    show (encode (done ++ rest)).toByteArray.data.toList = _
    simp
  rw [bytesFrom, hbytes, encode_append, List.drop_left' (length_encode done)]

theorem findByte_eq_findIdx? (source : String) (byte : UInt8) (offset : Nat) :
    findByte source byte offset =
      ((bytesFrom source offset).findIdx? (· == byte)).map (offset + ·) := by
  fun_induction findByte source byte offset with
  | case1 offset h hbyte => simp [bytesFrom_of_lt h, List.findIdx?_cons, hbyte]
  | case2 offset h hbyte ih =>
      rw [bytesFrom_of_lt h, List.findIdx?_cons, ih]
      simp [hbyte, Function.comp_def, Nat.add_assoc, Nat.add_comm 1]
  | case3 offset h => rw [bytesFrom_of_not_lt h]; rfl

theorem countByte_eq_count (source : String) (byte : UInt8) (stop count start : Nat) :
    countByte source byte stop count start =
      count + ((bytesFrom source start).take (stop - start)).count byte := by
  fun_induction countByte source byte stop count start with
  | case1 count start h hbyte ih =>
      have hwidth : stop - start = (stop - (start + 1)) + 1 := by omega
      rw [bytesFrom_of_lt h.2, hwidth, List.take_succ_cons, hbyte, List.count_cons_self, ih]
      omega
  | case2 count start h hbyte ih =>
      have hwidth : stop - start = (stop - (start + 1)) + 1 := by omega
      rw [bytesFrom_of_lt h.2, hwidth, List.take_succ_cons, List.count_cons_of_ne hbyte, ih]
  | case3 count start h =>
      by_cases hlt : start < stop
      · -- the text has ended in front of `stop`
        rw [bytesFrom_of_not_lt fun hsize => h ⟨hlt, hsize⟩]
        simp
      · rw [Nat.sub_eq_zero_of_le (Nat.le_of_not_lt hlt)]
        simp

variable {a : Char} {body : List Char}

/-- **Searching for an ASCII character** stops at the first one there is. -/
theorem findByte_of_not_mem (ha : a.toNat < 128) (hbody : a ∉ body)
    (hs : source = String.ofList (done ++ (body ++ a :: rest))) :
    findByte source a.toUInt8 (byteSize done) = some (byteSize (done ++ body)) := by
  -- no byte of `body` is found, since none of its characters is `a`
  have hnot : (encode body).findIdx? (· == a.toUInt8) = none := by
    rw [List.findIdx?_eq_none_iff]
    intro b hb
    have hne : b ≠ a.toUInt8 := fun h => hbody ((mem_encode ha).mp (h ▸ hb))
    simpa using hne
  have hhead : encode (a :: rest) = a.toUInt8 :: encode rest := by
    rw [encode, List.flatMap_cons, utf8EncodeChar_of_ascii ha]
    rfl
  have hfirst : (encode (body ++ a :: rest)).findIdx? (· == a.toUInt8) = some (byteSize body) := by
    rw [encode_append, List.findIdx?_append, hnot, hhead, List.findIdx?_cons]
    simp [length_encode]
  calc
    findByte source a.toUInt8 (byteSize done)
      = ((encode (body ++ a :: rest)).findIdx? (· == a.toUInt8)).map (byteSize done + ·) := by
        rw [findByte_eq_findIdx?, bytesFrom_eq hs]
    _ = some (byteSize done + byteSize body) := by rw [hfirst]; rfl
    _ = some (byteSize (done ++ body)) := by rw [byteSize_append]

theorem findByte_eq_none (ha : a.toNat < 128) (hrest : a ∉ rest)
    (hs : source = String.ofList (done ++ rest)) :
    findByte source a.toUInt8 (byteSize done) = none := by
  rw [findByte_eq_findIdx?, bytesFrom_eq hs, Option.map_eq_none_iff, List.findIdx?_eq_none_iff]
  intro b hb
  have hne : b ≠ a.toUInt8 := fun h => hrest ((mem_encode ha).mp (h ▸ hb))
  simpa using hne

/-- **Counting an ASCII character** by its byte. -/
theorem countByte_eq (ha : a.toNat < 128)
    (hs : source = String.ofList (done ++ (body ++ rest))) :
    countByte source a.toUInt8 (byteSize (done ++ body)) 0 (byteSize done) = body.count a := by
  have hwidth : byteSize (done ++ body) - byteSize done = (encode body).length := by
    rw [byteSize_append, length_encode]
    omega
  calc
    countByte source a.toUInt8 (byteSize (done ++ body)) 0 (byteSize done)
      = 0 + ((encode body ++ encode rest).take (encode body).length).count a.toUInt8 := by
        rw [countByte_eq_count, bytesFrom_eq hs, encode_append, hwidth]
    _ = (encode body).count a.toUInt8 := by rw [List.take_left, Nat.zero_add]
    _ = body.count a := count_encode body ha

end LoxLexer
