import LoxLexer.Proofs.Lines

/-!
# A line map is an index

The line of a position and the start of a line are inverse questions. Everything follows from one
fact about the list of line starts: the starts up to a position are the first ones, as many as the
line of the position says and one more (`getElem_starts_le_iff`). The first line starts at 0, so
there is always one such start, and the line is counted from 0 without going below it.

The starts of the map of a source are those just behind its line feeds (`mem_startsBehind`), which
makes its answers right for the source (`ofText_indexes`).
-/

set_option autoImplicit false

namespace LoxLexer

namespace LineMap

/-! ## Definitions -/

/-- A position is on a line: it is not before the start of the line, and the line is the last one or
the next one starts behind the position. -/
def Holds (map : LineMap) (line position : UInt32) : Prop :=
  ∃ start, map.lineStart line = .ok start ∧ start ≤ position ∧
    (line.toNat + 1 = map.lineCount ∨
      ∃ next, map.lineStart (line + 1) = .ok next ∧ position < next)

/-- **A line map is an index of a source**: it holds the starts of all lines, and it finds the line
of every position, those beyond the end of the source included. -/
structure Indexes (map : LineMap) (source : String) : Prop where
  lineCount_eq : map.lineCount = 1 + source.toByteArray.data.toList.count '\n'.toUInt8
  head_starts : map.starts.head? = some 0
  starts_rise : map.starts.Pairwise (· < ·)
  /-- The lines behind the first one start just behind the line feeds. -/
  mem_tail_starts : ∀ start : UInt32, start ∈ map.starts.tail ↔
    ∃ offset, source.toByteArray.data.toList[offset]? = some '\n'.toUInt8 ∧
      start.toNat = offset + 1
  lineStart_ok : ∀ line start, map.lineStart line = .ok start ↔
    map.starts[line.toNat]? = some start
  lineStart_error : ∀ line fault, map.lineStart line = .error fault ↔
    map.lineCount ≤ line.toNat ∧ fault = .noSuchLine map.lineCount line.toNat
  /-- The line of a position is the number of line feeds before it. -/
  counted : ∀ position, (map.lineOf position).toNat = lineFeedsUpTo source position.toNat
  /-- A position that is found among the starts is on the line that starts there. -/
  found : ∀ position i, map.starts[i]? = some position → (map.lineOf position).toNat = i
  /-- One that would have to be inserted at `i` is on the line before, and there is one. -/
  inserted : ∀ position i, (∀ start ∈ map.starts.take i, start < position) →
    (∀ start ∈ map.starts.drop i, position < start) → i ≤ map.lineCount →
      0 < i ∧ (map.lineOf position).toNat = i - 1
  holds_iff : ∀ line position, map.Holds line position ↔ line = map.lineOf position
  lineOf_lineStart : ∀ line : UInt32, line.toNat < map.lineCount →
    ∃ start, map.lineStart line = .ok start ∧ map.lineOf start = line
  lineOf_mono : ∀ position position', position ≤ position' →
    map.lineOf position ≤ map.lineOf position'

/-! ## Rising starts -/

variable {map : LineMap} {position start line : UInt32} {i : Nat}

@[simp] theorem length_starts (map : LineMap) : map.starts.length = map.lineCount := by
  simp [starts, lineCount]

/-- The starts up to a position are one more than the line says, since the first one is 0. -/
theorem countP_starts (hrise : map.starts.Pairwise (· < ·)) (hfits : map.lineCount ≤ 2 ^ 32)
    (position : UInt32) : map.starts.countP (· ≤ position) = (map.lineOf position).toNat + 1 := by
  have hlater : map.laterStarts.toList.Pairwise (· ≤ ·) :=
    (List.pairwise_cons.mp hrise).2.imp UInt32.le_of_lt
  have hcount : map.laterStarts.toList.countP (· ≤ position) ≤ map.laterStarts.size := by
    simpa using List.countP_le_length (l := map.laterStarts.toList)
  have hfirst : map.starts.countP (· ≤ position) =
      map.laterStarts.toList.countP (· ≤ position) + 1 :=
    List.countP_cons_of_pos (by simp)
  rw [hfirst, lineOf, countUpTo_eq hlater (Nat.zero_le _) hcount, toNat_clip]
  unfold lineCount at hfits
  omega

/-- **The starts up to a position are the first ones**, up to the line of the position. -/
theorem getElem_starts_le_iff (hrise : map.starts.Pairwise (· < ·))
    (hfits : map.lineCount ≤ 2 ^ 32) (hi : i < map.starts.length) :
    map.starts[i] ≤ position ↔ i ≤ (map.lineOf position).toNat := by
  have hle : map.starts.Pairwise (· ≤ ·) := hrise.imp UInt32.le_of_lt
  rw [getElem_le_iff_lt_countP hle hi, countP_starts hrise hfits]
  exact Nat.lt_succ_iff

/-- The line of a position is one of the lines. -/
theorem lineOf_lt (hrise : map.starts.Pairwise (· < ·)) (hfits : map.lineCount ≤ 2 ^ 32)
    (position : UInt32) : (map.lineOf position).toNat < map.lineCount := by
  have hcount := countP_starts hrise hfits position
  have hle := List.countP_le_length (p := (· ≤ position)) (l := map.starts)
  rw [length_starts] at hle
  omega

/-- A start is on the line that it is the start of. -/
theorem lineOf_of_getElem? (hrise : map.starts.Pairwise (· < ·)) (hfits : map.lineCount ≤ 2 ^ 32)
    (h : map.starts[i]? = some position) : (map.lineOf position).toNat = i := by
  obtain ⟨hi, hstart⟩ := List.getElem?_eq_some_iff.mp h
  have hline := lineOf_lt hrise hfits position
  rw [← length_starts] at hline
  have hle : i ≤ (map.lineOf position).toNat := by
    rw [← getElem_starts_le_iff hrise hfits hi, hstart]
    exact UInt32.le_refl position
  -- a later start that is not beyond the position would be beyond this one
  by_contra hne
  have hlt : map.starts[i] < map.starts[(map.lineOf position).toNat] :=
    List.pairwise_iff_getElem.mp hrise i _ hi hline (by omega)
  have hback : map.starts[(map.lineOf position).toNat] ≤ position :=
    (getElem_starts_le_iff hrise hfits hline).mpr (Nat.le_refl _)
  rw [hstart] at hlt
  exact UInt32.not_lt.mpr hback hlt

/-- A position between two starts is on the line of the first of them. -/
theorem lineOf_of_inserted (hrise : map.starts.Pairwise (· < ·))
    (hfits : map.lineCount ≤ 2 ^ 32) (hbefore : ∀ start ∈ map.starts.take i, start < position)
    (hbehind : ∀ start ∈ map.starts.drop i, position < start) (hi : i ≤ map.lineCount) :
    0 < i ∧ (map.lineOf position).toNat = i - 1 := by
  have hcount := countP_starts hrise hfits position
  have hparts : map.starts.countP (· ≤ position) = i := by
    have hall : (map.starts.take i).countP (· ≤ position) = (map.starts.take i).length := by
      rw [List.countP_eq_length]
      intro start hmem
      exact decide_eq_true (UInt32.le_of_lt (hbefore start hmem))
    have hnone : (map.starts.drop i).countP (· ≤ position) = 0 := by
      rw [List.countP_eq_zero]
      intro start hmem
      simpa using UInt32.not_le.mpr (hbehind start hmem)
    calc
      map.starts.countP (· ≤ position)
        = (map.starts.take i ++ map.starts.drop i).countP (· ≤ position) := by
          rw [List.take_append_drop]
      _ = (map.starts.take i).length := by rw [List.countP_append, hall, hnone, Nat.add_zero]
      _ = i := by
          rw [List.length_take, length_starts]
          omega
  omega

/-! ## Where lines start -/

theorem lineStart_eq (map : LineMap) (line : UInt32) :
    map.lineStart line =
      map.starts[line.toNat]?.elim (.error (.noSuchLine map.lineCount line.toNat)) .ok := by
  unfold lineStart
  by_cases hline : line = 0
  · rw [if_pos hline, hline]
    rfl
  · rw [if_neg hline]
    have hne : line.toNat ≠ 0 := fun h => hline (UInt32.toNat_inj.mp h)
    obtain ⟨k, hk⟩ := Nat.exists_eq_add_one_of_ne_zero hne
    rw [hk, starts, List.getElem?_cons_succ, Nat.add_sub_cancel, Array.getElem?_toList]
    cases map.laterStarts[k]? with
    | none => rfl
    | some start => rfl

theorem lineStart_eq_ok_iff :
    map.lineStart line = .ok start ↔ map.starts[line.toNat]? = some start := by
  rw [lineStart_eq]
  cases map.starts[line.toNat]? with
  | none =>
      rw [Option.elim_none]
      constructor
      · exact nofun
      · exact nofun
  | some found => rw [Option.elim_some, Except.ok.injEq, Option.some.injEq]

theorem lineStart_eq_error_iff {fault : Fault} : map.lineStart line = .error fault ↔
    map.lineCount ≤ line.toNat ∧ fault = .noSuchLine map.lineCount line.toNat := by
  rw [lineStart_eq, ← length_starts, ← List.getElem?_eq_none_iff]
  cases map.starts[line.toNat]? with
  | none =>
      rw [Option.elim_none, Except.error.injEq]
      constructor
      · intro hfault
        exact ⟨rfl, hfault.symm⟩
      · rintro ⟨-, hfault⟩
        exact hfault.symm
  | some found =>
      rw [Option.elim_some]
      constructor
      · exact nofun
      · rintro ⟨hnone, -⟩
        cases hnone

/-- **A position is on one line**, which is the one that the map answers. -/
theorem holds_iff_eq_lineOf (hrise : map.starts.Pairwise (· < ·))
    (hfits : map.lineCount ≤ 2 ^ 32) : map.Holds line position ↔ line = map.lineOf position := by
  have hlast := lineOf_lt hrise hfits position
  -- for a line that there is, the two bounds say that it is neither later nor earlier
  have hnext (hline : line.toNat + 1 < map.lineCount) :
      (line + 1).toNat = line.toNat + 1 := by
    rw [UInt32.toNat_add, UInt32.toNat_one]
    exact Nat.mod_eq_of_lt (by omega)
  unfold Holds
  simp only [lineStart_eq_ok_iff]
  constructor
  · rintro ⟨start, hstart, hle, hbound⟩
    obtain ⟨hi, rfl⟩ := List.getElem?_eq_some_iff.mp hstart
    rw [getElem_starts_le_iff hrise hfits] at hle
    rw [length_starts] at hi
    apply UInt32.toNat_inj.mp
    rcases hbound with hend | ⟨next, hsome, hlt⟩
    · omega
    · by_cases hmore : line.toNat + 1 < map.lineCount
      · rw [hnext hmore] at hsome
        obtain ⟨hi', rfl⟩ := List.getElem?_eq_some_iff.mp hsome
        rw [← UInt32.not_le, getElem_starts_le_iff hrise hfits] at hlt
        omega
      · omega
  · rintro rfl
    rw [← length_starts] at hlast
    refine ⟨_, List.getElem?_eq_getElem hlast, ?_, ?_⟩
    · exact (getElem_starts_le_iff hrise hfits hlast).mpr (Nat.le_refl _)
    · by_cases hmore : (map.lineOf position).toNat + 1 < map.lineCount
      · have hi := hmore
        rw [← length_starts] at hi
        refine Or.inr ⟨map.starts[(map.lineOf position).toNat + 1], ?_, ?_⟩
        · rw [hnext hmore]
          exact List.getElem?_eq_getElem hi
        · rw [← UInt32.not_le, getElem_starts_le_iff hrise hfits hi]
          omega
      · rw [length_starts] at hlast
        exact Or.inl (by omega)

/-! ## The map of a source -/

/-- The starts of later lines are the offsets just behind the line feeds. -/
theorem mem_startsBehind (text : List Char) {start offset : Nat} :
    start ∈ startsBehind offset text ↔
      ∃ i, (encode text)[i]? = some '\n'.toUInt8 ∧ start = offset + i + 1 := by
  induction text generalizing offset with
  | nil => simp [startsBehind, encode]
  | cons c rest ih =>
      have hencode : encode (c :: rest) = String.utf8EncodeChar c ++ encode rest :=
        List.flatMap_cons
      have hlength : (String.utf8EncodeChar c).length = c.utf8Size :=
        String.length_utf8EncodeChar c
      -- a line feed in what follows `c` is so many bytes further on
      have hrest : start ∈ startsBehind (offset + c.utf8Size) rest ↔
          ∃ i, c.utf8Size ≤ i ∧ (encode (c :: rest))[i]? = some '\n'.toUInt8 ∧
            start = offset + i + 1 := by
        rw [ih, hencode]
        constructor
        · rintro ⟨i, hi, rfl⟩
          refine ⟨c.utf8Size + i, by omega, ?_, by omega⟩
          rw [List.getElem?_append_right (by omega), hlength, Nat.add_sub_cancel_left]
          exact hi
        · rintro ⟨i, hle, hi, rfl⟩
          refine ⟨i - c.utf8Size, ?_, by omega⟩
          rw [List.getElem?_append_right (by omega), hlength] at hi
          exact hi
      unfold startsBehind
      by_cases hfeed : c = '\n'
      · subst hfeed
        have hbyte : encode ('\n' :: rest) = '\n'.toUInt8 :: encode rest := by
          rw [hencode, utf8EncodeChar_of_ascii (by decide)]
          rfl
        rw [if_pos rfl, List.mem_cons, hrest]
        constructor
        · rintro (rfl | ⟨i, -, hi, rfl⟩)
          · exact ⟨0, by rw [hbyte]; rfl, rfl⟩
          · exact ⟨i, hi, rfl⟩
        · rintro ⟨i, hi, rfl⟩
          rcases Nat.eq_zero_or_pos i with rfl | hpos
          · exact Or.inl rfl
          · exact Or.inr ⟨i, hpos, hi, rfl⟩
      · rw [if_neg hfeed, hrest]
        constructor
        · rintro ⟨i, -, hi, rfl⟩
          exact ⟨i, hi, rfl⟩
        · rintro ⟨i, hi, rfl⟩
          refine ⟨i, ?_, hi, rfl⟩
          by_contra hlt
          rw [hencode, List.getElem?_append_left (by omega)] at hi
          exact hfeed ((mem_utf8EncodeChar (by decide)).mp (List.mem_of_getElem? hi))

theorem laterStarts_ofText (source : String) :
    (ofText source).laterStarts.toList = (startsBehind 0 source.toList).map clip :=
  collectStarts_eq #[] 0 source.toList

variable {source : String}

/-- Where all offsets fit, a start that is held is one. -/
theorem mem_laterStarts_ofText (hsize : source.utf8ByteSize ≤ 2 ^ 32 - 1) :
    start ∈ (ofText source).laterStarts.toList ↔ start.toNat ∈ startsBehind 0 source.toList := by
  rw [← byteSize_toList] at hsize
  rw [laterStarts_ofText, List.mem_map]
  constructor
  · rintro ⟨offset, hmem, rfl⟩
    have hbound := (bounds_startsBehind source.toList hmem).2
    rw [toNat_clip, Nat.min_eq_left (by omega)]
    exact hmem
  · intro hmem
    exact ⟨start.toNat, hmem, clip_toNat start⟩

theorem starts_rise_ofText (hsize : source.utf8ByteSize ≤ 2 ^ 32 - 1) :
    (ofText source).starts.Pairwise (· < ·) := by
  rw [← byteSize_toList] at hsize
  unfold starts
  rw [laterStarts_ofText, List.pairwise_cons]
  constructor
  · intro start hmem
    obtain ⟨offset, hoffset, rfl⟩ := List.mem_map.mp hmem
    have hbounds := bounds_startsBehind source.toList hoffset
    rw [UInt32.lt_iff_toNat_lt, toNat_clip, UInt32.toNat_zero]
    omega
  · rw [List.pairwise_map]
    refine (pairwise_startsBehind 0 source.toList).imp_of_mem ?_
    intro first last hfirst hlast hlt
    have hbounds := bounds_startsBehind source.toList hfirst
    have hbounds' := bounds_startsBehind source.toList hlast
    rw [UInt32.lt_iff_toNat_lt, toNat_clip, toNat_clip]
    omega

theorem length_startsBehind (offset : Nat) (text : List Char) :
    (startsBehind offset text).length = text.count '\n' := by
  induction text generalizing offset with
  | nil => rfl
  | cons c rest ih =>
      unfold startsBehind
      by_cases hfeed : c = '\n' <;> simp [hfeed, ih]

theorem lineCount_ofText (source : String) :
    (ofText source).lineCount = 1 + source.toByteArray.data.toList.count '\n'.toUInt8 := by
  rw [bytes_eq_encode, count_encode _ (by decide), lineCount, ← Array.length_toList,
    laterStarts_ofText, List.length_map, length_startsBehind, Nat.add_comm]

/-- There are no more lines than 32 bits can tell apart. -/
theorem lineCount_ofText_le (hsize : source.utf8ByteSize ≤ 2 ^ 32 - 1) :
    (ofText source).lineCount ≤ 2 ^ 32 := by
  have hfeeds := count_lineFeed_le source.toList
  rw [byteSize_toList] at hfeeds
  rw [lineCount_ofText, bytes_eq_encode, count_encode _ (by decide)]
  omega

/-- **The line map of a source is an index of it.** -/
theorem ofText_indexes (source : String) (hsize : source.utf8ByteSize ≤ 2 ^ 32 - 1) :
    (ofText source).Indexes source := by
  have hrise := starts_rise_ofText hsize
  have hfits := lineCount_ofText_le hsize
  constructor
  case lineCount_eq => exact lineCount_ofText source
  case head_starts => rfl
  case starts_rise => exact hrise
  case mem_tail_starts =>
    intro start
    show start ∈ (ofText source).laterStarts.toList ↔ _
    rw [mem_laterStarts_ofText hsize, mem_startsBehind, bytes_eq_encode]
    simp only [Nat.zero_add]
  case lineStart_ok => exact fun line start => lineStart_eq_ok_iff
  case lineStart_error => exact fun line fault => lineStart_eq_error_iff
  case counted => exact fun position => toNat_lineOf hsize position
  case found => exact fun position i h => lineOf_of_getElem? hrise hfits h
  case inserted =>
    exact fun position i hbefore hbehind hi => lineOf_of_inserted hrise hfits hbefore hbehind hi
  case holds_iff => exact fun line position => holds_iff_eq_lineOf hrise hfits
  case lineOf_lineStart =>
    intro line hline
    rw [← length_starts] at hline
    have hstart := List.getElem?_eq_getElem hline
    refine ⟨_, lineStart_eq_ok_iff.mpr hstart, ?_⟩
    exact UInt32.toNat_inj.mp (lineOf_of_getElem? hrise hfits hstart)
  case lineOf_mono =>
    intro position position' hle
    rw [UInt32.le_iff_toNat_le] at hle ⊢
    rw [toNat_lineOf hsize, toNat_lineOf hsize]
    exact lineFeedsUpTo_mono hle

/-- Lines of one byte, of a character of two bytes and of none, the last one empty. -/
theorem indexes_mixed :
    "a\né\r\n\n".utf8ByteSize ≤ 2 ^ 32 - 1 ∧
      (ofText "a\né\r\n\n").Indexes "a\né\r\n\n" ∧
      (ofText "a\né\r\n\n").starts = [0, 2, 6, 7] := by
  refine ⟨by decide, ofText_indexes _ (by decide), by decide⟩

end LineMap

end LoxLexer
