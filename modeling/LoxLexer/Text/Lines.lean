/-!
# Lines of text

Everything the program prints is made of lines, and each line ends with a line feed, the last
one too. So the lines of two texts in turn are the lines of their concatenation
(`unlines_append`).
-/

set_option autoImplicit false

namespace LoxLexer

/-- Lines of text, each ended by a line feed. -/
def unlines (lines : List String) : String := String.join (lines.map fun line => line ++ "\n")

theorem unlines_singleton (line : String) : unlines [line] = line ++ "\n" := by
  simp [unlines]

theorem unlines_append (first second : List String) :
    unlines (first ++ second) = unlines first ++ unlines second := by
  simp [unlines, String.join_append]

/-- Lines that come in groups. -/
theorem unlines_flatMap {α : Type} (lines : α → List String) (items : List α) :
    unlines (items.flatMap lines) = String.join (items.map fun item => unlines (lines item)) := by
  induction items with
  | nil => rfl
  | cons item items ih =>
      rw [List.flatMap_cons, unlines_append, ih, List.map_cons, String.join_cons]

/-- The lines of all items of some lists. -/
theorem unlines_flatMap_map {α β : Type} (line : β → String) (items : α → List β) (lists : List α) :
    unlines (lists.flatMap fun a => (items a).map line) =
      String.join (lists.flatMap fun a => (items a).map fun b => line b ++ "\n") := by
  rw [unlines, List.map_flatMap]
  simp only [List.map_map, Function.comp_def]

theorem toList_unlines (lines : List String) :
    (unlines lines).toList = lines.flatMap fun line => line.toList ++ ['\n'] := by
  induction lines with
  | nil => rfl
  | cons line lines ih =>
      have hcons : unlines (line :: lines) = line ++ "\n" ++ unlines lines :=
        String.join_cons
      rw [hcons, String.toList_append, ih, String.toList_append, List.flatMap_cons]
      rfl

end LoxLexer
