import CanonicalHuffman.Text.Digits

/-!
# Pieces of a text

A text is cut at the characters that separate, and what stands between them, where anything does,
are its pieces. The words of a text stand between blanks, and its numbers between characters that
are no digits. Lines end with a line break, and an empty line stands between two paragraphs.
-/

namespace CanonicalHuffman

namespace Text

variable {separates : Char → Bool} {separator : Char} {text front rest : List Char}

/-- The parts of a text between the characters that separate, without the empty ones. -/
def pieces (separates : Char → Bool) (text : List Char) : List (List Char) :=
  (text.splitOnP separates).filter (· ≠ [])

/-- A separator ends the pieces in front of it. -/
theorem pieces_append_cons (ends : separates separator) (front rest : List Char) :
    pieces separates (front ++ separator :: rest) =
      pieces separates front ++ pieces separates rest := by
  rw [pieces, List.splitOnP_append_cons front rest ends, List.filter_append]
  rfl

/-- A separator in front of a text adds no piece. -/
theorem pieces_cons (ends : separates separator) (rest : List Char) :
    pieces separates (separator :: rest) = pieces separates rest :=
  pieces_append_cons ends [] rest

/-- Any number of separators in front of a text add no piece. -/
theorem pieces_append_of_all (ends : front.all separates) (rest : List Char) :
    pieces separates (front ++ rest) = pieces separates rest := by
  induction front with
  | nil => rfl
  | cons char front ih =>
    rw [List.all_cons, Bool.and_eq_true] at ends
    rw [List.cons_append, pieces_cons ends.1, ih ends.2]

/-- A text without separators is one piece. -/
theorem pieces_of_forall (filled : text ≠ []) (plain : ∀ char ∈ text, separates char = false) :
    pieces separates text = [text] := by
  rw [pieces, List.splitOnP_eq_singleton plain, List.filter_cons_of_pos (by simpa using filled)]
  rfl

/-- The words of a text: its pieces between blanks. -/
def words (text : List Char) : List (List Char) := pieces (· = ' ') text

/-- The numbers of a text: what its pieces of decimal digits stand for. -/
def numbers (text : List Char) : List Nat := (pieces (fun char => !isDigit char) text).map decimal

/-- The lines of a text, each of which ends with a line break. -/
def lines (text : List Char) : List (List Char) := (text.splitOn '\n').dropLast

/-- The paragraphs of a text: its lines, cut at the empty ones. -/
def paragraphs (text : List Char) : List (List (List Char)) := (lines text).splitOn []

/-- The words of two texts with a blank between them. -/
theorem words_append_blank (front rest : List Char) :
    words (front ++ ' ' :: rest) = words front ++ words rest :=
  pieces_append_cons (decide_eq_true rfl) front rest

/-- Lines without a line break in them are read back from the text that they make up. -/
theorem lines_flatMap {all : List (List Char)} (plain : ∀ line ∈ all, '\n' ∉ line) :
    lines (all.flatMap (· ++ ['\n'])) = all := by
  have cut : (all.flatMap (· ++ ['\n'])).splitOn '\n' = all ++ [[]] := by
    induction all with
    | nil => rfl
    | cons line others ih =>
      rw [List.forall_mem_cons] at plain
      rw [List.flatMap_cons, List.append_assoc, List.singleton_append,
        List.splitOn_append_cons_self_of_not_mem plain.1, ih plain.2, List.cons_append]
  rw [lines, cut, List.dropLast_concat]

end Text

end CanonicalHuffman
