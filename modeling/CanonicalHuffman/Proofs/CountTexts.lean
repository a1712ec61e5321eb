import CanonicalHuffman.CountText
import CanonicalHuffman.Fault
import Mathlib.Data.List.Forall2
import Mathlib.Data.List.TakeWhile

/-!
# What a text of counts may look like

A text is laid out as pieces with separators before, between and behind them, in one way only. It is
read when every piece denotes a number of 32 bits, and then the numbers are its counts. Otherwise
the first piece that does not is reported. Its characters are read from left to right: the number is
too large when the digits that the piece begins with have grown past the largest count before
another character is met, and a digit is wrong in every other case.
-/

namespace CanonicalHuffman

namespace Text

/-- Digits read one after the other continue the number. -/
theorem decimalFrom_append (value : Nat) (front back : List Char) :
    decimalFrom value (front ++ back) = decimalFrom (decimalFrom value front) back :=
  List.foldl_append

/-- A digit in front continues the number first. -/
theorem decimalFrom_cons {char : Char} {digit : Nat} (isDigit : digit? char = some digit)
    (value : Nat) (rest : List Char) :
    decimalFrom value (char :: rest) = decimalFrom (10 * value + digit) rest := by
  rw [decimalFrom, List.foldl_cons, isDigit]
  rfl

/-- Further digits do not make a number smaller. -/
theorem le_decimalFrom (value : Nat) (digits : List Char) : value ≤ decimalFrom value digits := by
  induction digits generalizing value with
  | nil => exact Nat.le_refl _
  | cons char rest ih =>
    have later := ih (10 * value + (digit? char).getD 0)
    rw [decimalFrom] at later
    rw [decimalFrom, List.foldl_cons]
    omega

/-- Some digits in front of a text exceed a limit exactly when all of them do. -/
theorem exists_digits_iff {value limit : Nat} {text : List Char} :
    (∃ digits rest, text = digits ++ rest ∧ (∀ char ∈ digits, isDigit char) ∧
      limit < decimalFrom value digits) ↔ limit < decimalFrom value (text.takeWhile isDigit) := by
  constructor
  · rintro ⟨digits, rest, rfl, allDigits, exceeds⟩
    rw [List.takeWhile_append_of_pos allDigits, decimalFrom_append]
    exact Nat.lt_of_lt_of_le exceeds (le_decimalFrom ..)
  · intro exceeds
    exact ⟨_, _, (List.takeWhile_append_dropWhile ..).symm,
      fun char member => List.mem_takeWhile_imp member, exceeds⟩

end Text

namespace CountText

variable {text piece : List Char} {value : Nat} {count : UInt32} {bad : BadCount}

/-- A piece denotes a number: it consists of one decimal digit or more, with a plus sign in front of
them or without one. -/
def Denotes (piece : List Char) (value : Nat) : Prop :=
  ∃ digits, (piece = digits ∨ piece = '+' :: digits) ∧ digits ≠ [] ∧
    (∀ char ∈ digits, Text.isDigit char) ∧ Text.decimal digits = value

/-- A piece begins with digits, behind a plus sign or not, whose number exceeds the largest count.
-/
def BeginsTooLarge (piece : List Char) : Prop :=
  ∃ digits rest, (piece = digits ++ rest ∨ piece = '+' :: (digits ++ rest)) ∧
    (∀ char ∈ digits, Text.isDigit char) ∧ 4294967295 < Text.decimal digits

/-- Digits are read when there is nothing else and their number is not too large. -/
theorem readDigits_eq_ok_iff (small : value ≤ maxCount) :
    readDigits value text = .ok count ↔
      (∀ char ∈ text, Text.isDigit char) ∧ Text.decimalFrom value text = count.toNat := by
  induction text generalizing value with
  | nil =>
    have exact : value.toUInt32.toNat = value := by
      rw [maxCount, UInt32.size] at small
      rw [Nat.toUInt32_eq, UInt32.toNat_ofNat']
      omega
    simp [readDigits, Text.decimalFrom, ← UInt32.toNat_inj, exact]
  | cons char rest ih =>
    rw [readDigits, List.forall_mem_cons]
    cases isDigit : Text.digit? char with
    | none => simp [Text.isDigit, isDigit]
    | some digit =>
      have larger := Text.le_decimalFrom (10 * value + digit) rest
      have bound : count.toNat ≤ maxCount := Nat.le_sub_one_of_lt count.toNat_lt
      rw [Text.decimalFrom_cons isDigit]
      by_cases large : maxCount < 10 * value + digit
      · simp only [large, if_true, reduceCtorEq, false_iff]
        omega
      · simp only [large, if_false, ih (Nat.le_of_not_lt large), Text.isDigit, isDigit,
          Option.isSome_some, true_and]

/-- Digits are too large when those in front are, whatever follows them. -/
theorem readDigits_eq_tooLarge_iff (small : value ≤ maxCount) :
    readDigits value text = .error .tooLarge ↔
      maxCount < Text.decimalFrom value (text.takeWhile Text.isDigit) := by
  induction text generalizing value with
  | nil => simpa [readDigits, Text.decimalFrom] using small
  | cons char rest ih =>
    rw [readDigits]
    cases isDigit : Text.digit? char with
    | none =>
      rw [List.takeWhile_cons_of_neg (by simp [Text.isDigit, isDigit])]
      simpa [Text.decimalFrom] using small
    | some digit =>
      have larger := Text.le_decimalFrom (10 * value + digit) (rest.takeWhile Text.isDigit)
      rw [List.takeWhile_cons_of_pos (by simp [Text.isDigit, isDigit]),
        Text.decimalFrom_cons isDigit]
      by_cases large : maxCount < 10 * value + digit
      · simp only [large, if_true, true_iff]
        omega
      · simp only [large, if_false, ih (Nat.le_of_not_lt large)]

/-- A piece is its digits, with a plus sign in front of them or without one. -/
theorem eq_or_eq_plus_digitsOf (piece : List Char) :
    piece = digitsOf piece ∨ piece = '+' :: digitsOf piece := by
  unfold digitsOf
  split
  · exact .inr rfl
  · exact .inl rfl

/-- What begins with a digit and stands behind a plus sign or not are the digits of the piece. -/
theorem digitsOf_eq {char : Char} {rest : List Char} (digit : Text.isDigit char)
    (split : piece = char :: rest ∨ piece = '+' :: char :: rest) :
    digitsOf piece = char :: rest := by
  rcases split with rfl | rfl
  · have noPlus : char ≠ '+' := by
      rintro rfl
      exact absurd digit (by decide)
    simp [digitsOf, noPlus]
  · rfl

/-- A piece denotes the number of its digits. -/
theorem denotes_iff : Denotes piece value ↔ digitsOf piece ≠ [] ∧
    (∀ char ∈ digitsOf piece, Text.isDigit char) ∧ Text.decimal (digitsOf piece) = value := by
  constructor
  · rintro ⟨digits, split, filled, allDigits, denoted⟩
    obtain ⟨char, rest, rfl⟩ := List.exists_cons_of_ne_nil filled
    rw [digitsOf_eq (allDigits char List.mem_cons_self) split]
    exact ⟨filled, allDigits, denoted⟩
  · exact fun digits => ⟨digitsOf piece, eq_or_eq_plus_digitsOf piece, digits⟩

/-- A piece begins too large when the digits it begins with are too large. -/
theorem beginsTooLarge_iff : BeginsTooLarge piece ↔
    maxCount < Text.decimal ((digitsOf piece).takeWhile Text.isDigit) := by
  rw [Text.decimal, ← Text.exists_digits_iff]
  constructor
  · rintro ⟨digits, rest, split, allDigits, large⟩
    cases digits with
    | nil => exact absurd large (Nat.not_lt_zero _)
    | cons char later =>
      exact ⟨char :: later, rest, digitsOf_eq (allDigits char List.mem_cons_self) split, allDigits,
        large⟩
  · rintro ⟨digits, rest, split, allDigits, large⟩
    exact ⟨digits, rest, split ▸ eq_or_eq_plus_digitsOf piece, allDigits, large⟩

/-- The digits of a number denote it. -/
theorem denotes_toDigits (value : Nat) : Denotes (Nat.toDigits 10 value) value :=
  ⟨_, .inl rfl, Nat.toDigits_ne_nil, fun _ => Text.isDigit_of_mem_toDigits,
    Text.decimal_toDigits value⟩

/-- A piece is read as the number that it denotes. -/
theorem readPiece_eq_ok_iff : readPiece piece = .ok count ↔ Denotes piece count.toNat := by
  rw [readPiece, denotes_iff]
  split
  · next empty => simp [empty]
  · next filled => rw [readDigits_eq_ok_iff (Nat.zero_le _)]; exact (and_iff_right filled).symm

/-- A piece is too large when it begins so. -/
theorem readPiece_eq_tooLarge_iff : readPiece piece = .error .tooLarge ↔ BeginsTooLarge piece := by
  rw [readPiece, beginsTooLarge_iff]
  split
  · next empty => simp [empty, Text.decimal, Text.decimalFrom]
  · exact readDigits_eq_tooLarge_iff (Nat.zero_le _)

/-- A piece is read when it denotes a number of 32 bits. -/
theorem exists_readPiece_iff :
    (∃ count, readPiece piece = .ok count) ↔ ∃ value ≤ 4294967295, Denotes piece value := by
  constructor
  · rintro ⟨count, read⟩
    exact ⟨count.toNat, Nat.le_sub_one_of_lt count.toNat_lt, readPiece_eq_ok_iff.mp read⟩
  · rintro ⟨value, small, denotes⟩
    refine ⟨.ofNat value, readPiece_eq_ok_iff.mpr ?_⟩
    rwa [UInt32.toNat_ofNat', Nat.mod_eq_of_lt (by omega)]

/-- What is wrong with a piece that denotes no number of 32 bits. -/
theorem readPiece_eq_error_iff : readPiece piece = .error bad ↔
    (¬ ∃ value ≤ 4294967295, Denotes piece value) ∧
      ((bad = .tooLarge ∧ BeginsTooLarge piece) ∨
        (bad = .invalidDigit ∧ ¬ BeginsTooLarge piece)) := by
  rw [← exists_readPiece_iff, ← readPiece_eq_tooLarge_iff]
  cases readPiece piece with
  | ok count => simp
  | error wrong => cases wrong <;> cases bad <;> simp

section Traversal

variable {α β ε : Type} {f : α → Except ε β} {entries : List α}

/-- Entries are passed when each of them is. -/
theorem mapM_eq_ok_iff {values : List β} : entries.mapM f = .ok values ↔
    List.Forall₂ (fun entry value => f entry = .ok value) entries values := by
  induction entries generalizing values with
  | nil => simp [pure, Except.pure, eq_comm]
  | cons first rest ih =>
    simp only [List.mapM_cons, bind_eq_ok_iff, ih, List.forall₂_cons_left_iff, pure, Except.pure,
      Except.ok.injEq, exists_and_left, @eq_comm _ values (_ :: _)]

/-- There are values to pass entries with when there is one for each of them. -/
theorem exists_forall₂_iff :
    (∃ values, List.Forall₂ (fun entry value => f entry = .ok value) entries values) ↔
      ∀ entry ∈ entries, ∃ value, f entry = .ok value := by
  induction entries with
  | nil => simp
  | cons first rest ih =>
    rw [List.forall_mem_cons, ← ih]
    constructor
    · rintro ⟨_, passed⟩
      cases passed with
      | cons head tail => exact ⟨⟨_, head⟩, ⟨_, tail⟩⟩
    · rintro ⟨⟨value, head⟩, values, tail⟩
      exact ⟨value :: values, .cons head tail⟩

/-- Entries fail where the first of them fails. -/
theorem mapM_eq_error_iff {wrong : ε} : entries.mapM f = .error wrong ↔
    ∃ front entry back, entries = front ++ entry :: back ∧
      (∀ earlier ∈ front, ∃ value, f earlier = .ok value) ∧ f entry = .error wrong := by
  induction entries with
  | nil => simp [pure, Except.pure]
  | cons first rest ih =>
    have unfolded : (first :: rest).mapM f = .error wrong ↔
        f first = .error wrong ∨ ∃ value, f first = .ok value ∧ rest.mapM f = .error wrong := by
      simp [List.mapM_cons, bind_eq_error_iff, pure, Except.pure]
    rw [unfolded]
    constructor
    · rintro (fails | ⟨value, passed, later⟩)
      · exact ⟨[], first, rest, rfl, by simp, fails⟩
      · obtain ⟨front, entry, back, rfl, before, fails⟩ := ih.mp later
        exact ⟨first :: front, entry, back, rfl,
          List.forall_mem_cons.mpr ⟨⟨value, passed⟩, before⟩, fails⟩
    · rintro ⟨front, entry, back, split, before, fails⟩
      cases front with
      | nil =>
        obtain ⟨rfl, rfl⟩ := List.cons.inj split
        exact .inl fails
      | cons head front =>
        obtain ⟨rfl, rfl⟩ := List.cons.inj split
        obtain ⟨⟨value, passed⟩, others⟩ := List.forall_mem_cons.mp before
        exact .inr ⟨value, passed, ih.mpr ⟨front, entry, back, rfl, others, fails⟩⟩

end Traversal

/-- Pieces are laid out in a text with separators between them. There may be separators in front of
the first piece and behind the last one as well, and any number of them anywhere. -/
inductive LaidOut : List (List Char) → List Char → Prop where
  /-- There is nothing in an empty text. -/
  | empty : LaidOut [] []
  /-- A separator in front of a text adds nothing to it. -/
  | separator {char : Char} {others : List (List Char)} {rest : List Char} (ends : isSeparator char)
      (later : LaidOut others rest) : LaidOut others (char :: rest)
  /-- A piece may end the text. -/
  | last {piece : List Char} (filled : piece ≠ [])
    (plain : ∀ char ∈ piece, isSeparator char = false) :
      LaidOut [piece] piece
  /-- A separator ends a piece. -/
  | piece {piece : List Char} {char : Char} {others : List (List Char)} {rest : List Char}
      (filled : piece ≠ []) (plain : ∀ char ∈ piece, isSeparator char = false)
      (ends : isSeparator char) (later : LaidOut others rest) :
      LaidOut (piece :: others) (piece ++ char :: rest)

/-- The pieces of a text are those that are laid out in it. -/
theorem LaidOut.pieces_eq {others : List (List Char)} (laidOut : LaidOut others text) :
    pieces text = others := by
  induction laidOut with
  | empty => rfl
  | separator ends _ ih => rw [← ih, pieces, Text.pieces_cons ends, pieces]
  | last filled plain => rw [pieces, Text.pieces_of_forall filled plain]
  | piece filled plain ends _ ih =>
    rw [← ih, pieces, Text.pieces_append_cons ends, Text.pieces_of_forall filled plain, pieces]
    rfl

/-- A character that is no separator begins a piece or continues the one behind it. -/
theorem LaidOut.exists_cons {char : Char} {others : List (List Char)}
    (plain : isSeparator char = false) (laidOut : LaidOut others text) :
    ∃ pieces, LaidOut pieces (char :: text) := by
  have single : ∀ own ∈ [char], isSeparator own = false := by simpa using plain
  cases laidOut with
  | empty => exact ⟨_, .last (List.cons_ne_nil _ _) single⟩
  | separator ends later => exact ⟨_, .piece (List.cons_ne_nil _ _) single ends later⟩
  | last _ plainLater =>
    exact ⟨_, .last (List.cons_ne_nil _ _) (List.forall_mem_cons.mpr ⟨plain, plainLater⟩)⟩
  | piece _ plainLater ends later =>
    exact ⟨_, .piece (List.cons_ne_nil char _)
      (List.forall_mem_cons.mpr ⟨plain, plainLater⟩) ends later⟩

/-- Every text lays out its pieces, and no others. -/
theorem pieces_eq_iff {others : List (List Char)} : pieces text = others ↔ LaidOut others text := by
  refine ⟨?_, LaidOut.pieces_eq⟩
  rintro rfl
  have exists_pieces : ∃ own, LaidOut own text := by
    induction text with
    | nil => exact ⟨[], .empty⟩
    | cons char rest ih =>
      obtain ⟨own, laidOut⟩ := ih
      cases ends : isSeparator char with
      | true => exact ⟨own, .separator ends laidOut⟩
      | false => exact laidOut.exists_cons ends
  obtain ⟨own, laidOut⟩ := exists_pieces
  rwa [laidOut.pieces_eq]

/-- A text of counts is read exactly when every piece of it denotes a number of 32 bits, and then
the numbers are the counts, in order; so counts written in digits are read back, whatever separates
them. Otherwise the first piece that does not is reported: as too large when it begins with digits
whose number exceeds the largest count, and as a wrong digit in every other case. The two have
different texts. -/
theorem read_outcome (text : List Char) :
    (∀ others, pieces text = others ↔ LaidOut others text) ∧
    (∀ counts, read text = .ok counts ↔ ∃ others, LaidOut others text ∧
      List.Forall₂ (fun piece count => Denotes piece count.toNat) others counts) ∧
    (∀ counts, LaidOut (counts.map fun count => Nat.toDigits 10 count.toNat) text →
      read text = .ok counts) ∧
    ((∃ counts, read text = .ok counts) ↔
      ∀ piece ∈ pieces text, ∃ value ≤ 4294967295, Denotes piece value) ∧
    (∀ bad, read text = .error bad ↔ ∃ front piece back, pieces text = front ++ piece :: back ∧
      (∀ earlier ∈ front, ∃ value ≤ 4294967295, Denotes earlier value) ∧
      (¬ ∃ value ≤ 4294967295, Denotes piece value) ∧
      ((bad = .tooLarge ∧ BeginsTooLarge piece) ∨ (bad = .invalidDigit ∧ ¬ BeginsTooLarge piece))) ∧
    BadCount.tooLarge.message = "number too large to fit in target type" ∧
    BadCount.invalidDigit.message = "invalid digit found in string" := by
  have accepted : ∀ counts, read text = .ok counts ↔ ∃ others, LaidOut others text ∧
      List.Forall₂ (fun piece count => Denotes piece count.toNat) others counts := by
    intro counts
    simp only [← pieces_eq_iff, exists_eq_left', read, mapM_eq_ok_iff, readPiece_eq_ok_iff]
  refine ⟨fun others => pieces_eq_iff, accepted, ?_, ?_, ?_, rfl, rfl⟩
  · intro counts laidOut
    refine (accepted counts).mpr ⟨_, laidOut, ?_⟩
    exact List.forall₂_map_left_iff.mpr (List.forall₂_same.mpr fun count _ => denotes_toDigits _)
  · simp only [read, mapM_eq_ok_iff, exists_forall₂_iff, exists_readPiece_iff]
  · intro bad
    simp only [read, mapM_eq_error_iff, readPiece_eq_error_iff, exists_readPiece_iff]

/-- Signs and leading zeros are read, and a no-break space separates. Of two bad pieces the first
counts, and its digits grow too large before the letter is met. -/
theorem read_outcome_of_two_texts :
    read "+7,\x09007\u00a00\n".toList = .ok [7, 7, 0] ∧
      read "1 42949672960x -1".toList = .error .tooLarge := by
  have digits : ∀ {text : List Char}, text.all Text.isDigit → ∀ char ∈ text, Text.isDigit char :=
    List.all_eq_true.mp
  constructor
  · obtain ⟨laidOut, accepted, _⟩ := read_outcome "+7,\x09007\u00a00\n".toList
    refine (accepted _).mpr
      ⟨["+7".toList, "007".toList, "0".toList], (laidOut _).mp (by decide), ?_⟩
    exact .cons ⟨['7'], .inr rfl, by decide, digits rfl, rfl⟩ <|
      .cons ⟨['0', '0', '7'], .inl rfl, by decide, digits rfl, rfl⟩ <|
      .cons ⟨['0'], .inl rfl, by decide, digits rfl, rfl⟩ .nil
  · obtain ⟨_, _, _, _, refused, _⟩ := read_outcome "1 42949672960x -1".toList
    refine (refused _).mpr
      ⟨["1".toList], "42949672960x".toList, ["-1".toList], by decide, ?_, ?_, ?_⟩
    · intro earlier member
      obtain rfl := List.mem_singleton.mp member
      exact ⟨1, by decide, ['1'], .inl rfl, by decide, digits rfl, rfl⟩
    · rintro ⟨value, _, denotes⟩
      have letter := List.all_eq_true.mpr (denotes_iff.mp denotes).2.1
      exact absurd letter (by decide)
    · exact .inl ⟨rfl, "42949672960".toList, ['x'], .inl rfl, digits rfl, by decide⟩

end CountText

end CanonicalHuffman
