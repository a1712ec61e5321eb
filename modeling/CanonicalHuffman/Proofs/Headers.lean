import CanonicalHuffman.Header
import CanonicalHuffman.Proofs.Decoding

/-!
# Headers are read back

A token code is built from the counts of the tokens, so every token has a code. A reader that takes
a code knows from it how many extra bits follow, and stops when the tokens stand for all symbols.
-/

namespace CanonicalHuffman

namespace Token

/-- The width of the extra bits depends on the code alone. -/
theorem extraBitCount_congr {token other : Token} (same : token.code = other.code) :
    token.extraBitCount = other.extraBitCount := by
  unfold extraBitCount
  rw [same]

/-- A token stands for a length or more. -/
theorem runLength_pos (token : Token) : 0 < token.runLength := by
  unfold runLength
  split
  · omega
  · split <;> omega

/-- The extra bits of a token that can be written are read back. -/
theorem WellFormed.ofBits_toBits {token : Token} (written : token.WellFormed) :
    (ofBits (toBits token.extraBitCount token.extraBits.toNat)).toUInt8 = token.extraBits := by
  rw [CanonicalHuffman.ofBits_toBits, Nat.mod_eq_of_lt written.extraBits_lt, toUInt8_toNat]

end Token

namespace Header

variable {tokenCode : CodeTable} {tokens : List Token}

/-- Tokens can be written when the token code has codes for them. -/
theorem exists_write? (coded : ∀ token ∈ tokens, ∃ code length,
      tokenCode.code? token.code.toNat = .ok (some (code, length))) :
    ∃ bits, write? tokenCode tokens = some bits := by
  induction tokens with
  | nil => exact ⟨[], rfl⟩
  | cons token rest ih =>
    rw [List.forall_mem_cons] at coded
    obtain ⟨code, length, found⟩ := coded.1
    obtain ⟨later, written⟩ := ih coded.2
    exact ⟨_, by rw [write?, CodeTable.symbolBits?_eq_some found, written]; rfl⟩

/-- The first token is read from its code and its extra bits. -/
theorem readTokens?_cons (readable : tokenCode.Readable) {token : Token}
    (wellFormed : token.WellFormed) {front : List Bool}
    (isFront : tokenCode.symbolBits? token.code.toNat = some front) {remaining : Nat}
    (room : token.runLength ≤ remaining) (rest : List Bool) :
    readTokens? tokenCode remaining
        (front ++ (toBits token.extraBitCount token.extraBits.toNat ++ rest)) =
      (readTokens? tokenCode (remaining - token.runLength) rest).map
        fun (later, after) => (token :: later, after) := by
  have taken := readable.read?_append isFront
    (toBits token.extraBitCount token.extraBits.toNat ++ rest)
  have positive := token.runLength_pos
  rw [readTokens?, if_neg (by omega)]
  split
  · next missed =>
    rw [taken] at missed
    contradiction
  · next code after found =>
    rw [taken] at found
    obtain ⟨rfl, rfl⟩ := Prod.mk.inj (Option.some.inj found)
    have width : Token.extraBitCount ⟨token.code, 0⟩ = token.extraBitCount :=
      Token.extraBitCount_congr rfl
    have bits : (toBits token.extraBitCount token.extraBits.toNat ++ rest).take
        token.extraBitCount = toBits token.extraBitCount token.extraBits.toNat := by
      rw [List.take_append_of_le_length (by simp), List.take_of_length_le (by simp)]
    have others : (toBits token.extraBitCount token.extraBits.toNat ++ rest).drop
        token.extraBitCount = rest := List.drop_left' (length_toBits _ _)
    simp only [Token.toUInt8_toNat, width, bits, others, wellFormed.ofBits_toBits]
    rw [if_neg]
    show ¬ ((toBits _ _ ++ rest).length < _ ∨ remaining < token.runLength)
    rw [List.length_append, length_toBits]
    omega

/-- Tokens are read back from their bits, whatever follows them. -/
theorem readTokens?_append (readable : tokenCode.Readable)
    (wellFormed : ∀ token ∈ tokens, token.WellFormed) {bits : List Bool}
    (written : write? tokenCode tokens = some bits) (rest : List Bool) :
    readTokens? tokenCode (Token.covered tokens) (bits ++ rest) = some (tokens, rest) := by
  induction tokens generalizing bits with
  | nil =>
    obtain rfl : [] = bits := Option.some.inj written
    rw [readTokens?]
    rfl
  | cons token later ih =>
    rw [List.forall_mem_cons] at wellFormed
    obtain ⟨front, isFront, written⟩ := Option.bind_eq_some_iff.mp written
    obtain ⟨back, isBack, written⟩ := Option.bind_eq_some_iff.mp written
    obtain rfl := Option.some.inj written
    have whole : Token.covered (token :: later) = token.runLength + Token.covered later := rfl
    rw [List.append_assoc, List.append_assoc,
      readTokens?_cons readable wellFormed.1 isFront (by omega), whole, Nat.add_sub_cancel_left,
      ih wellFormed.2 isBack]
    rfl

/-- What a header is made of: the table of the counts, its tokens, and a table of the token counts.
-/
theorem ofHistogram_eq_ok {counts : Histogram} {limit tokenLimit : Nat} {main tokenTable : Built}
    {tokenCounts : Histogram}
    (mainBuilt : CodeTable.build (BuildOptions.shaped.within limit) counts (.empty counts.length) =
      .ok main)
    (tokenized : main.table.tokens = .ok tokens)
    (counted : Token.histogram tokens = .ok tokenCounts)
    (tokenBuilt : CodeTable.build (BuildOptions.shaped.within tokenLimit) tokenCounts
      (.empty tokenAlphabetSize) = .ok tokenTable) :
    ofHistogram counts limit tokenLimit = .ok ⟨main, tokens, tokenTable⟩ := by
  simp only [ofHistogram, bind, Except.bind, mainBuilt, tokenized, counted, tokenBuilt]
  rfl

/-- Tokens that can be written have a code of their own, with a code for each of them, when their
different codes fit the limit. -/
theorem exists_tokenCode {tokenLimit : Nat} (wellFormed : ∀ token ∈ tokens, token.WellFormed)
    (few : tokens.length < 2 ^ 32) (legal : 1 ≤ tokenLimit) (short : tokenLimit ≤ maxCodeLength)
    (room : (Token.distinctCodes tokens).length ≤ 2 ^ tokenLimit) :
    ∃ (tokenCounts : Histogram) (tokenTable : Built),
      Token.histogram tokens = .ok tokenCounts ∧
      CodeTable.build (BuildOptions.shaped.within tokenLimit) tokenCounts
        (.empty tokenAlphabetSize) = .ok tokenTable ∧
      tokenTable.Sound tokenLimit ∧
      ∀ token ∈ tokens, ∃ code length,
        tokenTable.table.code? token.code.toNat = .ok (some (code, length)) := by
  have counted := Token.histogram_eq wellFormed
  obtain ⟨tokenTable, built, start, sound⟩ :=
    @CodeTable.build_empty_ok (BuildOptions.shaped.within tokenLimit) _ legal short
      (Nat.le_trans (Token.used_histogram_le wellFormed counted) room) _
      (Token.length_histogram counted)
  refine ⟨_, tokenTable, counted, built, sound, fun token member => ?_⟩
  obtain ⟨count, found, filled⟩ := Token.histogram_ne_zero wellFormed counted few member
  exact sound.exists_code?_of_used start found filled

/-- The tokens of every table are read back from a header, as long as the different codes of the
tokens fit the limit of the token code. A limit of five bits and more always has room for them. -/
theorem header_read_back (counts : Histogram) (limit tokenLimit : Nat)
    (few : counts.length < 2 ^ 32)
    (legal : 1 ≤ limit) (short : limit ≤ 15) (fits : counts.used ≤ 2 ^ limit)
    (tokenLegal : 1 ≤ tokenLimit) (tokenShort : tokenLimit ≤ 15) :
    ∃ main tokens, CodeTable.build (BuildOptions.shaped.within limit) counts
        (.empty counts.length) = .ok main ∧
      main.table.tokens = .ok tokens ∧
      (5 ≤ tokenLimit → (Token.distinctCodes tokens).length ≤ 2 ^ tokenLimit) ∧
      ((Token.distinctCodes tokens).length ≤ 2 ^ tokenLimit →
        ∃ header bits, ofHistogram counts limit tokenLimit = .ok header ∧
          header.main = main ∧ header.tokens = tokens ∧
          (∀ token ∈ tokens, ∃ code length,
            header.tokenCode.table.code? token.code.toNat = .ok (some (code, length)) ∧
              length ≠ 0) ∧
          write? header.tokenCode.table tokens = some bits ∧
          ∀ rest : List Bool, read? header.tokenCode.table.lengths counts.length (bits ++ rest) =
            some (tokens, rest)) := by
  obtain ⟨main, mainBuilt, start, sound⟩ :=
    @CodeTable.build_empty_ok (BuildOptions.shaped.within limit) counts legal short fits _ rfl
  obtain ⟨tokens, tokenized, fewer⟩ := sound.exists_tokens short
  have wellFormed := Token.wellFormed_of_ofLengths tokenized
  have whole : main.counts.length = counts.length := by
    rw [start, CodeTable.length_startingCounts]
  refine ⟨main, tokens, mainBuilt, tokenized, fun wide => ?_, fun room => ?_⟩
  · calc
      (Token.distinctCodes tokens).length ≤ tokenAlphabetSize :=
        Token.length_distinctCodes_le wellFormed
      _ ≤ 2 ^ 5 := by decide
      _ ≤ 2 ^ tokenLimit := Nat.pow_le_pow_right (by decide) wide
  · obtain ⟨tokenCounts, tokenTable, counted, tokenBuilt, tokenSound, coded⟩ :=
      exists_tokenCode wellFormed (by omega) tokenLegal tokenShort room
    obtain ⟨bits, written⟩ := exists_write? coded
    refine ⟨⟨main, tokens, tokenTable⟩, bits,
      ofHistogram_eq_ok mainBuilt tokenized counted tokenBuilt, rfl, rfl, ?_, written, ?_⟩
    · intro token member
      obtain ⟨code, length, found⟩ := coded token member
      exact ⟨code, length, found, (CodeTable.code?_eq_ok_some_iff.mp found).2.1⟩
    · intro rest
      have covered : Token.covered tokens = counts.length := by
        rw [← Token.length_expandFrom initialPrevious, ← Token.expand,
          Token.expand_of_ofLengths tokenized, sound.depths.length_eq, whole]
      simp only [read?, tokenSound.decided, Option.bind_eq_bind, Option.bind_some]
      rw [← covered]
      exact readTokens?_append tokenSound.readable wellFormed written rest

/-- The header of three symbols at the tightest limit is read back with a bit behind it. -/
theorem header_read_back_of_three_symbols :
    ∃ header bits, ofHistogram [4, 0, 0, 0, 2, 1] 2 5 = .ok header ∧
      write? header.tokenCode.table header.tokens = some bits ∧
      read? header.tokenCode.table.lengths 6 (bits ++ [true]) = some (header.tokens, [true]) := by
  obtain ⟨main, tokens, _, _, wide, readable⟩ := header_read_back [4, 0, 0, 0, 2, 1] 2 5 (by decide)
    (by decide) (by decide) (by decide) (by decide) (by decide)
  obtain ⟨header, bits, made, _, rfl, _, written, read⟩ := readable (wide (by decide))
  exact ⟨header, bits, made, written, read [true]⟩

end Header

end CanonicalHuffman
