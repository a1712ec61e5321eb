import CanonicalHuffman.Proofs.Building
import CanonicalHuffman.Proofs.Tokens

/-!
# Messages survive a table

A reader that knows the number of symbols, the tokens of the code lengths and the bits of a message
finds the message. The tokens stand for the lengths, the lengths decide the codes, and the codes
can be told apart.
-/

namespace CanonicalHuffman

namespace Built.Sound

variable {built : Built} {limit : Nat}

/-- The lengths of a sound table are within the format. -/
theorem length_le (sound : built.Sound limit) (short : limit ≤ maxCodeLength) :
    ∀ length ∈ built.table.lengths, length.toNat ≤ maxCodeLength := by
  intro length member
  exact Nat.le_trans (sound.depths.within length member) short

/-- A sound table has tokens. -/
theorem exists_tokens (sound : built.Sound limit) (short : limit ≤ maxCodeLength) :
    ∃ tokens, built.table.tokens = .ok tokens ∧ tokens.length ≤ built.counts.length := by
  rw [← sound.depths.length_eq]
  apply Token.exists_ofLengths (sound.length_le short)
  exact Nat.le_refl _

/-- A symbol of a count that is not zero has a code. -/
theorem exists_code? (sound : built.Sound limit) {symbol : Nat} {count : UInt32}
    (found : built.counts[symbol]? = some count) (used : count ≠ 0) :
    ∃ code length, built.table.code? symbol = .ok (some (code, length)) := by
  obtain ⟨length, atLength, filled⟩ := sound.depths.exists_depth found used
  obtain ⟨code, coded⟩ := sound.readable.consistent.exists_code? atLength filled
  exact ⟨code, length, coded⟩

/-- A symbol that is used in the given counts has a code, whether they were shaped or not. -/
theorem exists_code?_of_used (sound : built.Sound limit) {options : BuildOptions}
    {counts : Histogram} (start : built.counts = CodeTable.startingCounts options counts)
    {symbol : Nat} {count : UInt32} (found : counts[symbol]? = some count) (used : count ≠ 0) :
    ∃ code length, built.table.code? symbol = .ok (some (code, length)) := by
  obtain ⟨kept, atKept, filled⟩ := CodeTable.startingCounts_ne_zero options found used
  rw [← start] at atKept
  exact sound.exists_code? atKept filled

/-- A message is found from the tokens of a sound table and the bits of the message. -/
theorem readMessage?_of_write? (sound : built.Sound limit) {tokens : List Token}
    (tokenized : built.table.tokens = .ok tokens) {message : List Nat} {bits : List Bool}
    (written : built.table.write? message = some bits) :
    readMessage? built.counts.length tokens bits = some message := by
  have sameLengths : Token.expand tokens = built.table.lengths :=
    Token.expand_of_ofLengths tokenized
  have whole : built.table.lengths.length = built.counts.length := sound.depths.length_eq
  rw [readMessage?, sameLengths, whole, sound.decided]
  show ((guard (built.counts.length = built.counts.length) : Option Unit).bind fun _ =>
    built.table.readAll? bits) = some message
  rw [guard, if_pos rfl]
  exact sound.readable.readAll?_of_write? written

end Built.Sound

namespace CodeTable

/-- Every message over symbols that are used in the given counts can be written in a table that is
built for them, and is read back from its bits and the tokens of the table. -/
theorem build_decodes_messages (options : BuildOptions) (counts : Histogram) (previous : CodeTable)
    (sizes : counts.length = previous.lengths.length) (consistent : previous.Consistent)
    (legal : 1 ≤ options.maxLength) (short : options.maxLength ≤ 15)
    (fits : counts.used ≤ 2 ^ options.maxLength) :
    ∃ built tokens, build options counts previous = .ok built ∧
      built.table.tokens = .ok tokens ∧
      Token.expand tokens = built.table.lengths ∧
      ofLengths? (Token.expand tokens) = some built.table ∧
      (∀ message : List Nat,
        (∀ symbol ∈ message, ∃ count, counts[symbol]? = some count ∧ count ≠ 0) →
        (∀ symbol ∈ message, ∃ code length,
          built.table.code? symbol = .ok (some (code, length)) ∧ length ≠ 0) ∧
        ∃ bits, built.table.write? message = some bits ∧
          readMessage? counts.length tokens bits = some message) ∧
      ∀ (message other : List Nat) (bits : List Bool), built.table.write? message = some bits →
        built.table.write? other = some bits → message = other := by
  obtain ⟨built, done, start, sound⟩ := build_ok sizes consistent legal short fits
  obtain ⟨tokens, tokenized, _⟩ := sound.exists_tokens short
  have sameLengths : Token.expand tokens = built.table.lengths :=
    Token.expand_of_ofLengths tokenized
  have whole : built.counts.length = counts.length := by rw [start, length_startingCounts]
  refine ⟨built, tokens, done, tokenized, sameLengths, ?_, ?_, ?_⟩
  · rw [sameLengths]
    exact sound.decided
  · intro message used
    have coded : ∀ symbol ∈ message, ∃ code length,
        built.table.code? symbol = .ok (some (code, length)) := by
      intro symbol member
      obtain ⟨count, found, filled⟩ := used symbol member
      exact sound.exists_code?_of_used start found filled
    constructor
    · intro symbol member
      obtain ⟨code, length, found⟩ := coded symbol member
      exact ⟨code, length, found, (code?_eq_ok_some_iff.mp found).2.1⟩
    · obtain ⟨bits, written⟩ := exists_write? coded
      refine ⟨bits, written, ?_⟩
      rw [← whole]
      exact sound.readMessage?_of_write? tokenized written
  · intro message other bits written again
    have first := sound.readable.readAll?_of_write? written
    have second := sound.readable.readAll?_of_write? again
    exact Option.some.inj (first.symm.trans second)

/-- A message over two symbols survives a table whose old entries are too long. -/
theorem build_decodes_messages_of_two_symbols :
    ∃ built tokens bits, build ⟨2, true⟩ [5, 0, 1] ⟨[99, 99, 99], [7, 7, 7]⟩ = .ok built ∧
      built.table.tokens = .ok tokens ∧ built.table.write? [0, 2, 2, 0] = some bits ∧
      readMessage? 3 tokens bits = some [0, 2, 2, 0] := by
  obtain ⟨built, tokens, done, tokenized, _, _, readable, _⟩ :=
    build_decodes_messages ⟨2, true⟩ [5, 0, 1] ⟨[99, 99, 99], [7, 7, 7]⟩ rfl rfl (by decide)
      (by decide)
      (by decide)
  have used : ∀ symbol ∈ [0, 2, 2, 0], ∃ count : UInt32,
      ([5, 0, 1] : Histogram)[symbol]? = some count ∧ count ≠ 0 := by
    intro symbol member
    simp only [List.mem_cons, List.not_mem_nil, or_false] at member
    rcases member with rfl | rfl | rfl | rfl
    · exact ⟨5, rfl, by decide⟩
    · exact ⟨1, rfl, by decide⟩
    · exact ⟨1, rfl, by decide⟩
    · exact ⟨5, rfl, by decide⟩
  obtain ⟨_, bits, written, read⟩ := readable [0, 2, 2, 0] used
  exact ⟨built, tokens, bits, done, tokenized, written, read⟩

end CodeTable

end CanonicalHuffman
