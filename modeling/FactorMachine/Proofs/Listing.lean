import FactorMachine.Listing
import FactorMachine.Proofs.Text.Lines

/-!
# FactorMachine — listings read back

A listing says of each chunk what it means, or why it means nothing, and whatever that is it stands
on one line: the names of opcodes, the numbers and the fixed words of a message are all there is in
it, and none of them has a line feed. So the comment ends where its line ends, and the line below it
holds the digits of the chunk and nothing else.

That makes a listing another form of its program, also of one with cells that no instruction was
ever written to.

## Results

* `oneLine_disassemble`        — the meaning of any chunk is a text of one line.
* `ListingLine.ofChars_digits` — a chunk on a line of its own is read as the chunk.
* `parseListing_renderListing` — a program is read back from its listing.
-/

namespace FactorMachine

open Text

-- ---------------------------------------------------------------------------
-- Meanings and messages
-- ---------------------------------------------------------------------------

theorem Opcode.oneLine_name (op : Opcode) : OneLine op.name := by
  cases op <;> exact oneLine_ofList (by decide)

theorem Record.oneLine_text (record : Record) : OneLine record.text := by
  cases record with
  | instruction op operand =>
    cases operand with
    | none => exact op.oneLine_name
    | some k =>
      have hSpace : OneLine " " := oneLine_ofList (by decide)
      exact (op.oneLine_name.append hSpace).append (oneLine_toString k)
  | data value => exact .append (oneLine_ofList (by decide)) (oneLine_toString value)
  | pair position value =>
    exact .append (.between (by decide) (oneLine_toString position) (by decide))
      (oneLine_toString value)
  | degenerate => exact oneLine_ofList (by decide)

theorem PrimeError.oneLine_message (error : PrimeError) : OneLine error.message := by
  cases error with
  | notFound value => exact (oneLine_toString value).append (oneLine_ofList (by decide))
  | invalidInput => exact oneLine_ofList (by decide)
  | limitExceeded => exact .between (by decide) (oneLine_toString primeCount) (by decide)

theorem ChunkError.oneLine_message (error : ChunkError) : OneLine error.message := by
  cases error with
  | corrupt | overflow | pushWithoutOperand | operandNotAllowed | equalPair =>
    exact oneLine_ofList (by decide)
  | ambiguousOpcode chunk | noOpcode chunk | unrecognizedChunk chunk =>
    exact .between (by decide) (oneLine_toString chunk) (by decide)
  | checksumCollision record => exact .between (by decide) record.oneLine_text (by decide)
  | prime error => exact error.oneLine_message

/-- The meaning of a chunk, or the reason why it has none, is a text of one line. -/
theorem oneLine_disassemble (chunk : Chunk) : OneLine (disassemble chunk) := by
  unfold disassemble
  split
  · exact Record.oneLine_text _
  · rename_i error _
    exact .between (by decide) error.oneLine_message (by decide)

-- ---------------------------------------------------------------------------
-- The lines of a listing
-- ---------------------------------------------------------------------------

/-- The comment above a chunk. -/
def commentLine (address : Nat) (chunk : Chunk) : String :=
  s!"# {padded 4 address}: {disassemble chunk}"

theorem oneLine_commentLine (address : Nat) (chunk : Chunk) :
    OneLine (commentLine address chunk) :=
  .append (.between (by decide) (oneLine_padded 4 address) (by decide)) (oneLine_disassemble chunk)

/-- It begins with the comment sign. -/
theorem exists_commentLine_eq_cons (address : Nat) (chunk : Chunk) :
    ∃ cs, (commentLine address chunk).toList = '#' :: cs := by
  have hSign : "# ".toList = ['#', ' '] := by decide
  have hText : commentLine address chunk =
      "# " ++ padded 4 address ++ ": " ++ disassemble chunk := rfl
  simp only [hText, String.toList_append, hSign, List.cons_append]
  exact ⟨_, rfl⟩

/-- A chunk takes two lines, the comment and its digits. -/
theorem lines_renderFrom_cons (address : Nat) (chunk : Chunk) (rest : List Chunk) :
    lines (renderFrom address (chunk :: rest)).toList =
      (commentLine address chunk).toList :: Nat.toDigits 10 chunk ::
        lines (renderFrom (address + 1) rest).toList := by
  have hBreak : "\n".toList = ['\n'] := by decide
  have hText : renderFrom address (chunk :: rest) = commentLine address chunk ++ "\n" ++
      Nat.repr chunk ++ "\n" ++ renderFrom (address + 1) rest := rfl
  have hDigits : '\n' ∉ Nat.toDigits 10 chunk := by
    intro hMem
    exact absurd (isDigit_toDigits chunk _ hMem) (by decide)
  simp only [hText, String.toList_append, hBreak, Nat.toList_repr, List.append_assoc,
    List.cons_append, List.nil_append]
  rw [lines_append _ (oneLine_commentLine address chunk), lines_append _ hDigits]

/-- A line that begins with the comment sign is skipped. -/
theorem ListingLine.ofChars_comment (cs : List Char) :
    ListingLine.ofChars ('#' :: cs) = .skipped := by
  obtain ⟨rest, hTrim⟩ := trim_cons cs (show isBlank '#' = false by decide)
  unfold ListingLine.ofChars
  rw [hTrim]
  rfl

/-- A chunk on a line of its own is read as the chunk. -/
theorem ListingLine.ofChars_digits {chunk : Chunk} (h : chunk < chunkBound) :
    ListingLine.ofChars (Nat.toDigits 10 chunk) = .chunk chunk := by
  have hTrim : trim (Nat.toDigits 10 chunk) = Nat.toDigits 10 chunk :=
    trim_eq_self fun c hc => isBlank_of_isDigit (isDigit_toDigits chunk c hc)
  have hRead := natural?_toDigits h
  obtain ⟨c, rest, hDigits, hDigit⟩ := exists_toDigits_eq_cons chunk
  unfold ListingLine.ofChars
  rw [hTrim]
  rw [hDigits] at hRead ⊢
  split
  · rename_i hNil
    cases hNil
  · rename_i hComment
    rw [(List.cons.inj hComment).1] at hDigit
    cases hDigit
  · rw [hRead]

-- ---------------------------------------------------------------------------
-- Reading back
-- ---------------------------------------------------------------------------

/-- The lines of a listing hold the chunks that they were rendered from, at whatever address and
line they begin. -/
theorem chunksOfLines_renderFrom {program : List Chunk} (h : ∀ chunk ∈ program, chunk < chunkBound)
    (number address : Nat) :
    chunksOfLines number (lines (renderFrom address program).toList) = .ok program := by
  induction program generalizing number address with
  | nil => rfl
  | cons chunk rest ih =>
    obtain ⟨hChunk, hRest⟩ := List.forall_mem_cons.mp h
    obtain ⟨cs, hComment⟩ := exists_commentLine_eq_cons address chunk
    rw [lines_renderFrom_cons, chunksOfLines, hComment, ListingLine.ofChars_comment]
    dsimp only
    rw [chunksOfLines, ListingLine.ofChars_digits hChunk]
    dsimp only
    rw [ih hRest]
    rfl

/-- A program with at least one cell is read back from its listing. -/
theorem parseListing_renderListing {program : List Chunk} (hSome : program ≠ [])
    (hChunks : ∀ chunk ∈ program, chunk < chunkBound) :
    parseListing (renderListing program) = .ok program := by
  unfold parseListing renderListing
  rw [chunksOfLines_renderFrom hChunks]
  cases program with
  | nil => exact absurd rfl hSome
  | cons chunk rest => rfl

/-- The corrupt chunk, one without meaning, a checksummed one, one with two opcodes, one with an
operand but no opcode, and the largest chunk. -/
theorem parseListing_renderListing_foreign :
    [0, 1, 48695101400413, 1296, 32, chunkBound - 1] ≠ [] ∧
      (∀ chunk ∈ [0, 1, 48695101400413, 1296, 32, chunkBound - 1], chunk < chunkBound) ∧
      parseListing (renderListing [0, 1, 48695101400413, 1296, 32, chunkBound - 1]) =
        .ok [0, 1, 48695101400413, 1296, 32, chunkBound - 1] :=
  ⟨by decide, by decide, parseListing_renderListing (by decide) (by decide)⟩

end FactorMachine
