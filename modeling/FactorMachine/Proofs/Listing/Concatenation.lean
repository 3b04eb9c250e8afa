import FactorMachine.Listing
import FactorMachine.Proofs.Text.Lines
import Mathlib.Algebra.Group.Nat.Defs

/-!
# FactorMachine — listings one after another

A listing is read line by line, and what one line holds does not depend on the others: it is
skipped, or it holds a chunk, or it offends. Reading stops at the first line that offends and tells
its number and what stands on it. So a listing that is continued by another reads as the two do one
after another, but that the numbers of the lines go on.

Lines are numbered as they are counted in a text. That is not the division that a listing is read
by: there a carriage return stays at the end of its line, and a text that ends with a line feed has
one more, empty line. Neither makes a difference to what is read.

## Results

* `ofChars_eq_skipped_iff`, `ofChars_eq_chunk_iff`, `ofChars_eq_offending_iff` — what a line holds.
* `chunksOfLines_counted`  — the lines as they are counted hold the same.
* `parseListing_of_clean`, `parseListing_of_offence` — what is read from a listing.
* `parseListing_append`    — a listing that is continued by another.
-/

namespace FactorMachine

open Text

namespace ListingLine

-- ---------------------------------------------------------------------------
-- What a line holds
-- ---------------------------------------------------------------------------

/-- A line without anything on it but blanks, or with a comment, is skipped. -/
def Skippable (token : List Char) : Prop := token = [] ∨ ∃ comment, token = '#' :: comment

/-- A numeral is neither. -/
theorem not_skippable {token : List Char} {value : Nat} (h : Numeral token value) :
    ¬ Skippable token := by
  obtain ⟨c, rest, rfl, hFirst⟩ := h.exists_eq_cons
  rintro (hNil | ⟨comment, hComment⟩)
  · cases hNil
  · rw [(List.cons.inj hComment).1] at hFirst
    exact absurd hFirst (by decide)

variable {line : List Char}

theorem ofChars_of_skippable (h : Skippable (trim line)) : ofChars line = .skipped := by
  unfold ofChars
  rcases h with hNil | ⟨comment, hComment⟩
  · rw [hNil]
  · rw [hComment]
    rfl

theorem ofChars_of_not_skippable (h : ¬ Skippable (trim line)) : ofChars line =
    match natural? chunkBound (trim line) with
    | some value => .chunk value
    | none => .offending (String.ofList (trim line)) := by
  unfold ofChars
  split
  · rename_i hNil
    exact absurd (.inl hNil) h
  · rename_i comment hComment
    exact absurd (.inr ⟨comment, hComment⟩) h
  · rfl

theorem ofChars_eq_skipped_iff : ofChars line = .skipped ↔ Skippable (trim line) := by
  refine ⟨fun hSkipped => ?_, ofChars_of_skippable⟩
  by_contra hSome
  rw [ofChars_of_not_skippable hSome] at hSkipped
  split at hSkipped <;> cases hSkipped

theorem ofChars_eq_chunk_iff {value : Chunk} :
    ofChars line = .chunk value ↔ Numeral (trim line) value ∧ value < chunkBound := by
  rw [← natural?_eq_some_iff]
  constructor
  · intro hChunk
    by_cases hSkip : Skippable (trim line)
    · rw [ofChars_of_skippable hSkip] at hChunk
      cases hChunk
    · rw [ofChars_of_not_skippable hSkip] at hChunk
      split at hChunk
      · rename_i hRead
        cases hChunk
        exact hRead
      · cases hChunk
  · intro hRead
    obtain ⟨hNumeral, -⟩ := natural?_eq_some_iff.mp hRead
    rw [ofChars_of_not_skippable (not_skippable hNumeral), hRead]

/-- Any other line offends by what is left of it when it is trimmed. -/
theorem ofChars_eq_offending_iff {token : String} : ofChars line = .offending token ↔
    ofChars line ≠ .skipped ∧ (∀ value, ofChars line ≠ .chunk value) ∧
      token = String.ofList (trim line) := by
  constructor
  · intro hOffends
    rw [hOffends]
    refine ⟨nofun, nofun, ?_⟩
    by_cases hSkip : Skippable (trim line)
    · rw [ofChars_of_skippable hSkip] at hOffends
      cases hOffends
    · rw [ofChars_of_not_skippable hSkip] at hOffends
      split at hOffends
      · cases hOffends
      · cases hOffends
        rfl
  · rintro ⟨hSkipped, hChunk, rfl⟩
    rw [Ne, ofChars_eq_skipped_iff] at hSkipped
    have hRead := ofChars_of_not_skippable hSkipped
    rw [hRead]
    cases hValue : natural? chunkBound (trim line) with
    | some value =>
      rw [hValue] at hRead
      exact absurd hRead (hChunk value)
    | none => rfl

/-- The chunk that a line holds, if it does. -/
def chunk? : ListingLine → Option Chunk
  | .chunk value => some value
  | _ => none

end ListingLine

-- ---------------------------------------------------------------------------
-- Lines in a row
-- ---------------------------------------------------------------------------

/-- A line that is neither skipped nor holds a chunk. -/
def Offends (line : List Char) : Prop := ∃ token, ListingLine.ofChars line = .offending token

instance (line : List Char) : Decidable (Offends line) :=
  match h : ListingLine.ofChars line with
  | .offending token => isTrue ⟨token, h⟩
  | .skipped | .chunk _ => isFalse fun ⟨_, hOffends⟩ => by rw [h] at hOffends; cases hOffends

/-- The chunks that lines hold. -/
def chunksOn (lines : List (List Char)) : List Chunk :=
  lines.filterMap fun line => (ListingLine.ofChars line).chunk?

/-- Lines that do not offend hold their chunks. -/
theorem chunksOfLines_of_clean {lines : List (List Char)} (h : ∀ line ∈ lines, ¬ Offends line)
    (number : Nat) : chunksOfLines number lines = .ok (chunksOn lines) := by
  induction lines generalizing number with
  | nil => rfl
  | cons line rest ih =>
    obtain ⟨hLine, hRest⟩ := List.forall_mem_cons.mp h
    unfold chunksOn
    rw [chunksOfLines, List.filterMap_cons]
    cases hHolds : ListingLine.ofChars line with
    | skipped => exact ih hRest (number + 1)
    | chunk value =>
      dsimp only
      rw [ih hRest]
      rfl
    | offending token => exact absurd ⟨token, hHolds⟩ hLine

/-- The first line that offends is told by its number, whatever follows. -/
theorem chunksOfLines_of_offence {before after : List (List Char)} {line : List Char}
    {token : String} (hClean : ∀ line ∈ before, ¬ Offends line)
    (hOffends : ListingLine.ofChars line = .offending token) (number : Nat) :
    chunksOfLines number (before ++ line :: after) =
      .error (.invalidToken (number + before.length) token) := by
  induction before generalizing number with
  | nil =>
    rw [List.nil_append, chunksOfLines, hOffends]
    rfl
  | cons first before ih =>
    obtain ⟨hFirst, hRest⟩ := List.forall_mem_cons.mp hClean
    have hNext := ih hRest (number + 1)
    rw [Nat.succ_add_eq_add_succ] at hNext
    rw [List.cons_append, chunksOfLines, List.length_cons]
    cases hHolds : ListingLine.ofChars first with
    | skipped => exact hNext
    | chunk value =>
      dsimp only
      rw [hNext]
      rfl
    | offending token => exact absurd ⟨token, hHolds⟩ hFirst

/-- What is read depends on what each line holds only. -/
theorem chunksOfLines_congr {xs ys : List (List Char)}
    (h : xs.map ListingLine.ofChars = ys.map ListingLine.ofChars) (number : Nat) :
    chunksOfLines number xs = chunksOfLines number ys := by
  induction xs generalizing ys number with
  | nil => rw [List.map_eq_nil_iff.mp h.symm]
  | cons x xs ih =>
    cases ys with
    | nil => cases h
    | cons y ys =>
      obtain ⟨hFirst, hRest⟩ := List.cons.inj h
      rw [chunksOfLines, chunksOfLines, hFirst, ih hRest]

/-- An empty last line makes no difference. -/
theorem chunksOfLines_concat_nil (lines : List (List Char)) (number : Nat) :
    chunksOfLines number (lines ++ [[]]) = chunksOfLines number lines := by
  induction lines generalizing number with
  | nil => rfl
  | cons line rest ih => rw [List.cons_append, chunksOfLines, chunksOfLines, ih]

/-- The lines as they are counted hold what the lines hold that a listing is divided into. -/
theorem chunksOfLines_counted (text : List Char) (number : Nat) :
    chunksOfLines number (lines text) = chunksOfLines number (countedLines text) := by
  have hReturn : ∀ line, ListingLine.ofChars (withoutReturn line) = ListingLine.ofChars line := by
    intro line
    unfold ListingLine.ofChars
    rw [trim_withoutReturn]
  have hDivided := List.dropLast_concat_getLast (lines_ne_nil text)
  unfold countedLines
  generalize (lines text).getLast (lines_ne_nil text) = last at hDivided ⊢
  rw [← hDivided]
  have hSame (more : List (List Char)) :
      chunksOfLines number ((lines text).dropLast ++ more) =
        chunksOfLines number ((lines text).dropLast.map withoutReturn ++ more) := by
    apply chunksOfLines_congr
    rw [List.map_append, List.map_append, List.map_map]
    exact congrArg (· ++ _) (List.map_congr_left fun line _ => (hReturn line).symm)
  rw [List.dropLast_concat]
  cases last with
  | nil =>
    rw [chunksOfLines_concat_nil]
    simpa using hSame []
  | cons c cs => exact hSame [c :: cs]

-- ---------------------------------------------------------------------------
-- Listings
-- ---------------------------------------------------------------------------

/-- How many lines there are in a text. -/
def lineCount (text : String) : Nat := (countedLines text.toList).length

/-- The chunks that the lines of a text hold. -/
def chunksIn (text : String) : List Chunk := chunksOn (countedLines text.toList)

/-- The first line of a text that offends, by its number, and what stands on it. -/
def FirstOffence (text : String) (line : Nat) (token : String) : Prop :=
  ∃ before offending after, countedLines text.toList = before ++ offending :: after ∧
    line = before.length + 1 ∧ ListingLine.ofChars offending = .offending token ∧
      ∀ earlier ∈ before, ¬ Offends earlier

/-- No line of a text offends. -/
def Clean (text : String) : Prop := ∀ line ∈ countedLines text.toList, ¬ Offends line

/-- Where any line offends, one is the first. -/
theorem clean_of_no_offence {text : String} (h : ∀ line token, ¬ FirstOffence text line token) :
    Clean text := by
  -- whatever lines are clean so far, the next one is too
  have hClean : ∀ before after, countedLines text.toList = before ++ after →
      (∀ line ∈ before, ¬ Offends line) → ∀ line ∈ after, ¬ Offends line := by
    intro before after
    induction after generalizing before with
    | nil => exact fun _ _ => nofun
    | cons line after ih =>
      intro hLines hBefore
      have hLine : ¬ Offends line := by
        rintro ⟨token, hOffends⟩
        exact h _ token ⟨before, line, after, hLines, rfl, hOffends, hBefore⟩
      refine List.forall_mem_cons.mpr ⟨hLine, ih (before ++ [line]) ?_ ?_⟩
      · rw [hLines, List.append_assoc, List.singleton_append]
      · exact List.forall_mem_append.mpr ⟨hBefore, List.forall_mem_singleton.mpr hLine⟩
  exact hClean [] _ rfl nofun

/-- A listing without a line that offends is read as the chunks on its lines. -/
theorem parseListing_of_clean {text : String} (h : Clean text) : parseListing text =
    if chunksIn text = [] then .error .empty else .ok (chunksIn text) := by
  unfold parseListing
  rw [chunksOfLines_counted, chunksOfLines_of_clean h]
  show _ = if chunksOn (countedLines text.toList) = [] then _ else Except.ok (chunksOn _)
  cases chunksOn (countedLines text.toList) with
  | nil => rfl
  | cons chunk rest => rfl

theorem parseListing_of_offence {text : String} {line : Nat} {token : String}
    (h : FirstOffence text line token) :
    parseListing text = .error (.invalidToken line token) := by
  obtain ⟨before, offending, after, hLines, rfl, hOffends, hClean⟩ := h
  unfold parseListing
  rw [chunksOfLines_counted, hLines, chunksOfLines_of_offence hClean hOffends, Nat.add_comm 1]

section Continued

variable {a b : String} (hLines : countedLines (a ++ b).toList =
  countedLines a.toList ++ countedLines b.toList)
include hLines

theorem FirstOffence.append_right {line : Nat} {token : String} (h : FirstOffence a line token) :
    FirstOffence (a ++ b) line token := by
  obtain ⟨before, offending, after, hFirst, hRest⟩ := h
  refine ⟨before, offending, after ++ countedLines b.toList, ?_, hRest⟩
  rw [hLines, hFirst, List.append_assoc, List.cons_append]

theorem FirstOffence.append_left {line : Nat} {token : String} (h : FirstOffence b line token)
    (hClean : Clean a) : FirstOffence (a ++ b) (lineCount a + line) token := by
  obtain ⟨before, offending, after, hSecond, rfl, hOffends, hBefore⟩ := h
  refine ⟨countedLines a.toList ++ before, offending, after, ?_, ?_, hOffends, ?_⟩
  · rw [hLines, hSecond, List.append_assoc]
  · rw [List.length_append, Nat.add_assoc]
    rfl
  · exact List.forall_mem_append.mpr ⟨hClean, hBefore⟩

theorem Clean.append (ha : Clean a) (hb : Clean b) : Clean (a ++ b) := by
  unfold Clean
  rw [hLines]
  exact List.forall_mem_append.mpr ⟨ha, hb⟩

theorem chunksIn_append : chunksIn (a ++ b) = chunksIn a ++ chunksIn b := by
  unfold chunksIn chunksOn
  rw [hLines, List.filterMap_append]

end Continued

/-- **A listing that is continued by another.** If the first one is empty or its last line is ended,
the two together are read like this. The first line of the first one that offends is reported as it
is for the first one alone. If there is none, the first line of the second one that offends is
reported with the same token, and with its number counted on from the lines of the first one. If
there is none either, the chunks of both are the program, in order, unless there are none at all.

A line is skipped if what is left of it when it is trimmed is nothing or begins with `#`. It holds a
chunk if that is one or more digits, perhaps with a plus sign before them, of a value below
`2 ^ 128`. It offends otherwise. -/
theorem parseListing_append {a : String} (hEnd : a = "" ∨ ∃ text, a = text ++ "\n") (b : String) :
    (∀ line token, FirstOffence a line token →
      parseListing a = .error (.invalidToken line token) ∧
        parseListing (a ++ b) = .error (.invalidToken line token)) ∧
    ((∀ line token, ¬ FirstOffence a line token) →
      (∀ line token, FirstOffence b line token →
        parseListing b = .error (.invalidToken line token) ∧
          parseListing (a ++ b) = .error (.invalidToken (lineCount a + line) token)) ∧
      ((∀ line token, ¬ FirstOffence b line token) → parseListing (a ++ b) =
        if chunksIn a ++ chunksIn b = [] then .error .empty
        else .ok (chunksIn a ++ chunksIn b))) ∧
    ∀ line : List Char,
      (ListingLine.ofChars line = .skipped ↔
        trim line = [] ∨ ∃ comment, trim line = '#' :: comment) ∧
      (∀ value, ListingLine.ofChars line = .chunk value ↔
        Numeral (trim line) value ∧ value < 2 ^ 128) ∧
      ∀ token, ListingLine.ofChars line = .offending token ↔
        ListingLine.ofChars line ≠ .skipped ∧
          (∀ value, ListingLine.ofChars line ≠ .chunk value) ∧
            token = String.ofList (trim line) := by
  have hLines : countedLines (a ++ b).toList =
      countedLines a.toList ++ countedLines b.toList := by
    rw [String.toList_append]
    refine countedLines_append ?_ b.toList
    rcases hEnd with rfl | ⟨text, rfl⟩
    · exact .inl rfl
    · exact .inr ⟨text.toList, String.toList_append⟩
  refine ⟨?_, ?_, ?_⟩
  · intro line token hFirst
    exact ⟨parseListing_of_offence hFirst, parseListing_of_offence (hFirst.append_right hLines)⟩
  · intro hFirst
    have hClean := clean_of_no_offence hFirst
    refine ⟨?_, ?_⟩
    · intro line token hSecond
      exact ⟨parseListing_of_offence hSecond,
        parseListing_of_offence (hSecond.append_left hLines hClean)⟩
    · intro hSecond
      have hBoth := hClean.append hLines (clean_of_no_offence hSecond)
      rw [parseListing_of_clean hBoth, chunksIn_append hLines]
  · intro line
    exact ⟨ListingLine.ofChars_eq_skipped_iff, fun _ => ListingLine.ofChars_eq_chunk_iff,
      fun _ => ListingLine.ofChars_eq_offending_iff⟩

/-- A comment and a chunk with blanks around it, then a chunk with a sign, an empty line that ends
with a carriage return and a line that offends, which is the fifth of all. -/
theorem parseListing_append_fifth :
    ∃ text, "# one\n 81 \n" = text ++ "\n" ∧
      parseListing ("# one\n 81 \n" ++ "+7\n\r\n PUSH 3\n4") =
        .error (.invalidToken 5 "PUSH 3") := by
  refine ⟨"# one\n 81 ", by decide, ?_⟩
  obtain ⟨hFirst, hThen, -⟩ := parseListing_append (a := "# one\n 81 \n")
    (.inr ⟨"# one\n 81 ", by decide⟩) "+7\n\r\n PUSH 3\n4"
  have hRead : parseListing "# one\n 81 \n" = .ok [81] := by decide
  have hClean : ∀ line token, ¬ FirstOffence "# one\n 81 \n" line token := by
    intro line token hOffence
    obtain ⟨hAlone, -⟩ := hFirst line token hOffence
    rw [hRead] at hAlone
    cases hAlone
  have hOffence : FirstOffence "+7\n\r\n PUSH 3\n4" 3 "PUSH 3" :=
    ⟨[['+', '7'], []], " PUSH 3".toList, [['4']], by decide, rfl, by decide, by decide⟩
  obtain ⟨hSecond, -⟩ := hThen hClean
  exact (hSecond 3 "PUSH 3" hOffence).2

end FactorMachine
