import FactorMachine.Proofs.Text.Numeral
import FactorMachine.Text.Blank
import Mathlib.Data.List.DropRight

/-!
# FactorMachine — texts of one line

A text is divided into lines where a line feed stands, and nowhere else. So what is put in front of
a line feed comes back as one line, if it has no line feed of its own: it is `OneLine`. Numbers are,
and so is what is put together from such texts.

The pieces between line feeds are not quite the lines that are counted in a text: a carriage return
before the line feed belongs to the end of its line, and where nothing follows the last line feed,
no line begins there. A text that ends with its last line may be continued by any other, and the
lines of the two are counted on.

Trimming takes nothing from a line without blank characters, and never takes the first character
of one that begins with another. It takes a carriage return at the end.

## Results

* `lines_append`, `lines_append_feed` — the first line of a text, the lines of two.
* `countedLines_append` — the counted lines of a text that is continued.
* `oneLine_toString`, `OneLine.append`, `OneLine.between` — texts without a line feed.
* `trim_eq_self`, `trim_cons`, `trim_withoutReturn` — what trimming leaves.
-/

namespace FactorMachine.Text

-- ---------------------------------------------------------------------------
-- Lines
-- ---------------------------------------------------------------------------

/-- What stands before the first line feed is the first line. -/
theorem lines_append {line : List Char} (rest : List Char) (h : '\n' ∉ line) :
    lines (line ++ '\n' :: rest) = line :: lines rest := by
  induction line with
  | nil => simp [lines]
  | cons c line ih =>
    rw [List.mem_cons, not_or] at h
    obtain ⟨hFirst, hLine⟩ := h
    rw [List.cons_append, lines, if_neg (Ne.symm hFirst), ih hLine]

theorem lines_ne_nil (cs : List Char) : lines cs ≠ [] := by
  cases cs with
  | nil => exact List.cons_ne_nil _ _
  | cons c rest =>
    unfold lines
    split
    · exact List.cons_ne_nil _ _
    · split <;> exact List.cons_ne_nil _ _

/-- A line feed between two texts keeps their lines apart. -/
theorem lines_append_feed (text rest : List Char) :
    lines (text ++ '\n' :: rest) = lines text ++ lines rest := by
  induction text with
  | nil => simp [lines]
  | cons c text ih =>
    rw [List.cons_append, lines, lines, ih]
    by_cases hFeed : c = '\n'
    · rw [if_pos hFeed, if_pos hFeed, List.cons_append]
    · rw [if_neg hFeed, if_neg hFeed]
      cases hLines : lines text with
      | nil => exact absurd hLines (lines_ne_nil text)
      | cons line more => rfl

/-- A text without a line feed. -/
def OneLine (text : String) : Prop := '\n' ∉ text.toList

/-- Fixed words are looked at character by character. -/
theorem oneLine_ofList {cs : List Char} (h : '\n' ∉ cs) : OneLine (String.ofList cs) := by
  unfold OneLine
  rwa [String.toList_ofList]

theorem OneLine.append {s t : String} (hs : OneLine s) (ht : OneLine t) : OneLine (s ++ t) := by
  unfold OneLine
  rw [String.toList_append, List.mem_append, not_or]
  exact ⟨hs, ht⟩

/-- A text of one line may stand between fixed words. -/
theorem OneLine.between {before after : List Char} {text : String} (hBefore : '\n' ∉ before)
    (h : OneLine text) (hAfter : '\n' ∉ after) :
    OneLine (String.ofList before ++ text ++ String.ofList after) :=
  ((oneLine_ofList hBefore).append h).append (oneLine_ofList hAfter)

/-- A number is printed on one line. -/
theorem oneLine_toString (n : Nat) : OneLine (toString n) := by
  intro hMem
  rw [Nat.toString_eq_repr, Nat.toList_repr] at hMem
  exact absurd (isDigit_toDigits n _ hMem) (by decide)

theorem oneLine_padded (width n : Nat) : OneLine (padded width n) := by
  refine OneLine.append (oneLine_ofList ?_) (oneLine_toString n)
  intro hMem
  exact absurd (List.eq_of_mem_replicate hMem) (by decide)

-- ---------------------------------------------------------------------------
-- Counted lines
-- ---------------------------------------------------------------------------

/-- A line without the carriage return at its end, if it has one. -/
def withoutReturn (line : List Char) : List Char :=
  if line.getLast? = some '\r' then line.dropLast else line

/-- The lines of a text as they are counted. What stands before a line feed is one, without the
carriage return that may come before the line feed, and what stands after the last line feed is one
unless it is empty. -/
def countedLines (text : List Char) : List (List Char) :=
  (lines text).dropLast.map withoutReturn ++
    [(lines text).getLast (lines_ne_nil text)].filter (!·.isEmpty)

theorem countedLines_nil : countedLines [] = [] := rfl

/-- Up to a line feed, every line is counted, also an empty one. -/
theorem countedLines_append_feed (text rest : List Char) :
    countedLines (text ++ '\n' :: rest) =
      (lines text).map withoutReturn ++ countedLines rest := by
  have hRest := lines_ne_nil rest
  unfold countedLines
  simp only [lines_append_feed, List.getLast_append_of_ne_nil _ hRest]
  rw [List.dropLast_append_of_ne_nil hRest, List.map_append, List.append_assoc]

/-- The lines of a text that is continued on a new line are those of its two parts. -/
theorem countedLines_append {text : List Char} (hEnd : text = [] ∨ ∃ cs, text = cs ++ ['\n'])
    (rest : List Char) : countedLines (text ++ rest) = countedLines text ++ countedLines rest := by
  rcases hEnd with rfl | ⟨cs, rfl⟩
  · rfl
  · have hText : countedLines (cs ++ ['\n']) = (lines cs).map withoutReturn ++ countedLines [] :=
      countedLines_append_feed cs []
    rw [List.append_assoc, List.singleton_append, countedLines_append_feed, hText,
      countedLines_nil, List.append_nil]

-- ---------------------------------------------------------------------------
-- Trimming
-- ---------------------------------------------------------------------------

theorem trim_eq_rdropWhile (cs : List Char) :
    trim cs = (cs.dropWhile isBlank).rdropWhile isBlank := rfl

/-- Nothing is taken where there is nothing blank. -/
theorem trim_eq_self {cs : List Char} (h : ∀ c ∈ cs, isBlank c = false) : trim cs = cs := by
  have hFront : cs.dropWhile isBlank = cs := by
    rw [List.dropWhile_eq_self_iff]
    intro hPos
    rw [h _ (List.getElem_mem hPos)]
    exact Bool.false_ne_true
  rw [trim_eq_rdropWhile, hFront, List.rdropWhile_eq_self_iff]
  intro hSome
  rw [h _ (List.getLast_mem hSome)]
  exact Bool.false_ne_true

/-- A first character that is not blank stays. -/
theorem trim_cons {c : Char} (cs : List Char) (h : isBlank c = false) :
    ∃ rest, trim (c :: cs) = c :: rest := by
  have hFront : (c :: cs).dropWhile isBlank = c :: cs :=
    List.dropWhile_cons_of_neg (by rw [h]; exact Bool.false_ne_true)
  have hPrefix := List.rdropWhile_prefix isBlank (l := c :: cs)
  rw [trim_eq_rdropWhile, hFront]
  cases hTrimmed : (c :: cs).rdropWhile isBlank with
  | nil =>
    have hBlank := List.rdropWhile_eq_nil_iff.mp hTrimmed c List.mem_cons_self
    rw [h] at hBlank
    cases hBlank
  | cons d rest =>
    rw [hTrimmed] at hPrefix
    obtain ⟨rfl, -⟩ := List.cons_prefix_cons.mp hPrefix
    exact ⟨rest, rfl⟩

/-- A blank last character is taken. -/
theorem trim_concat {c : Char} (cs : List Char) (h : isBlank c = true) :
    trim (cs ++ [c]) = trim cs := by
  rw [trim_eq_rdropWhile, trim_eq_rdropWhile, List.dropWhile_append]
  split
  · rename_i hBlank
    rw [List.dropWhile_cons_of_pos h, List.dropWhile_nil, List.isEmpty_iff.mp hBlank]
  · exact List.rdropWhile_concat_pos _ _ _ h

/-- So is a carriage return at the end. -/
theorem trim_withoutReturn (line : List Char) : trim (withoutReturn line) = trim line := by
  unfold withoutReturn
  split
  · rename_i hReturn
    obtain ⟨cs, rfl⟩ := List.getLast?_eq_some_iff.mp hReturn
    rw [List.dropLast_concat, trim_concat cs (by decide)]
  · rfl

/-- A digit is not blank. -/
theorem isBlank_of_isDigit {c : Char} (h : c.isDigit = true) : isBlank c = false := by
  rw [Char.isDigit, Bool.and_eq_true, decide_eq_true_eq, decide_eq_true_eq] at h
  have hFirst : 48 ≤ c.toNat := h.1
  have hLast : c.toNat ≤ 57 := h.2
  simp only [isBlank, Bool.or_eq_false_iff, Bool.and_eq_false_iff, beq_eq_false_iff_ne,
    decide_eq_false_iff_not]
  omega

end FactorMachine.Text
