import FactorMachine.Engine.Report
import FactorMachine.Proofs.Chunk.RoundTrip
import FactorMachine.Proofs.Sorting
import FactorMachine.Proofs.Tally
import Mathlib.Data.List.Lex
import Mathlib.Data.Prod.Lex

/-!
# FactorMachine — sequences that come back

A report goes through all runs of five opcodes, counts each of them in a tally, and puts those that
were met often enough in order. A tally holds its entries in the order of first meeting, and another
way of counting may hold them in any other. That makes no difference: no two entries are alike in
both the number of occurrences and the opcodes, so there is just one order that they can be put in.

An occurrence is a place where a sequence begins. Places may be closer to each other than the
sequence is long.

## Results

* `count_runsOf`            — the runs that are alike, and the places where they begin.
* `repeatBefore_iff`        — the order of a report, as an order of keys.
* `mem_repeatedSequences`   — what is reported.
* `repeatedSequences_exact` — a report lists just the repeated sequences, in the one order there is.
-/

namespace FactorMachine

-- ---------------------------------------------------------------------------
-- Runs and places
-- ---------------------------------------------------------------------------

section Runs

variable {α : Type}

theorem length_of_mem_runsOf {n : Nat} {seq xs : List α} (h : seq ∈ runsOf n xs) :
    seq.length = n := by
  induction xs with
  | nil => cases h
  | cons a xs ih =>
    rw [runsOf] at h
    split at h
    · rename_i hFull
      rcases List.mem_cons.mp h with rfl | hLater
      · exact hFull
      · exact ih hLater
    · cases h

variable [DecidableEq α]

/-- The number of places in a list where a sequence begins. -/
def occurrences (seq xs : List α) : Nat :=
  (List.range xs.length).countP fun i => (xs.drop i).take seq.length = seq

theorem occurrences_cons (seq xs : List α) (a : α) : occurrences seq (a :: xs) =
    occurrences seq xs + if (a :: xs).take seq.length = seq then 1 else 0 := by
  unfold occurrences
  rw [List.length_cons, List.range_succ_eq_map, List.countP_cons, List.countP_map]
  simp only [List.drop_zero, decide_eq_true_eq]
  rfl

/-- A sequence does not begin in a list that is shorter than it is. -/
theorem occurrences_of_lt {seq xs : List α} (h : xs.length < seq.length) :
    occurrences seq xs = 0 := by
  refine List.countP_eq_zero.mpr fun i _ hHere => ?_
  have hLength := congrArg List.length (of_decide_eq_true hHere)
  rw [List.length_take, List.length_drop] at hLength
  omega

/-- The runs that are alike are as many as the places where such a run begins. -/
theorem count_runsOf (seq xs : List α) :
    (runsOf seq.length xs).count seq = occurrences seq xs := by
  induction xs with
  | nil => rfl
  | cons a xs ih =>
    rw [runsOf]
    split
    · rw [List.count_cons, ih, occurrences_cons]
      simp only [beq_iff_eq]
    · -- from here on there is not enough left for a run
      rename_i hShort
      rw [List.length_take, List.length_cons] at hShort
      rw [occurrences_of_lt (by rw [List.length_cons]; omega)]
      rfl

end Runs

-- ---------------------------------------------------------------------------
-- The order of a report
-- ---------------------------------------------------------------------------

theorem Opcode.index_injective : Function.Injective Opcode.index := by
  intro a b hSame
  have hFound := congrArg ofIndex? hSame
  rw [ofIndex?_index, ofIndex?_index] at hFound
  exact Option.some.inj hFound

/-- Opcodes are compared by their numbers, as words are by their letters. -/
theorem opcodesBefore_iff {as bs : List Opcode} :
    opcodesBefore as bs = true ↔ List.Lex (· < ·) (as.map Opcode.index) (bs.map Opcode.index) := by
  induction as generalizing bs with
  | nil => cases bs <;> simp [opcodesBefore]
  | cons a as ih =>
    cases bs with
    | nil => simp [opcodesBefore]
    | cons b bs => simp [opcodesBefore, ih, List.cons_lt_cons_iff]

/-- What entries are put in order by: more occurrences come first, then lower opcodes. -/
def repeatKey (entry : List Opcode × Nat) : Natᵒᵈ ×ₗ List Nat :=
  toLex (OrderDual.toDual entry.2, entry.1.map Opcode.index)

theorem repeatBefore_iff (a b : List Opcode × Nat) :
    repeatBefore a b = true ↔ repeatKey a < repeatKey b := by
  unfold repeatBefore repeatKey
  rw [Prod.Lex.toLex_lt_toLex, Bool.or_eq_true, Bool.and_eq_true, decide_eq_true_eq, beq_iff_eq,
    opcodesBefore_iff]
  exact Iff.rfl

/-- Entries with the same key are the same. -/
theorem repeatKey_injective : Function.Injective repeatKey := by
  rintro ⟨as, m⟩ ⟨bs, n⟩ hSame
  obtain ⟨hCount, hOps⟩ := Prod.mk.inj hSame
  obtain rfl : m = n := hCount
  obtain rfl : as = bs := List.map_injective_iff.mpr Opcode.index_injective hOps
  rfl

-- ---------------------------------------------------------------------------
-- What is reported
-- ---------------------------------------------------------------------------

variable {ops : List Opcode}

theorem mem_tally_runsOf {seq : List Opcode} {n : Nat} :
    (seq, n) ∈ Tally.ofList (runsOf patternLength ops) ↔
      seq.length = 5 ∧ n = occurrences seq ops ∧ 0 < n := by
  rw [(Tally.counts_ofList _).mem_iff]
  by_cases hLength : seq.length = 5
  · have hPattern : patternLength = seq.length := hLength.symm
    rw [hPattern, count_runsOf, and_iff_right hLength]
  · have hNone : (runsOf patternLength ops).count seq = 0 :=
      List.count_eq_zero.mpr fun hMem => hLength (length_of_mem_runsOf hMem)
    rw [hNone]
    constructor
    · rintro ⟨rfl, hMet⟩
      cases hMet
    · rintro ⟨hSame, -⟩
      exact absurd hSame hLength

theorem mem_repeatedSequences {seq : List Opcode} {n : Nat} :
    (seq, n) ∈ repeatedSequences ops ↔ seq.length = 5 ∧ n = occurrences seq ops ∧ 3 < n := by
  have hOften : (decide (patternRepeats < (seq, n).2) = true) ↔ 3 < n := decide_eq_true_iff
  rw [repeatedSequences, (perm_stableSort _ _).mem_iff, List.mem_filter, mem_tally_runsOf, hOften]
  constructor
  · rintro ⟨⟨hLength, hCount, -⟩, hMany⟩
    exact ⟨hLength, hCount, hMany⟩
  · rintro ⟨hLength, hCount, hMany⟩
    exact ⟨⟨hLength, hCount, by omega⟩, hMany⟩

/-- No sequence is reported twice. -/
theorem nodup_repeatedSequences (ops : List Opcode) :
    ((repeatedSequences ops).map Prod.fst).Nodup := by
  have hSame := ((perm_stableSort repeatBefore ((Tally.ofList (runsOf patternLength ops)).filter
    fun entry => patternRepeats < entry.2)).map Prod.fst).nodup_iff
  refine hSame.mpr ?_
  exact (Tally.counts_ofList _).distinct.sublist (List.filter_sublist.map Prod.fst)

theorem pairwise_repeatedSequences (ops : List Opcode) :
    (repeatedSequences ops).Pairwise fun a b => repeatKey a < repeatKey b := by
  refine strictly_sorted_stableSort repeatBefore_iff (List.Nodup.map repeatKey_injective ?_)
  exact ((Tally.counts_ofList _).distinct.of_map Prod.fst).filter _

/-- Every list of the counted sequences, in whatever order it has them. -/
theorem perm_tally_runsOf {counted : List (List Opcode × Nat)} (hDistinct : counted.Nodup)
    (hCounted : ∀ seq n, (seq, n) ∈ counted ↔
      seq.length = 5 ∧ n = occurrences seq ops ∧ 0 < n) :
    counted.Perm (Tally.ofList (runsOf patternLength ops)) := by
  have hTally : (Tally.ofList (runsOf patternLength ops)).Nodup :=
    (Tally.counts_ofList _).distinct.of_map Prod.fst
  refine (List.perm_ext_iff_of_nodup hDistinct hTally).mpr ?_
  rintro ⟨seq, n⟩
  rw [hCounted, mem_tally_runsOf]

/-- **A report lists just the repeated sequences.** These are the sequences of five opcodes that
begin at more than three places of the list. Each is there once, with the number of these places.
Those with more of them come first, and of those with equally many the one with lower opcodes comes
first, so that no two are level. In whatever order the sequences are listed when they have been
counted, and however those that are reported are sorted then, this is the list that comes of it. -/
theorem repeatedSequences_exact (ops : List Opcode) :
    (∀ seq n, (seq, n) ∈ repeatedSequences ops ↔
      seq.length = 5 ∧ n = occurrences seq ops ∧ 3 < n) ∧
    ((repeatedSequences ops).map Prod.fst).Nodup ∧
    (repeatedSequences ops).Pairwise (fun a b => b.2 < a.2 ∨ a.2 = b.2 ∧
      List.Lex (· < ·) (a.1.map Opcode.index) (b.1.map Opcode.index)) ∧
    ∀ counted sorted : List (List Opcode × Nat), counted.Nodup →
      (∀ seq n, (seq, n) ∈ counted ↔ seq.length = 5 ∧ n = occurrences seq ops ∧ 0 < n) →
      sorted.Perm (counted.filter fun entry => 3 < entry.2) →
      (sorted.Pairwise fun a b => ¬ repeatBefore b a) → sorted = repeatedSequences ops := by
  refine ⟨fun _ _ => mem_repeatedSequences, nodup_repeatedSequences ops, ?_, ?_⟩
  · refine (pairwise_repeatedSequences ops).imp fun {a b} hLess => ?_
    have hBefore := (repeatBefore_iff a b).mpr hLess
    rwa [repeatBefore, Bool.or_eq_true, Bool.and_eq_true, decide_eq_true_eq, beq_iff_eq,
      opcodesBefore_iff] at hBefore
  · intro counted sorted hDistinct hCounted hSorted hOrder
    have hTally := (perm_tally_runsOf hDistinct hCounted).filter fun entry => 3 < entry.2
    have hPerm : sorted.Perm (repeatedSequences ops) :=
      (hSorted.trans hTally).trans (perm_stableSort _ _).symm
    refine hPerm.eq_of_pairwise (fun a b _ _ hab hba => ?_) hOrder
      ((pairwise_repeatedSequences ops).imp fun {a b} hLess => ?_)
    · -- neither is before the other, so their keys are the same
      rw [repeatBefore_iff] at hab hba
      exact repeatKey_injective (le_antisymm (not_lt.mp hab) (not_lt.mp hba))
    · rw [repeatBefore_iff]
      exact not_lt.mpr (le_of_lt hLess)

/-- Occurrences may overlap: eight opcodes of one kind hold four. Two sequences that are level in
this are told in the order of their opcodes, also if they were counted the other way round. -/
theorem repeatedSequences_exact_reversed :
    let ops := List.replicate 8 Opcode.halt ++ List.replicate 8 Opcode.nop
    let reported := [(List.replicate 5 Opcode.halt, 4), (List.replicate 5 Opcode.nop, 4)]
    ((Tally.ofList (runsOf 5 ops)).reverse.filter fun entry => 3 < entry.2) = reported.reverse ∧
      reported = repeatedSequences ops := by
  intro ops reported
  have hBackward : ((Tally.ofList (runsOf 5 ops)).reverse.filter fun entry => 3 < entry.2) =
      reported.reverse := by decide
  have hDistinct : (Tally.ofList (runsOf 5 ops)).reverse.Nodup := by decide
  obtain ⟨-, -, -, hAny⟩ := repeatedSequences_exact ops
  refine ⟨hBackward, hAny _ reported hDistinct ?_ ?_ ?_⟩
  · intro seq n
    rw [List.mem_reverse]
    exact mem_tally_runsOf
  · rw [hBackward]
    exact (List.reverse_perm reported).symm
  · decide

end FactorMachine
