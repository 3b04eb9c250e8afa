import FactorMachine.Prime.Shared
import FactorMachine.Proofs.Prime.Factorization
import FactorMachine.Proofs.Prime.Growth

/-!
# FactorMachine — a shared table has no history

A question to a shared table has one answer, whatever the table was when the caller looked at it
and whatever it had become when the caller acted. So has an inquiry: each question is replaced by
its answer. No step changes the answer that an inquiry leads to, hence whoever is done has been
given what the request asks for. For a factorization that is what `factorize` gives, since the
primes are tried in the same order.

## Results

* `Inquiry.answer_divideFrom`  — a factorization by questions, at any point of it.
* `Shared.Sound.step`          — what one caller does leaves the others undisturbed.
* `Shared.answers_independent` — the answers of every shared table.
-/

namespace FactorMachine.PrimeTable

-- ---------------------------------------------------------------------------
-- Answers without a table
-- ---------------------------------------------------------------------------

def Question.answer : Question → Except PrimeError Nat
  | primeAt i => FactorMachine.primeAt i
  | indexOf v => FactorMachine.indexOf v
  | reach v => if v ≤ largestPrime then .ok v else .error .limitExceeded

/-- What an inquiry leads to when each of its questions is given its answer. -/
def Inquiry.answer {α : Type} : Inquiry α → Except PrimeError α
  | done answer => answer
  | ask question next =>
    match question.answer with
    | .ok n => (next n).answer
    | .error error => .error error

def Request.answer : (r : Request) → Except PrimeError r.Answer
  | primeAt i => FactorMachine.primeAt i
  | indexOf v => FactorMachine.indexOf v
  | extendToIndex i => if i < primeCount then .ok () else .error .limitExceeded
  | extendToValue v => if v ≤ largestPrime then .ok () else .error .limitExceeded
  | factorize n => FactorMachine.factorize n

theorem Inquiry.answer_ask_ok {α : Type} {question : Question} {next : Nat → Inquiry α} {n : Nat}
    (h : question.answer = .ok n) : (ask question next).answer = (next n).answer := by
  rw [answer, h]

theorem Inquiry.answer_ask_error {α : Type} {question : Question} {next : Nat → Inquiry α}
    {error : PrimeError} (h : question.answer = .error error) :
    (ask question next).answer = .error error := by
  rw [answer, h]

/-- A question to a sound table leaves a sound table, and its answer is the one without a
table. -/
theorem Question.run_sound {seen t : PrimeTable} (hSeen : PrimeTable.Sound seen)
    (h : PrimeTable.Sound t) (question : Question) :
    match (question.query seen).run t with
    | .ok n t' => PrimeTable.Sound t' ∧ question.answer = .ok n
    | .error error t' => PrimeTable.Sound t' ∧ question.answer = .error error := by
  cases question with
  | primeAt i =>
    obtain ⟨t', hSound, hRun⟩ := primeAt_run hSeen h i
    by_cases hIndex : i < primeCount
    · rw [if_pos hIndex] at hRun
      simp only [query, hRun]
      exact ⟨hSound, primeAt_of_lt hIndex⟩
    · rw [if_neg hIndex] at hRun
      simp only [query, hRun]
      exact ⟨hSound, primeAt_of_le (Nat.le_of_not_lt hIndex)⟩
  | indexOf v =>
    obtain ⟨t', hSound, hRun⟩ := indexOf_run hSeen h v
    by_cases hLarge : largestPrime < v
    · rw [if_pos hLarge] at hRun
      simp only [query, hRun]
      exact ⟨hSound, indexOf_large hLarge⟩
    · rw [if_neg hLarge] at hRun
      by_cases hv : v.Prime
      · rw [if_pos hv] at hRun
        simp only [query, hRun]
        exact ⟨hSound, indexOf_prime hv (Nat.le_of_not_lt hLarge)⟩
      · rw [if_neg hv] at hRun
        simp only [query, hRun]
        exact ⟨hSound, indexOf_not_prime hv (Nat.le_of_not_lt hLarge)⟩
  | reach v =>
    obtain ⟨t', hSound, -, hRun⟩ := h.extendToValue_run v
    by_cases hValue : v ≤ largestPrime
    · rw [if_pos hValue] at hRun
      simp only [query, run_bind_ok hRun]
      exact ⟨hSound, if_pos hValue⟩
    · rw [if_neg hValue] at hRun
      simp only [query, run_bind_error hRun]
      exact ⟨hSound, if_neg hValue⟩

-- ---------------------------------------------------------------------------
-- Factorizing by questions
-- ---------------------------------------------------------------------------

namespace Inquiry

theorem answer_conclude {t : TrialDivision} (h : t.settled = true) :
    (conclude t).answer = t.factors := by
  unfold conclude TrialDivision.factors
  rw [h]
  simp only [Bool.not_true, Bool.false_eq_true, if_false]
  split
  · rfl
  · split
    · rfl
    · rename_i hLimit
      exact answer_ask_ok (if_pos (Nat.le_of_not_lt hLimit))

theorem answer_divideFrom_settled {n b : Nat} {t : TrialDivision}
    (h : TrialDivision.Sound n b t) (hLe : b ≤ largestPrime + 1) (hSettled : t.settled = true)
    (counter index : Nat) : (divideFrom counter index t).answer = factorize n := by
  unfold divideFrom
  rw [if_pos hSettled, answer_conclude hSettled]
  refine h.factors_eq hLe ?_
  intro hOpen
  rw [hSettled] at hOpen
  cases hOpen

/-- The primes below `b` have been tried, so the prime that has their number as its index is
next. -/
theorem sound_nth_count {n b : Nat} {t : TrialDivision} (h : TrialDivision.Sound n b t) :
    TrialDivision.Sound n (Nat.nth Nat.Prime (Nat.count Nat.Prime b)) t := by
  refine h.skipTo (Nat.le_nth_count Nat.infinite_setOfPred_prime b) ?_
  intro q hq hBefore
  rw [← Nat.nth_count hq] at hBefore
  have hFewer := nth_prime_strictMono.lt_iff_lt.mp hBefore
  by_contra hAfter
  have hMore := Nat.count_monotone Nat.Prime (Nat.le_of_not_lt hAfter)
  omega

/-- Wherever a trial division stands, it goes on to what `factorize` gives. The primes below `b`
have been tried, and their number is the index that is asked for next. -/
theorem answer_divideFrom {n b : Nat} {t : TrialDivision} {counter : Nat}
    (h : TrialDivision.Sound n b t) (hLe : b ≤ largestPrime + 1)
    (hCounter : Nat.count Nat.Prime b + counter = primeCount + 1) :
    (divideFrom counter (Nat.count Nat.Prime b) t).answer = factorize n := by
  have hCount := Nat.count_monotone Nat.Prime hLe
  rw [Sieve.count_primes] at hCount
  induction counter generalizing b t with
  | zero => omega
  | succ counter ih =>
    rcases Bool.eq_false_or_eq_true t.settled with hSettled | hOpen
    · exact answer_divideFrom_settled h hLe hSettled _ _
    unfold divideFrom
    rw [if_neg (by simp [hOpen])]
    rcases Nat.lt_or_ge (Nat.count Nat.Prime b) primeCount with hIndex | hIndex
    · have hAnswer : (Question.primeAt (Nat.count Nat.Prime b)).answer = _ := primeAt_of_lt hIndex
      have hTried := sound_nth_count h
      have hPrime := Nat.prime_nth_prime (Nat.count Nat.Prime b)
      have hNumbered := nth_prime_le hIndex
      rw [answer_ask_ok hAnswer]
      have hNext : Nat.count Nat.Prime (Nat.nth Nat.Prime (Nat.count Nat.Prime b) + 1) =
          Nat.count Nat.Prime b + 1 :=
        Nat.count_nth_succ_of_infinite Nat.infinite_setOfPred_prime _
      generalize Nat.nth Nat.Prime (Nat.count Nat.Prime b) = p at hTried hPrime hNumbered hNext ⊢
      rcases hTried.divideBy hPrime hOpen with hSound | ⟨hSound, hSettled⟩
      · rw [← hNext]
        exact ih hSound (by omega) (by omega) (by omega)
      · exact answer_divideFrom_settled hSound (by omega) hSettled _ _
    · -- the numbered primes have all been tried, and there is no other to ask for
      have hAnswer : (Question.primeAt (Nat.count Nat.Prime b)).answer = _ := primeAt_of_le hIndex
      have hAll : b = largestPrime + 1 := by
        by_contra hEarlier
        have hFewer := Nat.count_monotone Nat.Prime (show b ≤ largestPrime by omega)
        have hLast := count_largestPrime
        omega
      rw [answer_ask_error hAnswer, ← h.factors_eq hLe fun _ => hAll, TrialDivision.factors,
        if_pos (by simp [hOpen])]

end Inquiry

/-- An inquiry leads to what was requested. -/
theorem Request.answer_inquiry (r : Request) : r.inquiry.answer = r.answer := by
  cases r with
  | primeAt i =>
    simp only [inquiry, answer, Inquiry.answer, Question.answer]
    cases FactorMachine.primeAt i <;> rfl
  | indexOf v =>
    simp only [inquiry, answer, Inquiry.answer, Question.answer]
    cases FactorMachine.indexOf v <;> rfl
  | extendToIndex i =>
    simp only [inquiry, answer, Inquiry.answer, Question.answer]
    by_cases hIndex : i < primeCount
    · rw [primeAt_of_lt hIndex, if_pos hIndex]
    · rw [primeAt_of_le (Nat.le_of_not_lt hIndex), if_neg hIndex]
  | extendToValue v =>
    simp only [inquiry, answer, Inquiry.answer, Question.answer]
    by_cases hValue : v ≤ largestPrime
    · rw [if_pos hValue, if_pos hValue]
    · rw [if_neg hValue, if_neg hValue]
  | factorize n =>
    simp only [inquiry, answer]
    split
    · rename_i hZero
      rw [hZero]
      rfl
    · rename_i hn
      have hStart := TrialDivision.sound_start (Nat.pos_of_ne_zero hn)
      rw [← Nat.count_zero Nat.Prime]
      refine Inquiry.answer_divideFrom hStart (Nat.zero_le _) ?_
      rw [Nat.count_zero, Nat.zero_add]

-- ---------------------------------------------------------------------------
-- Sharing
-- ---------------------------------------------------------------------------

/-- What the caller has seen was sound, and what it has yet to do leads to what it requested. -/
structure Caller.Sound (c : Caller) : Prop where
  seen : ∀ t ∈ c.seen, PrimeTable.Sound t
  inquiry : c.inquiry.answer = c.request.answer

namespace Shared

structure Sound (s : Shared) : Prop where
  table : PrimeTable.Sound s.table
  callers : ∀ c ∈ s.callers, c.Sound

theorem sound_start : Sound initial where
  table := sound_initial
  callers := by simp [initial]

/-- A caller that goes on leaves the others as they are. -/
theorem Sound.replace {t t' : PrimeTable} {before after : List Caller} {c c' : Caller}
    (h : Sound ⟨t, before ++ c :: after⟩) (ht : PrimeTable.Sound t') (hc : c'.Sound) :
    Sound ⟨t', before ++ c' :: after⟩ where
  table := ht
  callers := by
    have hCallers := h.callers
    simp only [List.forall_mem_append, List.forall_mem_cons] at hCallers ⊢
    exact ⟨hCallers.1, hc, hCallers.2.2⟩

/-- A caller that acts on what it saw is answered as if there were no table. -/
theorem Sound.question {t seen : PrimeTable} {before after : List Caller} {r : Request}
    {question : Question} {next : Nat → Inquiry r.Answer}
    (h : Sound ⟨t, before ++ ⟨r, .ask question next, some seen⟩ :: after⟩) :
    (Inquiry.ask question next).answer = r.answer ∧
      match (question.query seen).run t with
      | .ok n t' => PrimeTable.Sound t' ∧ question.answer = .ok n
      | .error error t' => PrimeTable.Sound t' ∧ question.answer = .error error := by
  have hCaller := h.callers _ (List.mem_append_right _ List.mem_cons_self)
  exact ⟨hCaller.inquiry, question.run_sound (hCaller.seen seen rfl) h.table⟩

/-- Whatever one caller does, the table stays sound, and everyone is on the way to what was
requested. -/
theorem Sound.step {s s' : Shared} (h : Sound s) (hStep : Step s s') : Sound s' := by
  cases hStep with
  | call r =>
    refine ⟨h.table, ?_⟩
    simp only [List.forall_mem_cons]
    exact ⟨⟨by simp, r.answer_inquiry⟩, h.callers⟩
  | look =>
    have hCaller := h.callers _ (List.mem_append_right _ List.mem_cons_self)
    refine h.replace h.table ⟨?_, hCaller.inquiry⟩
    intro seen hSeen
    cases hSeen
    exact h.table
  | answer hRun =>
    obtain ⟨hInquiry, hQuestion⟩ := h.question
    rw [hRun] at hQuestion
    refine h.replace hQuestion.1 ⟨by simp, ?_⟩
    rwa [Inquiry.answer_ask_ok hQuestion.2] at hInquiry
  | refuse hRun =>
    obtain ⟨hInquiry, hQuestion⟩ := h.question
    rw [hRun] at hQuestion
    refine h.replace hQuestion.1 ⟨by simp, ?_⟩
    rwa [Inquiry.answer_ask_error hQuestion.2] at hInquiry

theorem Reaches.sound {s s' : Shared} (h : s.Reaches s') (hSound : s.Sound) : s'.Sound := by
  induction h with
  | refl => exact hSound
  | step _ hStep ih => exact ih.step hStep

-- ---------------------------------------------------------------------------
-- No history
-- ---------------------------------------------------------------------------

/-- For every table that requests in any order and interleaving have led to, and however the table
grew further between the moment when a caller looked at it and the moment when the caller acts, the
prime of an index and the index of a number are what they are among all primes, or lie beyond the
limit. Every request that has been answered was given the answer that needs no table. -/
theorem answers_independent {s s' : Shared} (hEarlier : initial.Reaches s)
    (hLater : s.Reaches s') :
    (∀ i, ∃ t, (primeAt s.table i).run s'.table =
      if i < primeCount then .ok (Nat.nth Nat.Prime i) t else .error .limitExceeded t) ∧
    (∀ v, ∃ t, (indexOf s.table v).run s'.table =
      if largestPrime < v then .error .limitExceeded t
      else if v.Prime then .ok (Nat.count Nat.Prime v) t else .error (.notFound v) t) ∧
    ∀ r answer seen, ⟨r, .done answer, seen⟩ ∈ s'.callers → answer = r.answer := by
  have hSeen := hEarlier.sound sound_start
  have hSound := hLater.sound hSeen
  refine ⟨?_, ?_, ?_⟩
  · intro i
    obtain ⟨t, -, hRun⟩ := primeAt_run hSeen.table hSound.table i
    exact ⟨t, hRun⟩
  · intro v
    obtain ⟨t, -, hRun⟩ := indexOf_run hSeen.table hSound.table v
    exact ⟨t, hRun⟩
  · intro r answer seen hMem
    exact (hSound.callers _ hMem).inquiry

/-- A caller looks up 25 in the initial table, and another's request makes it grow past 25 before
the first one acts. -/
theorem answers_independent_overtaken :
    ∃ s s' : Shared, initial.Reaches s ∧ s.Reaches s' ∧ s.table.largest < 25 ∧
      25 < s'.table.largest ∧
      ∃ t, (indexOf s.table 25).run s'.table = .error (.notFound 25) t := by
  have hSame : initial.Reaches initial := .refl
  have hLook := (hSame.step (.call (.primeAt 9))).step (@Step.look _ [] _ _ _ _)
  have hLater : initial.Reaches ⟨⟨#[2, 3, 5, 7, 11, 13, 17, 19, 23, 29], _⟩, _⟩ :=
    hLook.step (@Step.answer _ _ _ [] _ _ _ _ _ rfl)
  refine ⟨_, _, hSame, hLater, by decide, by decide, ?_⟩
  obtain ⟨t, hRun⟩ := (answers_independent hSame hLater).2.1 25
  rw [if_neg (by decide), if_neg (by norm_num)] at hRun
  exact ⟨t, hRun⟩

end Shared

end FactorMachine.PrimeTable
