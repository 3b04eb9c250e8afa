import FactorMachine.Chunk.Record
import FactorMachine.Proofs.Prime.Shared

/-!
# FactorMachine — factorizations are exact, and their primes stay

A factorization succeeds exactly when all primes that divide the number are numbered. Trial
division comes to its end in three ways: nothing remains, the square of the next prime exceeds what
remains, or there is no next prime. In the second case what remains is a prime, which may be a
numbered one or not; in the third it has only primes that are not numbered. Both limits therefore
refuse the same numbers, those with a prime divisor beyond `largestPrime`.

Every prime that a factorization lists was an answer of the table on the way: it was asked for by
its index, or it remained at the end and the table was made to reach it. An answer lies within the
table that it leaves, and tables only grow. So when a caller is done, the table holds the primes of
its factorization, whatever other callers did in the meantime. The invariant is `Caller.Served`:
what is to be listed is yet to be heard, or it is within reach of the table.

## Results

* `Question.le_of_run`          — an answer lies within the table that it leaves.
* `Inquiry.mem_heard_divideFrom` — a prime that is listed has been heard.
* `Shared.Served.step`          — what one caller does keeps what the others were given.
* `Shared.reaches_done`         — every request can be answered.
* `Shared.factorizations_exact` — the factorizations by every shared table.
-/

namespace FactorMachine

/-- A positive number has a factorization by numbered primes exactly when no other prime
divides it. -/
theorem exists_factorize_eq_ok_iff {n : Nat} (hn : 0 < n) :
    (∃ fs, factorize n = .ok fs) ↔ ∀ q, q.Prime → q ∣ n → q ≤ largestPrime := by
  constructor
  · rintro ⟨fs, hOk⟩ q hq hDvd
    obtain ⟨hIs, hNumbered⟩ := factorize_eq_ok_iff.mp hOk
    exact hNumbered.le_of_dvd hIs hq hDvd
  · intro hAll
    rcases factorize_spec hn with ⟨fs, hOk, -⟩ | ⟨-, q, hq, hDvd, hLarge⟩
    · exact ⟨fs, hOk⟩
    · exact absurd (hAll q hq hDvd) (Nat.not_le.mpr hLarge)

/-- Multiplying a factorization out, in whatever order and however far, does not exceed the
number. -/
theorem IsFactorization.powerProduct_le {n : Nat} {fs part : List (Nat × Nat)}
    (h : IsFactorization n fs) (hPart : part.Sublist fs) : powerProduct part ≤ n := by
  have hDvd : powerProduct part ∣ powerProduct fs := (hPart.map _).prod_dvd_prod
  rw [h.product] at hDvd
  exact Nat.le_of_dvd h.pos_of hDvd

namespace PrimeTable

variable {seen t t' : PrimeTable}

-- ---------------------------------------------------------------------------
-- What an answer leaves
-- ---------------------------------------------------------------------------

theorem Sound.entry_le (h : Sound t) {i : Nat} (hi : i < t.size) :
    Nat.nth Nat.Prime i ≤ t.largest := by
  rw [h.largest_eq]
  exact nth_prime_strictMono.monotone (Nat.le_sub_one_of_lt hi)

theorem Sound.le_of_get? (h : Sound t) {i p : Nat} (hGet : t.get? i = some p) : p ≤ t.largest := by
  rcases Nat.lt_or_ge i t.size with hi | hPast
  · rw [h.entries i hi, Option.some.injEq] at hGet
    exact hGet ▸ h.entry_le hi
  · rw [get?_of_le hPast] at hGet
    cases hGet

theorem Sound.le_of_position? (h : Sound t) {v i : Nat} (hFound : t.position? v = some i) :
    i ≤ t.largest := by
  obtain ⟨hi, -⟩ := h.position?_eq_some_iff.mp hFound
  exact nth_prime_strictMono.le_apply.trans (h.entry_le hi)

/-- What a grown table is searched for is in it, if that gives an answer. -/
theorem eq_some_of_search_run (search : PrimeTable → Option Nat) {error : PrimeError} {n : Nat}
    (hRun : (do
      match search (← get) with
      | some n => pure n
      | none => throw error : Query Nat).run t = .ok n t') : search t' = some n := by
  rw [run_bind_ok (EStateM.run_get t)] at hRun
  cases hFound : search t with
  | some m =>
    rw [hFound] at hRun
    cases hRun
    exact hFound
  | none =>
    rw [hFound] at hRun
    cases hRun

/-- A prime that is given was seen, or it is in the table now. -/
theorem get?_of_primeAt_run {i p : Nat} (hRun : (primeAt seen i).run t = .ok p t') :
    (seen.get? i = some p ∧ t' = t) ∨ t'.get? i = some p := by
  unfold primeAt at hRun
  cases hSeen : seen.get? i with
  | some q =>
    rw [hSeen] at hRun
    cases hRun
    exact .inl ⟨rfl, rfl⟩
  | none =>
    rw [hSeen] at hRun
    obtain ⟨-, grown, -, hRest⟩ := run_bind_eq_ok hRun
    exact .inr (eq_some_of_search_run (·.get? i) hRest)

/-- An index that is given was seen, or it is in the table now. -/
theorem position?_of_indexOf_run {v i : Nat} (hRun : (indexOf seen v).run t = .ok i t') :
    (seen.position? v = some i ∧ t' = t) ∨ t'.position? v = some i := by
  unfold indexOf at hRun
  cases hSeen : seen.position? v with
  | some j =>
    rw [hSeen] at hRun
    cases hRun
    exact .inl ⟨rfl, rfl⟩
  | none =>
    rw [hSeen] at hRun
    dsimp only at hRun
    split at hRun
    · cases hRun
    · obtain ⟨-, grown, -, hRest⟩ := run_bind_eq_ok hRun
      exact .inr (eq_some_of_search_run (·.position? v) hRest)

theorem Question.grows (seen : PrimeTable) (question : Question) : Grows (question.query seen) := by
  cases question with
  | primeAt i => exact grows_primeAt seen i
  | indexOf v => exact grows_indexOf seen v
  | reach v => exact (grows_extendToValue v).bind fun _ => grows_pure v

/-- An answer, be it a prime or an index, is at most the largest entry of the table that it
leaves. -/
theorem Question.le_of_run {question : Question} {n : Nat} (hSeen : PrimeTable.Sound seen)
    (h : PrimeTable.Sound t) (hSize : seen.size ≤ t.size)
    (hRun : (question.query seen).run t = .ok n t') : n ≤ t'.largest := by
  have hLeft := question.run_sound hSeen h
  rw [hRun] at hLeft
  have hEarlier := hSeen.largest_mono h hSize
  cases question with
  | primeAt i =>
    rcases get?_of_primeAt_run hRun with ⟨hGet, rfl⟩ | hGet
    · exact (hSeen.le_of_get? hGet).trans hEarlier
    · exact hLeft.1.le_of_get? hGet
  | indexOf v =>
    rcases position?_of_indexOf_run hRun with ⟨hFound, rfl⟩ | hFound
    · exact (hSeen.le_of_position? hFound).trans hEarlier
    · exact hLeft.1.le_of_position? hFound
  | reach v =>
    obtain ⟨grown, -, hReach, hGrow⟩ := h.extendToValue_run v
    by_cases hValue : v ≤ largestPrime
    · rw [if_pos hValue] at hGrow
      simp only [query, run_bind_ok hGrow] at hRun
      cases hRun
      exact hReach hValue
    · rw [if_neg hValue] at hGrow
      simp only [query, run_bind_error hGrow] at hRun
      cases hRun

-- ---------------------------------------------------------------------------
-- What is heard on the way
-- ---------------------------------------------------------------------------

/-- The answers that an inquiry has yet to hear, in order. -/
def Inquiry.heard {α : Type} : Inquiry α → List Nat
  | done _ => []
  | ask question next =>
    match question.answer with
    | .ok n => n :: (next n).heard
    | .error _ => []

/-- The primes that a request is to be given with their exponents. -/
def Request.listed : Request → List Nat
  | factorize n =>
    match FactorMachine.factorize n with
    | .ok fs => fs.map Prod.fst
    | .error _ => []
  | _ => []

namespace Inquiry

theorem heard_ask_ok {α : Type} {question : Question} {next : Nat → Inquiry α} {n : Nat}
    (h : question.answer = .ok n) : (ask question next).heard = n :: (next n).heard := by
  rw [heard, h]

theorem heard_ask_error {α : Type} {question : Question} {next : Nat → Inquiry α}
    {error : PrimeError} (h : question.answer = .error error) :
    (ask question next).heard = [] := by
  rw [heard, h]

theorem mem_found_divideBy {d : TrialDivision} {p : Nat} {f : Nat × Nat}
    (h : f ∈ (d.divideBy p).found) : f ∈ d.found ∨ f.1 = p := by
  unfold TrialDivision.divideBy at h
  split at h
  · exact .inl h
  · split at h
    · rcases List.mem_cons.mp h with rfl | hBefore
      · exact .inr rfl
      · exact .inl hBefore
    · exact .inl h

theorem mem_heard_conclude {d : TrialDivision} {fs : List (Nat × Nat)} {f : Nat × Nat}
    (hAnswer : (conclude d).answer = .ok fs) (hf : f ∈ fs) :
    f ∈ d.found ∨ f.1 ∈ (conclude d).heard := by
  unfold conclude at hAnswer ⊢
  split at hAnswer
  · cases hAnswer
    exact .inl (List.mem_reverse.mp hf)
  · split at hAnswer
    · cases hAnswer
    · rename_i hOne hLimit
      have hReach : (Question.reach d.remaining).answer = .ok d.remaining :=
        if_pos (Nat.le_of_not_lt hLimit)
      rw [answer_ask_ok hReach] at hAnswer
      cases hAnswer
      rw [if_neg hOne, if_neg hLimit, heard_ask_ok hReach]
      rcases List.mem_cons.mp (List.mem_reverse.mp hf) with rfl | hFound
      · exact .inr List.mem_cons_self
      · exact .inl hFound

/-- A prime that is listed in the end has been found already, or the caller is going to hear it. -/
theorem mem_heard_divideFrom {counter index : Nat} {d : TrialDivision} {fs : List (Nat × Nat)}
    {f : Nat × Nat} (hAnswer : (divideFrom counter index d).answer = .ok fs) (hf : f ∈ fs) :
    f ∈ d.found ∨ f.1 ∈ (divideFrom counter index d).heard := by
  induction counter generalizing index d with
  | zero =>
    unfold divideFrom at hAnswer ⊢
    split at hAnswer
    · rename_i hSettled
      rw [if_pos hSettled]
      exact mem_heard_conclude hAnswer hf
    · cases hAnswer
  | succ counter ih =>
    unfold divideFrom at hAnswer ⊢
    split at hAnswer
    · rename_i hSettled
      rw [if_pos hSettled]
      exact mem_heard_conclude hAnswer hf
    · rename_i hOpen
      rw [if_neg hOpen]
      dsimp only at hAnswer ⊢
      cases hPrime : (Question.primeAt index).answer with
      | error error =>
        rw [answer_ask_error hPrime] at hAnswer
        cases hAnswer
      | ok p =>
        rw [answer_ask_ok hPrime] at hAnswer
        rw [heard_ask_ok hPrime, List.mem_cons]
        rcases ih hAnswer with hFound | hHeard
        · exact (mem_found_divideBy hFound).imp_right .inl
        · exact .inr (.inr hHeard)

end Inquiry

theorem Request.mem_heard {r : Request} {p : Nat} (h : p ∈ r.listed) : p ∈ r.inquiry.heard := by
  cases r with
  | factorize n =>
    have hAnswer := answer_inquiry (factorize n)
    simp only [answer] at hAnswer
    simp only [listed] at h
    cases hFactors : FactorMachine.factorize n with
    | error error => simp [hFactors] at h
    | ok fs =>
      rw [hFactors] at hAnswer h
      obtain ⟨f, hf, rfl⟩ := List.mem_map.mp h
      simp only [inquiry] at hAnswer ⊢
      split at hAnswer
      · cases hAnswer
      · rename_i hn
        rw [if_neg hn]
        exact (Inquiry.mem_heard_divideFrom hAnswer hf).resolve_left (by simp [TrialDivision.start])
  | _ => cases h

-- ---------------------------------------------------------------------------
-- What callers are given stays
-- ---------------------------------------------------------------------------

/-- The caller saw the table when it was no larger, and what is to be listed for it is yet to be
heard or within reach of the table. -/
structure Caller.Served (table : PrimeTable) (c : Caller) : Prop where
  seen_le : ∀ t ∈ c.seen, t.size ≤ table.size
  listed : ∀ p ∈ c.request.listed, p ∈ c.inquiry.heard ∨ p ≤ table.largest

theorem Caller.Served.mono {c : Caller} (h : c.Served t) (hSize : t.size ≤ t'.size)
    (hLargest : t.largest ≤ t'.largest) : c.Served t' where
  seen_le seen hSeen := (h.seen_le seen hSeen).trans hSize
  listed p hp := (h.listed p hp).imp_right fun hLe => hLe.trans hLargest

namespace Shared

def Served (s : Shared) : Prop := ∀ c ∈ s.callers, c.Served s.table

theorem served_start : Served initial := by simp [Served, initial]

/-- A caller that goes on, and a table that grows, leave the others served. -/
theorem Served.replace {before after : List Caller} {c c' : Caller}
    (h : Served ⟨t, before ++ c :: after⟩) (hSize : t.size ≤ t'.size)
    (hLargest : t.largest ≤ t'.largest) (hc : c'.Served t') :
    Served ⟨t', before ++ c' :: after⟩ := by
  unfold Served at h ⊢
  simp only [List.forall_mem_append, List.forall_mem_cons] at h ⊢
  exact ⟨fun c hMem => (h.1 c hMem).mono hSize hLargest, hc,
    fun c hMem => (h.2.2 c hMem).mono hSize hLargest⟩

/-- A caller that acts keeps what is to be listed for it, if what it no longer has to hear is within
reach. -/
theorem Served.act {before after : List Caller} {r : Request} {question : Question}
    {next : Nat → Inquiry r.Answer} {rest : Inquiry r.Answer}
    (h : Served ⟨t, before ++ ⟨r, .ask question next, some seen⟩ :: after⟩)
    (hSize : t.size ≤ t'.size) (hLargest : t.largest ≤ t'.largest)
    (hHeard : ∀ p ∈ (Inquiry.ask question next).heard, p ∈ rest.heard ∨ p ≤ t'.largest) :
    Served ⟨t', before ++ ⟨r, rest, none⟩ :: after⟩ := by
  refine h.replace hSize hLargest ⟨by simp, fun p hp => ?_⟩
  rcases (h _ (List.mem_append_right _ List.mem_cons_self)).listed p hp with hAhead | hHeld
  · exact hHeard p hAhead
  · exact .inr (hHeld.trans hLargest)

/-- Whatever one caller does, everyone stays served. -/
theorem Served.step {s s' : Shared} (h : Served s) (hSound : Sound s) (hStep : Step s s') :
    Served s' := by
  cases hStep with
  | call r =>
    intro c hMem
    rcases List.mem_cons.mp hMem with rfl | hMem
    · exact ⟨by simp, fun p hp => .inl (Request.mem_heard hp)⟩
    · exact h c hMem
  | look =>
    have hCaller := h _ (List.mem_append_right _ List.mem_cons_self)
    refine h.replace (le_refl _) (le_refl _) ⟨?_, hCaller.listed⟩
    intro seen hSeen
    cases hSeen
    exact le_refl _
  | @answer t t' seen before after r question next n hRun =>
    have hCaller := h _ (List.mem_append_right _ List.mem_cons_self)
    have hSeen := (hSound.callers _ (List.mem_append_right _ List.mem_cons_self)).seen seen rfl
    obtain ⟨-, hQuestion⟩ := hSound.question
    have hSize := question.grows seen t
    rw [hRun] at hQuestion hSize
    refine h.act hSize (hSound.table.largest_mono hQuestion.1 hSize) fun p hp => ?_
    -- what was heard just now is within reach from now on
    rw [Inquiry.heard_ask_ok hQuestion.2] at hp
    rcases List.mem_cons.mp hp with rfl | hLater
    · exact .inr (Question.le_of_run hSeen hSound.table (hCaller.seen_le seen rfl) hRun)
    · exact .inl hLater
  | @refuse t t' seen before after r question next error hRun =>
    obtain ⟨-, hQuestion⟩ := hSound.question
    have hSize := question.grows seen t
    rw [hRun] at hQuestion hSize
    refine h.act hSize (hSound.table.largest_mono hQuestion.1 hSize) fun p hp => ?_
    rw [Inquiry.heard_ask_error hQuestion.2] at hp
    cases hp

theorem Reaches.served {s s' : Shared} (h : s.Reaches s') (hSound : s.Sound)
    (hServed : s.Served) : s'.Served := by
  induction h with
  | refl => exact hServed
  | step hBefore hStep ih => exact ih.step (hBefore.sound hSound) hStep

-- ---------------------------------------------------------------------------
-- Every request can be answered
-- ---------------------------------------------------------------------------

theorem Reaches.trans {a b c : Shared} (h : a.Reaches b) (h' : b.Reaches c) : a.Reaches c := by
  induction h' with
  | refl => exact h
  | step _ hStep ih => exact ih.step hStep

/-- A caller that is left alone comes to the end of its inquiry. -/
theorem reaches_done {r : Request} (inquiry : Inquiry r.Answer) (h : PrimeTable.Sound t)
    (others : List Caller) : ∃ t', Reaches ⟨t, ⟨r, inquiry, none⟩ :: others⟩
      ⟨t', ⟨r, .done inquiry.answer, none⟩ :: others⟩ := by
  induction inquiry generalizing t with
  | done answer => exact ⟨t, .refl⟩
  | ask question next ih =>
    have hLook : Reaches ⟨t, ⟨r, .ask question next, none⟩ :: others⟩ _ :=
      Reaches.refl.step (@Step.look _ [] _ _ _ _)
    have hQuestion := question.run_sound h h
    cases hRun : (question.query t).run t with
    | ok n grown =>
      rw [hRun] at hQuestion
      obtain ⟨t', hRest⟩ := ih n hQuestion.1
      rw [Inquiry.answer_ask_ok hQuestion.2]
      exact ⟨t', (hLook.step (@Step.answer _ _ _ [] _ _ _ _ _ hRun)).trans hRest⟩
    | error error grown =>
      rw [hRun] at hQuestion
      rw [Inquiry.answer_ask_error hQuestion.2]
      exact ⟨grown, hLook.step (@Step.refuse _ _ _ [] _ _ _ _ _ hRun)⟩

/-- So whoever makes a request can be answered, whatever the others are waiting for. -/
theorem reaches_answer {s : Shared} (h : s.Sound) (r : Request) :
    ∃ t, s.Reaches ⟨t, ⟨r, .done r.answer, none⟩ :: s.callers⟩ := by
  obtain ⟨t, hDone⟩ := reaches_done r.inquiry h.table s.callers
  rw [r.answer_inquiry] at hDone
  exact ⟨t, (Reaches.refl.step (.call r)).trans hDone⟩

-- ---------------------------------------------------------------------------
-- Exactness
-- ---------------------------------------------------------------------------

/-- A table that reaches a prime gives its index at the first look. -/
theorem run_indexOf_of_le (h : PrimeTable.Sound seen) {p : Nat} (hp : p.Prime)
    (hLe : p ≤ seen.largest) (t : PrimeTable) :
    (indexOf seen p).run t = .ok (Nat.count Nat.Prime p) t := by
  unfold indexOf
  rw [h.position?_prime hp hLe]
  rfl

/-- A positive number is factorized exactly when every prime that divides it is numbered. The list
is then the factorization, and no product of its powers exceeds the number. Otherwise the limit is
exceeded.

Whatever requests a shared table has been put to, it can go on to answer this one. Whoever has been
answered was given just that, and the table has held the primes that were listed ever since:
looking for the index of one of them finds it, without growing whatever the table has become. The
square of a prime that the table answers while a caller factorizes stays below the bound of the
chunks. -/
theorem factorizations_exact {s : Shared} {n : Nat} (hReach : initial.Reaches s) (hn : 0 < n) :
    ((∃ fs, FactorMachine.factorize n = .ok fs) ↔ ∀ q, q.Prime → q ∣ n → q ≤ largestPrime) ∧
    (∀ fs, FactorMachine.factorize n = .ok fs →
      IsFactorization n fs ∧ ∀ part, part.Sublist fs → powerProduct part ≤ n) ∧
    ((∃ q, q.Prime ∧ q ∣ n ∧ largestPrime < q) →
      FactorMachine.factorize n = .error .limitExceeded) ∧
    (∃ t, s.Reaches ⟨t, ⟨.factorize n, .done (FactorMachine.factorize n), none⟩ :: s.callers⟩) ∧
    (∀ answer seen, ⟨.factorize n, .done answer, seen⟩ ∈ s.callers →
      answer = FactorMachine.factorize n ∧ ∀ fs, answer = .ok fs → ∀ f ∈ fs, ∀ t,
        (indexOf s.table f.1).run t = .ok (Nat.count Nat.Prime f.1) t) ∧
    ∀ question next seen p t, ⟨.factorize n, .ask question next, some seen⟩ ∈ s.callers →
      (question.query seen).run s.table = .ok p t → p * p < chunkBound := by
  have hSound := hReach.sound sound_start
  have hServed := hReach.served sound_start served_start
  refine ⟨exists_factorize_eq_ok_iff hn, ?_, (factorize_eq_limit_iff hn).mpr,
    reaches_answer hSound (.factorize n), ?_, ?_⟩
  · intro fs hOk
    obtain ⟨hIs, -⟩ := factorize_eq_ok_iff.mp hOk
    exact ⟨hIs, fun part hPart => hIs.powerProduct_le hPart⟩
  · intro answer seen hMem
    have hAnswer : answer = FactorMachine.factorize n := (hSound.callers _ hMem).inquiry
    refine ⟨hAnswer, fun fs hOk f hf t => ?_⟩
    obtain ⟨hIs, -⟩ := factorize_eq_ok_iff.mp (hAnswer.symm.trans hOk)
    have hListed : f.1 ∈ (Request.factorize n).listed := by
      simp only [Request.listed, ← hAnswer, hOk]
      exact List.mem_map_of_mem hf
    -- the caller is done, so nothing is left to be heard
    have hHeld := ((hServed _ hMem).listed f.1 hListed).resolve_left (by simp [Inquiry.heard])
    exact run_indexOf_of_le hSound.table (hIs.prime f hf) hHeld t
  · intro question next seen p t hMem hRun
    have hSeen := (hSound.callers _ hMem).seen seen rfl
    have hLeft := question.run_sound hSeen hSound.table
    rw [hRun] at hLeft
    have hLe : p ≤ largestPrime :=
      (Question.le_of_run hSeen hSound.table ((hServed _ hMem).seen_le seen rfl) hRun).trans
        hLeft.1.largest_le
    calc p * p ≤ largestPrime * largestPrime := Nat.mul_le_mul hLe hLe
      _ < chunkBound := by decide

/-- The square of the largest numbered prime: only the prime of the last index settles the division,
and the table has it from then on. -/
theorem factorizations_exact_square :
    FactorMachine.factorize (largestPrime * largestPrime) = .ok [(largestPrime, 2)] ∧
    ∃ t, initial.Reaches ⟨t, [⟨.factorize (largestPrime * largestPrime),
        .done (.ok [(largestPrime, 2)]), none⟩]⟩ ∧
      (indexOf t largestPrime).run t = .ok (primeCount - 1) t := by
  have hPos : 0 < largestPrime * largestPrime := by decide
  have hSquare : IsFactorization (largestPrime * largestPrime) [(largestPrime, 2)] := by
    refine ⟨?_, by simp, by simp, by simp [pow_two]⟩
    simpa using prime_largestPrime
  obtain ⟨hOk, hIs, -, ⟨t, hDone⟩, -, -⟩ := factorizations_exact (s := initial) .refl hPos
  obtain ⟨fs, hFactors⟩ := hOk.mpr fun q hq hDvd => by
    rcases (Nat.Prime.dvd_mul hq).mp hDvd with hDvd | hDvd <;>
      exact Nat.le_of_dvd prime_largestPrime.pos hDvd
  rw [(hIs fs hFactors).1.unique hSquare] at hFactors
  rw [hFactors] at hDone
  obtain ⟨-, -, -, -, hAfter, -⟩ := factorizations_exact hDone hPos
  obtain ⟨-, hHeld⟩ := hAfter _ none List.mem_cons_self
  have hIndex := hHeld _ rfl _ List.mem_cons_self t
  rw [show Nat.count Nat.Prime largestPrime = primeCount - 1 by
    rw [← count_largestPrime, Nat.add_sub_cancel]] at hIndex
  exact ⟨hFactors, t, hDone, hIndex⟩

end Shared

end PrimeTable

end FactorMachine
