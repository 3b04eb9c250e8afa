import FactorMachine.Proofs.Chunk.Checksummed
import FactorMachine.Proofs.Chunk.Joined
import FactorMachine.Proofs.Engine.Bounds
import FactorMachine.Proofs.Engine.Instruction

/-!
# FactorMachine — factors on the operand stack

A factorization leaves its factors on the operand stack, and a chunk is built from factors that
lie there. The two orders mirror each other. A factorization pushes the count first and the index
of a factor before its exponent; the building finds the count on top and the index of a factor on
top of its exponent. So a program that is to build the chunk again turns the words around, and it
may do so in any order of the factors.

Either way an instruction that succeeded tells what it found. A factorization found the product
of the factors that it leaves. The building found a count and so many factors, which may repeat an
index and may hold exponents of zero; what it leaves is factorized into what they come down to.

## Results

* `popFactors_eq_ok`       — factors that were popped did lie on the stack.
* `run_factorize_ok`       — what a factorization that succeeded was given and leaves.
* `run_buildChunk_ok`      — what a chunk that was built was built from.
* `factorize_buildChunk_inverse` — each of the two instructions undoes the other.
-/

namespace FactorMachine

-- ---------------------------------------------------------------------------
-- Counts and words
-- ---------------------------------------------------------------------------

/-- Each index occurs once, so there are no more factors than indices. -/
theorem Canonical.length_le {fs : List Factor} (h : Canonical fs) : fs.length ≤ primeCount := by
  have hNodup : (fs.map Factor.index).Nodup :=
    List.pairwise_map.mpr (h.ascending.imp fun hLt => hLt.ne)
  have hSubset : fs.map Factor.index ⊆ List.range primeCount := by
    intro i hi
    obtain ⟨f, hf, rfl⟩ := List.mem_map.mp hi
    exact List.mem_range.mpr (h.numbered f hf)
  have hLength := (hNodup.subperm hSubset).length_le
  rwa [List.length_map, List.length_range] at hLength

/-- A word that was taken for a number is that number. -/
theorem Word.eq_of_toNatBelow? {limit n : Nat} {v : Word} (h : v.toNatBelow? limit = some n) :
    v = n := by
  unfold Word.toNatBelow? at h
  split at h
  · rename_i hRange
    cases h
    exact (Int.toNat_of_nonneg hRange.1).symm
  · cases h

-- ---------------------------------------------------------------------------
-- Parts that succeeded
-- ---------------------------------------------------------------------------

namespace Operation

variable {σ : Type} {e e' : Engine σ}

theorem pop_eq_ok {address : Nat} {op : Opcode} {w : Word}
    (h : (pop address op).run e = .ok w e') :
    e.stack = w :: e'.stack ∧ e' = { e with stack := e'.stack } := by
  rw [pop_run] at h
  cases hStack : e.stack with
  | nil =>
    rw [hStack] at h
    cases h
  | cons v rest =>
    rw [hStack] at h
    cases h
    exact ⟨rfl, rfl⟩

theorem pop_eq_error {address : Nat} {op : Opcode} {fault : Fault}
    (h : (pop address op).run e = .error fault e') :
    fault = .stackUnderflow address op ∧ e' = e := by
  rw [pop_run] at h
  split at h
  · cases h
    exact ⟨rfl, rfl⟩
  · cases h

theorem toOperand_eq_ok {op : Opcode} {limit n : Nat} {v : Word}
    (h : (toOperand op limit v).run e = .ok n e') : v = n ∧ n < limit ∧ e' = e := by
  unfold toOperand at h
  split at h
  · rename_i hWord
    cases h
    exact ⟨Word.eq_of_toNatBelow? hWord, Word.lt_of_toNatBelow? hWord, rfl⟩
  · cases h

theorem toOperand_eq_error {op : Opcode} {limit : Nat} {v : Word} {fault : Fault}
    (h : (toOperand op limit v).run e = .error fault e') :
    fault = .invalidOperand op v ∧ e' = e := by
  unfold toOperand at h
  split at h
  · cases h
  · cases h
    exact ⟨rfl, rfl⟩

theorem requireWords_eq_ok {n : Nat} {fault : Fault}
    (h : (requireWords n fault).run e = .ok () e') : e' = e := by
  rw [requireWords_run] at h
  split at h
  · cases h
  · cases h
    rfl

/-- Factors that were popped did lie on the stack. -/
theorem popFactors_eq_ok {address count : Nat} {op : Opcode} {fs : List Factor}
    (h : (popFactors address op count).run e = .ok fs e') :
    fs.length = count ∧ e.stack = factorWords fs ++ e'.stack ∧
      e' = { e with stack := e'.stack } := by
  induction count generalizing e fs with
  | zero =>
    cases h
    exact ⟨rfl, rfl, rfl⟩
  | succ count ih =>
    rw [popFactors] at h
    obtain ⟨i, e₁, hIndex, h⟩ := run_bind_eq_ok h
    obtain ⟨d, e₂, hExponent, h⟩ := run_bind_eq_ok h
    obtain ⟨index, e₃, hIndexWord, h⟩ := run_bind_eq_ok h
    obtain ⟨exponent, e₄, hExponentWord, h⟩ := run_bind_eq_ok h
    obtain ⟨rest, e₅, hRest, h⟩ := run_bind_eq_ok h
    cases h
    obtain ⟨hStack, hSame⟩ := pop_eq_ok hIndex
    obtain ⟨hStack₁, hSame₁⟩ := pop_eq_ok hExponent
    obtain ⟨rfl, -, rfl⟩ := toOperand_eq_ok hIndexWord
    obtain ⟨rfl, -, rfl⟩ := toOperand_eq_ok hExponentWord
    obtain ⟨hLength, hWords, hSame₂⟩ := ih hRest
    refine ⟨congrArg (· + 1) hLength, ?_, ?_⟩
    · rw [hStack, hStack₁, hWords]
      rfl
    · rw [hSame₂, hSame₁, hSame]

/-- Words that were pushed lie on the stack, and there was room for them. -/
theorem pushAll_eq_ok {ws : List Word} (hSome : ws ≠ []) (h : (forM ws push).run e = .ok () e') :
    e.stack.length + ws.length ≤ e.maxStackDepth ∧
      e' = { e with stack := ws.reverse ++ e.stack } := by
  rcases Nat.lt_or_ge e.maxStackDepth (e.stack.length + ws.length) with hFull | hRoom
  · rw [run_pushAll_full ws hSome hFull] at h
    cases h
  · rw [run_pushAll_room ws hRoom] at h
    cases h
    exact ⟨hRoom, rfl⟩

end Operation

/-- The count tells how many of the words belong to the factors. -/
theorem Operation.countedWords_append_inj {fs gs : List Factor} {ws vs : List Word}
    (h : countedWords fs ++ ws = countedWords gs ++ vs) : fs = gs ∧ ws = vs := by
  obtain ⟨hCount, hWords⟩ := List.cons.inj h
  have hLength : fs.length = gs.length := Int.ofNat.inj hCount
  clear h hCount
  induction fs generalizing gs with
  | nil =>
    obtain rfl : gs = [] := List.eq_nil_of_length_eq_zero hLength.symm
    exact ⟨rfl, hWords⟩
  | cons f fs ih =>
    obtain ⟨g, gs, rfl⟩ := List.exists_cons_of_length_eq_add_one hLength.symm
    obtain ⟨hIndex, hWords⟩ := List.cons.inj hWords
    obtain ⟨hExponent, hWords⟩ := List.cons.inj hWords
    obtain ⟨rfl, hRest⟩ := ih hWords (Nat.succ.inj hLength)
    obtain ⟨i, d⟩ := f
    obtain ⟨j, k⟩ := g
    obtain rfl : i = j := Int.ofNat.inj hIndex
    obtain rfl : d = k := Int.ofNat.inj hExponent
    exact ⟨rfl, hRest⟩

-- ---------------------------------------------------------------------------
-- Instructions that succeeded
-- ---------------------------------------------------------------------------

section Instructions

open Operation

variable {σ : Type} [RandomSource σ] {e e' : Engine σ} {address : Nat} {operand : Option Nat}
  {output : Option Word}

/-- What a factorization that succeeded was given and leaves. -/
theorem run_factorize_ok {v : Word} {rest : List Word} (hStack : e.stack = v :: rest)
    (h : (execute address .factorize operand).run e = .ok output e') :
    ∃ fs, Canonical fs ∧ (factorsNumber fs : Int) = v ∧ factorsNumber fs < Word.bound ∧
      rest.length + 2 * fs.length < e.maxStackDepth ∧ output = none ∧
      e' = { e with stack := (countedWords fs).reverse ++ rest } := by
  have hRun := h
  rw [execute, run_bind_ok (run_pop address .factorize hStack)] at hRun
  obtain ⟨n, e₁, hOperand, hRun⟩ := run_bind_eq_ok hRun
  obtain ⟨rfl, hBound, rfl⟩ := toOperand_eq_ok hOperand
  cases hFactors : factorize n with
  | error error =>
    rw [hFactors] at hRun
    obtain ⟨_, _, hThrow, -⟩ := run_bind_eq_ok hRun
    cases hThrow
  | ok ps =>
    obtain ⟨fs, hCanonical, hNumber, rfl⟩ := exists_canonical_of_factorize hFactors
    rw [execute_factorize address operand hFactors hCanonical.numbered hBound hStack] at h
    obtain ⟨_, e₂, hPushed, hDone⟩ := run_bind_eq_ok h
    obtain ⟨hRoom, rfl⟩ := pushAll_eq_ok (List.cons_ne_nil _ _) hPushed
    cases hDone
    have hLength : rest.length + (countedWords fs).length ≤ e.maxStackDepth := hRoom
    rw [length_countedWords] at hLength
    exact ⟨fs, hCanonical, by rw [hNumber], hNumber ▸ hBound, hLength, rfl, rfl⟩

/-- What a chunk that was built was built from. -/
theorem run_buildChunk_ok (h : (execute address .buildChunk operand).run e = .ok output e') :
    ∃ fs c rest, e.stack = countedWords fs ++ rest ∧ encodeFactors fs = .ok c ∧ c < Word.bound ∧
      output = none ∧ e' = { e with stack := (c : Int) :: rest } := by
  rw [execute_buildChunk_eq] at h
  obtain ⟨count, e₁, hCount, hRun⟩ := run_bind_eq_ok h
  obtain ⟨pairs, e₂, hPairs, hRun⟩ := run_bind_eq_ok hRun
  obtain ⟨_, e₃, hEnough, hRun⟩ := run_bind_eq_ok hRun
  obtain ⟨fs, e₄, hFactors, hBuilt⟩ := run_bind_eq_ok hRun
  obtain ⟨hStack, hSame⟩ := pop_eq_ok hCount
  obtain ⟨rfl, -, rfl⟩ := toOperand_eq_ok hPairs
  obtain rfl := requireWords_eq_ok hEnough
  obtain ⟨rfl, hWords, hSame₁⟩ := popFactors_eq_ok hFactors
  rw [hWords] at hStack
  cases hWritten : encodeFactors fs with
  | error error =>
    rw [hWritten] at hBuilt
    obtain ⟨_, _, hThrow, -⟩ := run_bind_eq_ok hBuilt
    cases hThrow
  | ok c =>
    rw [hWritten] at hBuilt
    obtain ⟨_, e₅, hPushed, hDone⟩ := run_bind_eq_ok hBuilt
    cases hDone
    unfold pushChunk at hPushed
    split at hPushed
    · rename_i hBound
      rw [push_run] at hPushed
      split at hPushed
      · cases hPushed
      · cases hPushed
        exact ⟨fs, c, e₄.stack, hStack, hWritten, hBound, rfl, by rw [hSame₁, hSame]⟩
    · cases hPushed

end Instructions

-- ---------------------------------------------------------------------------
-- Each undoes the other
-- ---------------------------------------------------------------------------

/-- The engine after an instruction that changed nothing but the operand stack. -/
def Engine.after {σ : Type} (e : Engine σ) (op : Opcode) (stack : List Word) : Engine σ :=
  { e.record (.executed e.ip op) with ip := e.ip + 1, stack }

section Fetched

open Operation

variable {σ : Type} [RandomSource σ] {e : Engine σ} {operand : Option Nat} {rest : List Word}

theorem executeNext_of_fetch {op : Opcode} (hFetch : e.fetch = .instruction op operand) :
    executeNext.run e = (execute e.ip op operand).run (e.after op e.stack) := by
  rw [executeNext_eq, hFetch]
  rfl

/-- Factors of a word are built into their product, whatever their order. -/
theorem executeNext_buildChunk {fs gs : List Factor} (hCanonical : Canonical fs)
    (hBound : factorsNumber fs < Word.bound) (hPerm : gs.Perm fs)
    (hFetch : e.fetch = .instruction .buildChunk operand)
    (hStack : e.stack = countedWords gs ++ rest) (hRoom : rest.length < e.maxStackDepth) :
    executeNext.run e = .ok none (e.after .buildChunk ((factorsNumber fs : Int) :: rest)) := by
  have hChunk : factorsNumber fs < chunkBound := Nat.lt_trans hBound (by decide)
  have hWritten : encodeFactors gs = .ok (factorsNumber fs) := by
    refine encodeFactors_eq_ok_iff.mpr ⟨?_, factorsNumber_perm hPerm, hChunk⟩
    intro f hf
    exact .inr (hCanonical.numbered f (hPerm.mem_iff.mp hf))
  have hIndex : ∀ f ∈ gs, f.index < indexBound := fun f hf =>
    Nat.lt_trans (hCanonical.numbered f (hPerm.mem_iff.mp hf)) (by decide)
  have hExponent : ∀ f ∈ gs, f.exponent < exponentBound := fun f hf =>
    Nat.lt_trans (exponent_lt_of_mem (hPerm.mem_iff.mp hf) hChunk) (by decide)
  have hLength : gs.length < indexBound := by
    rw [hPerm.length_eq]
    exact Nat.lt_of_le_of_lt hCanonical.length_le (by decide)
  have hBuilt := execute_buildChunk_factors (e := e.after .buildChunk e.stack) e.ip operand hWritten
    hBound hIndex hExponent hLength hStack
  rw [executeNext_of_fetch hFetch, hBuilt]
  exact run_pushLast_room (e := e.after .buildChunk rest) _ hRoom

/-- The product of canonical factors is factorized into them, if there is room. -/
theorem executeNext_factorize {fs : List Factor} (hCanonical : Canonical fs)
    (hBound : factorsNumber fs < Word.bound) (hFetch : e.fetch = .instruction .factorize operand)
    (hStack : e.stack = (factorsNumber fs : Int) :: rest)
    (hRoom : rest.length + 2 * fs.length < e.maxStackDepth) :
    executeNext.run e =
      .ok none (e.after .factorize ((countedWords fs).reverse ++ rest)) := by
  have hFits : rest.length + (countedWords fs).length ≤ e.maxStackDepth := by
    rw [length_countedWords]
    exact hRoom
  have hFactorized := execute_factorize (e := e.after .factorize e.stack) e.ip operand
    (factorize_number hCanonical) hCanonical.numbered hBound hStack
  rw [executeNext_of_fetch hFetch, hFactorized]
  exact run_bind_ok (run_pushAll_room (e := e.after .factorize rest) _ hFits)

/-- **Each of the two instructions undoes the other.** A factorization that succeeds leaves the
count of the factors and above it, in ascending order, the index and the exponent of each. From
these factors in any order a chunk is built that is the same word again; there is room for it
wherever the words above it have fitted.

And whenever a chunk is built, the factors for it lay on the stack, and if there is room for what
they come down to, then that is what the chunk is factorized into. -/
theorem factorize_buildChunk_inverse (e : Engine σ) :
    (∀ operand n rest output e', e.fetch = .instruction .factorize operand → e.stack = n :: rest →
      executeNext.run e = .ok output e' →
      ∃ fs, Canonical fs ∧ (factorsNumber fs : Int) = n ∧
        rest.length + 2 * fs.length < e.maxStackDepth ∧ output = none ∧
        e' = e.after .factorize ((countedWords fs).reverse ++ rest) ∧
        ∀ (a : Engine σ) operand gs rest, a.fetch = .instruction .buildChunk operand →
          gs.Perm fs → a.stack = countedWords gs ++ rest → rest.length < a.maxStackDepth →
          executeNext.run a = .ok none (a.after .buildChunk (n :: rest))) ∧
    ∀ operand output e', e.fetch = .instruction .buildChunk operand →
      executeNext.run e = .ok output e' →
      ∃ fs c rest, e.stack = countedWords fs ++ rest ∧ output = none ∧
        e' = e.after .buildChunk (c :: rest) ∧ Joins fs (joinFactors fs) ∧
        ∀ (a : Engine σ) operand rest, a.fetch = .instruction .factorize operand →
          a.stack = c :: rest → rest.length + 2 * (joinFactors fs).length < a.maxStackDepth →
          executeNext.run a =
            .ok none (a.after .factorize ((countedWords (joinFactors fs)).reverse ++ rest)) := by
  constructor
  · intro operand n rest output e' hFetch hStack hRun
    rw [executeNext_of_fetch hFetch] at hRun
    obtain ⟨fs, hCanonical, hNumber, hBound, hRoom, rfl, rfl⟩ :=
      run_factorize_ok (e := e.after .factorize e.stack) hStack hRun
    refine ⟨fs, hCanonical, hNumber, hRoom, rfl, rfl, ?_⟩
    intro a operand gs rest hFetch hPerm hStack hRoom
    rw [← hNumber]
    exact executeNext_buildChunk hCanonical hBound hPerm hFetch hStack hRoom
  · intro operand output e' hFetch hRun
    rw [executeNext_of_fetch hFetch] at hRun
    obtain ⟨fs, c, rest, hStack, hWritten, hBound, rfl, rfl⟩ :=
      run_buildChunk_ok (e := e.after .buildChunk e.stack) hRun
    obtain ⟨hNumbered, hNumber, -⟩ := encodeFactors_eq_ok_iff.mp hWritten
    obtain rfl : factorsNumber (joinFactors fs) = c := (factorsNumber_joinFactors fs).trans hNumber
    refine ⟨fs, _, rest, hStack, rfl, rfl, joins_joinFactors hNumbered, ?_⟩
    intro a operand rest hFetch hStack hRoom
    exact executeNext_factorize (canonical_joinFactors hNumbered) hBound hFetch hStack hRoom

/-- Twelve is built from a list that names the two twice and the five with exponent zero, and is
factorized into the two and the three; from these, the three first, it is built again. -/
theorem factorize_buildChunk_inverse_twelve : ∃ e a b : Engine (List Nat),
    b.stack = countedWords [⟨0, 1⟩, ⟨2, 0⟩, ⟨1, 1⟩, ⟨0, 1⟩] ∧
      executeNext.run b = .ok none (b.after .buildChunk [12]) ∧
      e.stack = [12] ∧ executeNext.run e = .ok none (e.after .factorize [1, 1, 2, 0, 2]) ∧
      a.stack = countedWords [⟨1, 1⟩, ⟨0, 2⟩] ∧
      executeNext.run a = .ok none (a.after .buildChunk [12]) := by
  have hBuild : decode (17 ^ 4) = .ok (.ofOpcode .buildChunk) := by decide +kernel
  have hFactorize : decode (43 ^ 4) = .ok (.ofOpcode .factorize) := by decide +kernel
  let e : Engine (List Nat) := .start [43 ^ 4] [12] 5 0 []
  let a : Engine (List Nat) := .start [17 ^ 4] (countedWords [⟨1, 1⟩, ⟨0, 2⟩]) 5 0 []
  let b : Engine (List Nat) :=
    .start [17 ^ 4] (countedWords [⟨0, 1⟩, ⟨2, 0⟩, ⟨1, 1⟩, ⟨0, 1⟩]) 9 0 []
  have hFetchE : e.fetch = .instruction .factorize none :=
    Engine.fetch_of_decode rfl hFactorize (by decide)
  have hFetchA : a.fetch = .instruction .buildChunk none :=
    Engine.fetch_of_decode rfl hBuild (by decide)
  have hFetchB : b.fetch = .instruction .buildChunk none :=
    Engine.fetch_of_decode rfl hBuild (by decide)
  have hWritten : encodeFactors [⟨0, 1⟩, ⟨2, 0⟩, ⟨1, 1⟩, ⟨0, 1⟩] = .ok 12 := by decide +kernel
  have hRunB : executeNext.run b = .ok none (b.after .buildChunk [12]) := by
    have hStack : (b.after .buildChunk b.stack).stack =
        countedWords [⟨0, 1⟩, ⟨2, 0⟩, ⟨1, 1⟩, ⟨0, 1⟩] ++ [] := rfl
    have hBuilt := execute_buildChunk_factors b.ip none hWritten (by decide) (by decide) (by decide)
      (by decide) hStack
    rw [executeNext_of_fetch hFetchB, hBuilt]
    exact run_pushLast_room (e := b.after .buildChunk []) 12 (by decide)
  obtain ⟨fs, c, rest, hStack, -, hAfter, -, hBack⟩ :=
    (factorize_buildChunk_inverse b).2 none none _ hFetchB hRunB
  have hList : countedWords [⟨0, 1⟩, ⟨2, 0⟩, ⟨1, 1⟩, ⟨0, 1⟩] ++ [] = countedWords fs ++ rest :=
    hStack
  obtain ⟨rfl, rfl⟩ := countedWords_append_inj hList
  obtain rfl : (12 : Word) = c := (List.cons.inj (congrArg Engine.stack hAfter)).1
  have hRunE : executeNext.run e = .ok none (e.after .factorize [1, 1, 2, 0, 2]) :=
    hBack e none [] hFetchE rfl (by decide)
  obtain ⟨gs, -, -, -, -, hAfter, hAgain⟩ :=
    (factorize_buildChunk_inverse e).1 none 12 [] none _ hFetchE rfl hRunE
  have hList : countedWords [⟨0, 2⟩, ⟨1, 1⟩] ++ [] = countedWords gs ++ [] := by
    have hWords : [2, 0, 2, 1, 1] = countedWords gs := by
      simpa [Engine.after] using congrArg (fun e => e.stack.reverse) hAfter
    rw [← hWords]
    rfl
  obtain ⟨rfl, -⟩ := countedWords_append_inj hList
  exact ⟨e, a, b, rfl, hRunB, rfl, hRunE, rfl,
    hAgain a none _ [] hFetchA (.swap _ _ _) rfl (by decide)⟩

end Fetched

end FactorMachine
