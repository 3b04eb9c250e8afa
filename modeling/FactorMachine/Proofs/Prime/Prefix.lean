import FactorMachine.Proofs.Prime.Growth

/-!
# FactorMachine — a table is a prefix of the primes

A table is only ever changed by being extended, up to an index or up to a value. An extension may
be refused, and a refused one is a step of the table's history like any other. Whatever was asked
for before, the table holds the first primes and nothing else, in order. Its map is in step with
them: looking up an index and looking for a prime are inverse to each other. An entry stays where it
was, and the next extension reaches what it is asked for unless that lies beyond the limits.

## Results

* `Sound.isPrefix`       — of two sound tables the shorter one is a prefix of the longer one.
* `Extension.run_sound`  — what one extension is answered, and what it keeps.
* `sound_extendAll`      — what a row of extensions keeps.
* `prefix_of_primes`     — tables after any history of extensions.
-/

namespace FactorMachine.PrimeTable

/-- A demand on a table to reach further. -/
inductive Extension where
  | toIndex (i : Nat)
  | toValue (v : Nat)
  deriving DecidableEq, Repr

namespace Extension

def query : Extension → Query Unit
  | toIndex i => extendToIndex i
  | toValue v => extendToValue v

/-- The demand lies within the numbered primes. -/
def WithinLimit : Extension → Prop
  | toIndex i => i < primeCount
  | toValue v => v ≤ largestPrime

/-- The table reaches as far as was demanded. -/
def MetBy : Extension → PrimeTable → Prop
  | toIndex i, t => i < t.size
  | toValue v, t => v ≤ t.largest

/-- The table that an extension leaves, whether it is granted or refused. -/
def after (x : Extension) (t : PrimeTable) : PrimeTable := stateAfter (x.query.run t)

end Extension

/-- The table after a history of extensions. -/
def extendAll : List Extension → PrimeTable → PrimeTable
  | [], t => t
  | x :: later, t => extendAll later (x.after t)

variable {t t' : PrimeTable}

-- ---------------------------------------------------------------------------
-- The shorter of two tables
-- ---------------------------------------------------------------------------

/-- The entries of a sound table are those of every longer one, as far as it goes. -/
theorem Sound.isPrefix (h : Sound t) (h' : Sound t') (hSize : t.size ≤ t'.size) :
    t.primes.toList <+: t'.primes.toList := by
  rw [List.prefix_iff_getElem?]
  intro i hi
  have hEntry : i < t.size := by simpa [size] using hi
  have hShort := h.entries i hEntry
  have hLong := h'.entries i (Nat.lt_of_lt_of_le hEntry hSize)
  rw [get?, ← Array.getElem?_toList] at hShort hLong
  rw [hLong, ← hShort, List.getElem?_eq_getElem hi]

theorem Sound.get?_eq (h : Sound t) (i : Nat) :
    t.get? i = if i < t.size then some (Nat.nth Nat.Prime i) else none := by
  split
  · rename_i hi
    exact h.entries i hi
  · rename_i hi
    exact get?_of_le (Nat.le_of_not_lt hi)

/-- Looking for a prime undoes looking up an index. -/
theorem Sound.position?_eq_some_iff_get? (h : Sound t) {v i : Nat} :
    t.position? v = some i ↔ t.get? i = some v := by
  rw [h.position?_eq_some_iff, h.get?_eq]
  split
  · rename_i hi
    simp [hi]
  · rename_i hi
    simp [hi]

-- ---------------------------------------------------------------------------
-- One extension
-- ---------------------------------------------------------------------------

/-- An extension of a sound table is granted exactly within the limits, and then it is met. -/
theorem Extension.run_sound (x : Extension) (h : Sound t) : ∃ t', Sound t' ∧
    (x.WithinLimit → x.MetBy t' ∧ x.query.run t = .ok () t') ∧
    (¬ x.WithinLimit → x.query.run t = .error .limitExceeded t') := by
  cases x with
  | toIndex i =>
    obtain ⟨t', hSound, hReach, hRun⟩ := h.extendToIndex_run i
    refine ⟨t', hSound, fun hWithin => ⟨hReach hWithin, ?_⟩, fun hBeyond => ?_⟩
    · rwa [if_pos (show i < primeCount from hWithin)] at hRun
    · rwa [if_neg (show ¬ i < primeCount from hBeyond)] at hRun
  | toValue v =>
    obtain ⟨t', hSound, hReach, hRun⟩ := h.extendToValue_run v
    refine ⟨t', hSound, fun hWithin => ⟨hReach hWithin, ?_⟩, fun hBeyond => ?_⟩
    · rwa [if_pos (show v ≤ largestPrime from hWithin)] at hRun
    · rwa [if_neg (show ¬ v ≤ largestPrime from hBeyond)] at hRun

theorem Extension.sound_after (x : Extension) (h : Sound t) : Sound (x.after t) := by
  obtain ⟨t', hSound, hGranted, hRefused⟩ := x.run_sound h
  unfold after
  by_cases hWithin : x.WithinLimit
  · rwa [(hGranted hWithin).2]
  · rwa [hRefused hWithin]

theorem Extension.size_le_after (x : Extension) (t : PrimeTable) : t.size ≤ (x.after t).size := by
  cases x with
  | toIndex i => exact grows_extendToIndex i t
  | toValue v => exact grows_extendToValue v t

-- ---------------------------------------------------------------------------
-- A history of extensions
-- ---------------------------------------------------------------------------

theorem sound_extendAll (calls : List Extension) (h : Sound t) : Sound (extendAll calls t) := by
  induction calls generalizing t with
  | nil => exact h
  | cons x later ih => exact ih (x.sound_after h)

/-- However a table was extended before, also by demands that were refused, it holds the first
primes and nothing else: at least two and at most as many as are numbered. Its map leads from each
entry to its index, and from no other number to any. The next extension leaves the entries where
they are, and reaches what it demands if that lies within the limits. -/
theorem prefix_of_primes (history : List Extension) :
    let t := extendAll history initial
    (∀ i, t.get? i = if i < t.size then some (Nat.nth Nat.Prime i) else none) ∧
    (∀ v i, t.position? v = some i ↔ t.get? i = some v) ∧
    2 ≤ t.size ∧ t.size ≤ primeCount ∧
    (∀ x : Extension, t.primes.toList <+: (x.after t).primes.toList) ∧
    (∀ i, i < primeCount → ∃ t', (extendToIndex i).run t = .ok () t' ∧ i < t'.size) ∧
    (∀ v, v ≤ largestPrime → ∃ t', (extendToValue v).run t = .ok () t' ∧ v ≤ t'.largest) := by
  intro t
  have hSound : Sound t := sound_extendAll history sound_initial
  refine ⟨hSound.get?_eq, fun v i => hSound.position?_eq_some_iff_get?, hSound.two_le,
    hSound.size_le, ?_, ?_, ?_⟩
  · intro x
    exact hSound.isPrefix (x.sound_after hSound) (x.size_le_after t)
  · intro i hi
    obtain ⟨t', -, hGranted, -⟩ := (Extension.toIndex i).run_sound hSound
    obtain ⟨hReach, hRun⟩ := hGranted hi
    exact ⟨t', hRun, hReach⟩
  · intro v hv
    obtain ⟨t', -, hGranted, -⟩ := (Extension.toValue v).run_sound hSound
    obtain ⟨hReach, hRun⟩ := hGranted hv
    exact ⟨t', hRun, hReach⟩

/-- A demand that is refused between two that are granted changes nothing. -/
example : extendAll [.toIndex 3, .toIndex primeCount, .toValue 12] initial =
    ⟨#[2, 3, 5, 7, 11, 13], [(13, 5), (11, 4), (7, 3), (5, 2), (3, 1), (2, 0)]⟩ := by
  decide +kernel

end FactorMachine.PrimeTable
