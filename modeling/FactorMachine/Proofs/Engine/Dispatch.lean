import FactorMachine.Proofs.Chunk.Least
import FactorMachine.Proofs.Engine.Factors

/-!
# FactorMachine — the check before dispatch

Before an instruction is carried out, it is checked that the operand stack holds as many words as
its opcode pops. Nothing after that looks again, so the table of these numbers has to be right for
every opcode. An instruction takes its words first, then looks at what it got, and has at most one
result to push when nothing else can go wrong. `Operation.Needs` says of such work that so many
words are enough for it, and that where it faults it has only taken words from the top.

Two opcodes pop or push as many words as their operands say. The building of a chunk checks once
more when it knows its count. The doubling in this check stops at the greatest index, which no stack
in memory reaches, so the check is exact for every count. A factorization pushes its factors until
there is no more room.

## Results

* `needs_execute`       — the words that an opcode pops are enough for it.
* `run_factorize_error` — where a factorization breaks off.
* `executeNext_buildChunk_short`, `executeNext_buildChunk_enough` — the check of a count.
* `dispatch_complete`   — nothing goes wrong that has been checked for.
-/

namespace FactorMachine

/-- A fault that is met before an instruction is carried out. Only the building of a chunk may want
for words later. -/
def Fault.ofFetch : Fault → Bool
  | .stackUnderflow _ _ | .notAnInstruction _ _ | .undecodable _ _ => true
  | _ => false

theorem Fault.ne_stackUnderflow {fault : Fault} (h : fault.ofFetch = false) (address : Nat)
    (op : Opcode) : fault ≠ .stackUnderflow address op := by
  rintro rfl
  cases h

variable {σ : Type}

-- ---------------------------------------------------------------------------
-- Words that are enough
-- ---------------------------------------------------------------------------

namespace Operation

variable {α β : Type} {n address : Nat} {op : Opcode}

/-- So many words are enough for the work. If it faults for another reason, it has only taken words
from the top. -/
def Needs (n : Nat) (x : Operation σ α) : Prop :=
  ∀ ⦃e e' : Engine σ⦄ ⦃fault : Fault⦄, n ≤ e.stack.length → x.run e = .error fault e' →
    fault.ofFetch = false ∧ e'.stack <:+ e.stack

/-- Work that needs no words and leaves the operand stack alone. -/
structure Reads (x : Operation σ α) : Prop where
  needs : Needs 0 x
  keeps : ∀ ⦃e e' : Engine σ⦄ ⦃a : α⦄, x.run e = .ok a e' → e'.stack = e.stack

theorem needs_throw (n : Nat) {fault : Fault} (h : fault.ofFetch = false) :
    Needs n (throw fault : Operation σ α) := by
  intro e e' fault' _ hRun
  cases hRun
  exact ⟨h, List.suffix_rfl⟩

theorem needs_push (n : Nat) (v : Word) : Needs n (push v : Operation σ Unit) := by
  intro e e' fault _ hRun
  rw [push_run] at hRun
  split at hRun
  · cases hRun
    exact ⟨rfl, List.suffix_rfl⟩
  · cases hRun

theorem needs_pushResult (v : Int) : Needs n (pushResult op v : Operation σ Unit) := by
  unfold pushResult
  split
  · exact needs_push n _
  · exact needs_throw n rfl

theorem needs_pushChunk (chunk : Chunk) : Needs n (pushChunk op chunk : Operation σ Unit) := by
  unfold pushChunk
  split
  · exact needs_push n _
  · exact needs_throw n rfl

/-- Of two words that are exchanged, none is missing. -/
theorem needs_swapTop : Needs 2 (swapTop address op : Operation σ Unit) := by
  intro e e' fault hWords hRun
  rw [swapTop_run] at hRun
  match hStack : e.stack with
  | [] | [_] => simp [hStack] at hWords
  | y :: x :: rest =>
    rw [hStack] at hRun
    cases hRun

theorem reads_throw {fault : Fault} (h : fault.ofFetch = false) :
    Reads (throw fault : Operation σ α) where
  needs := needs_throw 0 h
  keeps := by
    intro e e' a hRun
    cases hRun

theorem reads_pure (a : α) : Reads (pure a : Operation σ α) := by
  constructor
  · intro e e' fault _ hRun
    cases hRun
  · intro e e' _ hRun
    cases hRun
    rfl

theorem reads_toOperand (limit : Nat) (v : Word) :
    Reads (toOperand op limit v : Operation σ Nat) := by
  unfold toOperand
  split
  · exact reads_pure _
  · exact reads_throw rfl

theorem reads_toAddress (v : Word) : Reads (toAddress v : Operation σ Nat) := by
  constructor
  · intro e e' fault _ hRun
    rw [toAddress_run] at hRun
    split at hRun <;> cases hRun
    exact ⟨rfl, List.suffix_rfl⟩
  · intro e e' _ hRun
    rw [toAddress_run] at hRun
    split at hRun <;> cases hRun
    rfl

theorem reads_readCell : Reads (readCell address : Operation σ Chunk) := by
  constructor
  · intro e e' fault _ hRun
    rw [readCell_run] at hRun
    split at hRun <;> cases hRun
    exact ⟨rfl, List.suffix_rfl⟩
  · intro e e' _ hRun
    rw [readCell_run] at hRun
    split at hRun <;> cases hRun
    rfl

theorem reads_drawBelow [RandomSource σ] (bound : Nat) :
    Reads (drawBelow bound : Operation σ Nat) := by
  constructor
  · intro e e' fault _ hRun
    cases hRun
  · intro e e' _ hRun
    cases hRun
    rfl

-- How work is put together.

theorem Needs.pop {f : Word → Operation σ α} (hf : ∀ v, Needs n (f v)) :
    Needs (n + 1) (Operation.pop address op >>= f) := by
  intro e e' fault hWords hRun
  obtain ⟨w, rest, hStack⟩ := List.exists_cons_of_length_pos (Nat.lt_of_lt_of_le n.succ_pos hWords)
  have hLeft : n ≤ rest.length := by
    rw [hStack, List.length_cons] at hWords
    exact Nat.le_of_succ_le_succ hWords
  rw [run_bind_ok (run_pop address op hStack)] at hRun
  obtain ⟨hFault, hSuffix⟩ := hf w hLeft hRun
  exact ⟨hFault, hStack ▸ hSuffix.trans (List.suffix_cons w rest)⟩

theorem Needs.popPair {f : Word × Word → Operation σ α} (hf : ∀ p, Needs n (f p)) :
    Needs (n + 2) (Operation.popPair address op >>= f) := by
  have hPair : Operation.popPair address op >>= f =
      (Operation.pop address op >>= fun right => Operation.pop address op >>= fun left =>
        f (left, right)) := by
    simp only [Operation.popPair, bind_assoc, pure_bind]
  rw [hPair]
  exact .pop fun _ => .pop fun _ => hf _

/-- The top word is looked at and stays. -/
theorem Needs.top {f : Word → Operation σ α} (hf : ∀ v, Needs (n + 1) (f v)) :
    Needs (n + 1) (Operation.top address op >>= f) := by
  intro e e' fault hWords hRun
  obtain ⟨w, rest, hStack⟩ := List.exists_cons_of_length_pos (Nat.lt_of_lt_of_le n.succ_pos hWords)
  have hTop : (Operation.top address op).run e = .ok w e := by rw [top_run, hStack]
  rw [run_bind_ok hTop] at hRun
  exact hf w hWords hRun

theorem Needs.reads {x : Operation σ α} {f : α → Operation σ β} (hx : Reads x)
    (hf : ∀ a, Needs n (f a)) : Needs n (x >>= f) := by
  intro e e' fault hWords hRun
  rcases run_bind_eq_error hRun with hFirst | ⟨a, e₁, hFirst, hRest⟩
  · exact hx.needs (Nat.zero_le _) hFirst
  · have hSame := hx.keeps hFirst
    rw [← hSame] at hWords ⊢
    exact hf a hWords hRest

/-- After the last part nothing can go wrong. -/
theorem Needs.last {x : Operation σ α} (hx : Needs n x) {g : α → β} :
    Needs n (x >>= fun a => pure (g a)) := by
  intro e e' fault hWords hRun
  rcases run_bind_eq_error hRun with hFirst | ⟨a, e₁, -, hRest⟩
  · exact hx hWords hFirst
  · cases hRest

/-- Every factor takes two words. -/
theorem Needs.popFactors (count : Nat) : ∀ {f : List Factor → Operation σ α},
    (∀ fs, Needs n (f fs)) → Needs (n + 2 * count) (Operation.popFactors address op count >>= f) := by
  induction count with
  | zero =>
    intro f hf
    exact .reads (reads_pure []) hf
  | succ count ih =>
    intro f hf
    simp only [Operation.popFactors, bind_assoc, pure_bind]
    refine .pop fun index => .pop fun exponent => ?_
    exact .reads (reads_toOperand _ _) fun _ => .reads (reads_toOperand _ _) fun _ =>
      ih fun _ => hf _

end Operation

open Operation

/-- An effect that comes to nothing leaves the engine as it was. -/
theorem Effect.eq_of_error {effect : Effect} {e e' : Engine σ} {fault : Fault}
    (h : effect.perform.run e = .error fault e') : fault.ofFetch = false ∧ e' = e := by
  rw [run_perform] at h
  cases effect with
  | proceed | print v | await | halt => cases h
  | jump target | call target | ret | poke target value =>
    simp only [outcome] at h
    repeat' split at h
    all_goals cases h
    all_goals exact ⟨rfl, rfl⟩

theorem Effect.needs (effect : Effect) (n : Nat) :
    Needs n (effect.perform : Operation σ (Option Word)) := by
  intro e e' fault _ hRun
  obtain ⟨hFault, rfl⟩ := Effect.eq_of_error hRun
  exact ⟨hFault, List.suffix_rfl⟩

variable [RandomSource σ]

/-- **The words that an opcode pops are enough for it.** -/
theorem needs_execute (address : Nat) {op : Opcode} (operand : Option Nat)
    (hBuild : op ≠ .buildChunk) (hFactorize : op ≠ .factorize) :
    Needs op.pops (execute address op operand : Operation σ (Option Word)) := by
  cases op with
  | buildChunk => exact absurd rfl hBuild
  | factorize => exact absurd rfl hFactorize
  | push =>
    cases operand with
    | some n => exact (needs_push 0 _).last
    | none => exact .reads (reads_throw rfl) fun _ => Effect.needs .proceed 0
  | add | sub => exact .popPair fun (a, b) => (needs_pushResult _).last
  | mod =>
    refine .popPair fun (a, b) => ?_
    dsimp only
    split
    on_goal 1 => refine .reads (reads_throw rfl) fun _ => ?_
    all_goals
      split
      · exact .reads (reads_throw rfl) fun _ => (needs_push 0 _).last
      · exact (needs_push 0 _).last
  | compareEq => exact .popPair fun (a, b) => (needs_push 0 _).last
  | dup =>
    rw [execute_dup_eq]
    exact .top fun _ => (needs_push 1 _).last
  | swap =>
    rw [execute_swap_eq]
    exact needs_swapTop.last
  | drop =>
    show Needs 1 ((pop address .drop >>= fun _ => pure ()) >>= fun _ => pure none)
    rw [bind_assoc]
    exact .pop fun _ => Effect.needs .proceed 0
  | print => exact .pop fun v => Effect.needs (.print v) 0
  | input => exact Effect.needs .await 0
  | halt => exact Effect.needs .halt 0
  | nop => exact Effect.needs .proceed 0
  | jump => exact .pop fun v => Effect.needs (.jump v) 0
  | jumpIfZero =>
    refine .pop fun c => .pop fun v => ?_
    split
    · exact Effect.needs (.jump v) 0
    · exact Effect.needs .proceed 0
  | call => exact .pop fun v => Effect.needs (.call v) 0
  | ret => exact Effect.needs .ret 0
  | pokeChunk => exact .pop fun target => .pop fun v => Effect.needs (.poke target v) 0
  | peekChunk =>
    rw [execute_peekChunk_eq]
    exact .pop fun v => .reads (reads_toAddress v) fun _ => .reads reads_readCell fun chunk =>
      (needs_pushChunk chunk).last
  | getPrime =>
    refine .pop fun value => .reads (reads_toOperand _ value) fun index => ?_
    split
    · exact (needs_push 0 _).last
    · exact .reads (reads_throw rfl) fun _ => Effect.needs .proceed 0
  | getPrimeIndex =>
    refine .pop fun value => .reads (reads_toOperand _ value) fun prime => ?_
    split
    · exact (needs_push 0 _).last
    · exact .reads (reads_throw rfl) fun _ => Effect.needs .proceed 0
  | random =>
    refine .pop fun bound => ?_
    dsimp only
    split
    · exact .reads (reads_throw rfl) fun _ => .reads (reads_drawBelow _) fun _ =>
        (needs_push 0 _).last
    · exact .reads (reads_drawBelow _) fun _ => (needs_push 0 _).last

-- ---------------------------------------------------------------------------
-- Factors
-- ---------------------------------------------------------------------------

section Factors

variable {e e' : Engine σ} {address : Nat} {operand : Option Nat} {fault : Fault}
  {rest : List Word}

/-- Once a number has its factors, a factorization faults only for lack of room. Those factors that
there was room for are left. -/
theorem run_factorize_full {n : Nat} {ps : List (Nat × Nat)} (hFactors : factorize n = .ok ps)
    (hBound : n < Word.bound) (hStack : e.stack = (n : Int) :: rest)
    (h : (execute address .factorize operand).run e = .error fault e') :
    fault = .stackOverflow e.maxStackDepth ∧ ∃ fs, Canonical fs ∧ factorsNumber fs = n ∧
      e'.stack = ((countedWords fs).take (e.maxStackDepth - rest.length)).reverse ++ rest := by
  obtain ⟨fs, hCanonical, hNumber, rfl⟩ := exists_canonical_of_factorize hFactors
  rw [execute_factorize address operand hFactors hCanonical.numbered hBound hStack] at h
  rcases Nat.lt_or_ge e.maxStackDepth (rest.length + (countedWords fs).length) with hFull | hRoom
  · have hPushed := run_pushAll_full (e := { e with stack := rest }) (countedWords fs)
      (List.cons_ne_nil _ _) hFull
    rw [run_bind_error hPushed] at h
    cases h
    exact ⟨rfl, fs, hCanonical, hNumber, rfl⟩
  · have hPushed := run_pushAll_room (e := { e with stack := rest }) (countedWords fs) hRoom
    rw [run_bind_ok hPushed] at h
    cases h

/-- A factorization that faults has taken its word, and may have left some of the factors. -/
theorem run_factorize_error {v : Word} (hStack : e.stack = v :: rest)
    (h : (execute address .factorize operand).run e = .error fault e') :
    fault.ofFetch = false ∧ (e'.stack = rest ∨ ∃ fs, Canonical fs ∧ (factorsNumber fs : Int) = v ∧
      e'.stack = ((countedWords fs).take (e.maxStackDepth - rest.length)).reverse ++ rest) := by
  have hRun := h
  rw [execute, run_bind_ok (run_pop address .factorize hStack)] at hRun
  rcases run_bind_eq_error hRun with hOperand | ⟨n, e₁, hOperand, hRest⟩
  · obtain ⟨rfl, rfl⟩ := toOperand_eq_error hOperand
    exact ⟨rfl, .inl rfl⟩
  · obtain ⟨rfl, hBound, rfl⟩ := toOperand_eq_ok hOperand
    cases hFactors : factorize n with
    | error error =>
      rw [hFactors] at hRest
      cases hRest
      exact ⟨rfl, .inl rfl⟩
    | ok ps =>
      obtain ⟨rfl, fs, hCanonical, rfl, hLeft⟩ := run_factorize_full hFactors hBound hStack h
      exact ⟨rfl, .inr ⟨fs, hCanonical, rfl, hLeft⟩⟩

/-- Below the greatest index the doubling is exact. -/
theorem lt_wordsFor_iff {n count : Nat} (hn : n < indexBound - 1) :
    n < wordsFor count ↔ n < 2 * count := by
  rw [wordsFor, Nat.lt_min, and_iff_left hn]

omit [RandomSource σ] in
/-- Once the factors of a chunk are popped, nothing more is. -/
theorem needs_pushBuilt (fs : List Factor) :
    Needs 0 (match encodeFactors fs with
      | .ok chunk => pushChunk .buildChunk chunk >>= fun _ => pure none
      | .error error => throw (.codec error) >>= fun _ : Unit => pure none :
        Operation σ (Option Word)) := by
  split
  · exact (needs_pushChunk _).last
  · exact .reads (reads_throw rfl) fun _ => Effect.needs .proceed 0

/-- The building of a chunk, once the count is known. -/
theorem run_buildChunk {pairs : Nat} (hPairs : pairs < indexBound)
    (hStack : e.stack = (pairs : Int) :: rest) :
    (execute address .buildChunk operand).run e =
      (requireWords (wordsFor pairs) (.stackUnderflow address .buildChunk) >>=
        fun _ => popFactors address .buildChunk pairs >>= fun factors =>
          match encodeFactors factors with
          | .ok chunk => pushChunk .buildChunk chunk >>= fun _ => pure none
          | .error error => throw (.codec error) >>= fun _ : Unit => pure none).run
        { e with stack := rest } := by
  rw [execute_buildChunk_eq, run_bind_ok (run_pop address .buildChunk hStack)]
  exact run_bind_ok (run_toOperand .buildChunk hPairs)

end Factors

-- ---------------------------------------------------------------------------
-- Instructions that were fetched
-- ---------------------------------------------------------------------------

section Fetched

variable {e e' : Engine σ} {op : Opcode} {operand : Option Nat} {fault : Fault}
  {rest : List Word}

/-- An instruction that was fetched faults for want of words only if it builds a chunk. -/
theorem ofFetch_of_fetch (hFetch : e.fetch = .instruction op operand) (hBuild : op ≠ .buildChunk)
    (h : executeNext.run e = .error fault e') : fault.ofFetch = false := by
  obtain ⟨-, -, -, hPops⟩ := Engine.decode_of_fetch hFetch
  rw [executeNext_of_fetch hFetch] at h
  by_cases hFactorize : op = .factorize
  · subst hFactorize
    obtain ⟨v, rest, hStack⟩ := List.exists_cons_of_length_pos hPops
    exact (run_factorize_error (e := e.after .factorize e.stack) hStack h).1
  · have hNeeds : Needs op.pops (execute e.ip op operand : Operation σ (Option Word)) :=
      needs_execute e.ip operand hBuild hFactorize
    exact (hNeeds (e := e.after op e.stack) hPops h).1

omit [RandomSource σ] in
/-- What is read as a push carries an operand. -/
theorem exists_operand_of_fetch (hFetch : e.fetch = .instruction .push operand) :
    ∃ n, operand = some n := by
  obtain ⟨chunk, -, hDecode, -⟩ := Engine.decode_of_fetch hFetch
  obtain ⟨-, ⟨n, hOperand, -⟩, -⟩ := chunk_dvd_of_decode hDecode
  exact ⟨n, hOperand⟩

theorem executeNext_swap (hFetch : e.fetch = .instruction .swap operand) :
    ∃ x y rest, e.stack = y :: x :: rest ∧
      executeNext.run e = .ok none (e.after .swap (x :: y :: rest)) := by
  obtain ⟨-, -, -, hPops⟩ := Engine.decode_of_fetch hFetch
  obtain ⟨y, x, rest, hStack⟩ : ∃ y x rest, e.stack = y :: x :: rest := by
    match hStack : e.stack with
    | [] | [_] => simp [hStack, Opcode.pops] at hPops
    | y :: x :: rest => exact ⟨y, x, rest, rfl⟩
  refine ⟨x, y, rest, hStack, ?_⟩
  rw [executeNext_of_fetch hFetch]
  exact execute_swap (e := e.after .swap e.stack) e.ip operand hStack

/-- A count of factors that are not all there is refused, however large it is. -/
theorem executeNext_buildChunk_short {pairs : Nat}
    (hFetch : e.fetch = .instruction .buildChunk operand) (hPairs : pairs < indexBound)
    (hHeight : e.stack.length < indexBound) (hStack : e.stack = (pairs : Int) :: rest)
    (hShort : rest.length < 2 * pairs) :
    executeNext.run e = .error (.stackUnderflow e.ip .buildChunk) (e.after .buildChunk rest) := by
  have hCheck : rest.length < wordsFor pairs := by
    rw [hStack, List.length_cons] at hHeight
    exact (lt_wordsFor_iff (by omega)).mpr hShort
  have hRefused : (requireWords (wordsFor pairs) (.stackUnderflow e.ip .buildChunk)).run
      (e.after .buildChunk rest) =
      .error (.stackUnderflow e.ip .buildChunk) (e.after .buildChunk rest) := by
    rw [requireWords_run]
    exact if_pos hCheck
  rw [executeNext_of_fetch hFetch, run_buildChunk (e := e.after .buildChunk e.stack) hPairs hStack]
  exact run_bind_error hRefused

/-- Factors that are all there are popped without fail. -/
theorem executeNext_buildChunk_enough {pairs : Nat}
    (hFetch : e.fetch = .instruction .buildChunk operand) (hPairs : pairs < indexBound)
    (hStack : e.stack = (pairs : Int) :: rest) (hEnough : 2 * pairs ≤ rest.length)
    (h : executeNext.run e = .error fault e') : fault.ofFetch = false := by
  have hCheck : ¬ rest.length < wordsFor pairs :=
    Nat.not_lt.mpr ((wordsFor_le pairs).trans hEnough)
  have hPassed : (requireWords (wordsFor pairs) (.stackUnderflow e.ip .buildChunk)).run
      (e.after .buildChunk rest) = .ok () (e.after .buildChunk rest) := by
    rw [requireWords_run]
    exact if_neg hCheck
  rw [executeNext_of_fetch hFetch, run_buildChunk (e := e.after .buildChunk e.stack) hPairs hStack]
    at h
  have hPopped := (run_bind_ok hPassed).symm.trans h
  refine (Needs.popFactors (n := 0) pairs needs_pushBuilt ?_ hPopped).1
  rw [Nat.zero_add]
  exact hEnough

/-- Every prime of a factorization has its index, so only room can be lacking. -/
theorem executeNext_factorize_full {n : Nat} {ps : List (Nat × Nat)}
    (hFetch : e.fetch = .instruction .factorize operand) (hFactors : factorize n = .ok ps)
    (hBound : n < Word.bound) (hStack : e.stack = (n : Int) :: rest)
    (h : executeNext.run e = .error fault e') : fault = .stackOverflow e.maxStackDepth := by
  rw [executeNext_of_fetch hFetch] at h
  exact (run_factorize_full (e := e.after .factorize e.stack) hFactors hBound hStack h).1

theorem exists_index_of_factorize {n : Nat} {ps : List (Nat × Nat)} (h : factorize n = .ok ps) :
    ∀ p ∈ ps, ∃ i, indexOf p.1 = .ok i := by
  obtain ⟨fs, hCanonical, -, rfl⟩ := exists_canonical_of_factorize h
  intro p hp
  obtain ⟨f, hf, rfl⟩ := List.mem_map.mp hp
  exact ⟨f.index, indexOf_primeOf (hCanonical.numbered f hf)⟩

/-- An address of the program is read. -/
theorem executeNext_peekChunk {a : Nat} (hFetch : e.fetch = .instruction .peekChunk operand)
    (ha : a < e.memory.size) (hStack : e.stack = (a : Int) :: rest) :
    ∃ chunk, e.memory.read? a = some chunk ∧ executeNext.run e =
      (pushChunk .peekChunk chunk >>= fun _ => pure none).run (e.after .peekChunk rest) := by
  obtain ⟨chunk, hCell⟩ : ∃ chunk, e.memory.read? a = some chunk :=
    ⟨_, Array.getElem?_eq_getElem ha⟩
  refine ⟨chunk, hCell, ?_⟩
  have hRead : (readCell a).run (e.after .peekChunk rest) = .ok chunk (e.after .peekChunk rest) := by
    rw [readCell_run, show (e.after .peekChunk rest).memory.read? a = some chunk from hCell]
  rw [executeNext_of_fetch hFetch, execute_peekChunk_eq,
    run_bind_ok (run_pop (e := e.after .peekChunk e.stack) e.ip .peekChunk hStack)]
  exact (run_bind_ok (run_toAddress (e := e.after .peekChunk rest) ha)).trans (run_bind_ok hRead)

/-- An address of the program is written. -/
theorem executeNext_pokeChunk {a chunk : Nat} (hFetch : e.fetch = .instruction .pokeChunk operand)
    (ha : a < e.memory.size) (hChunk : chunk < Word.bound)
    (hStack : e.stack = (a : Int) :: (chunk : Int) :: rest) :
    ∃ memory, e.memory.write? a chunk = some memory ∧ executeNext.run e =
      .ok none ({ e.after .pokeChunk rest with memory }.record (.poke a)) := by
  have hWrite : e.memory.write? a chunk =
      some ⟨e.memory.cells.setIfInBounds a chunk, true⟩ := if_pos ha
  refine ⟨_, hWrite, ?_⟩
  rw [executeNext_of_fetch hFetch,
    execute_pokeChunk (e := e.after .pokeChunk e.stack) e.ip operand hStack ha hChunk,
    show (e.after .pokeChunk e.stack).memory.write? a chunk = _ from hWrite]
  rfl

/-- **What is checked before dispatch is not missed after it.** An instruction that was fetched
finds the words that its opcode pops, and does not fault for want of words unless it builds a chunk.
A push has its operand; an exchange finds both words; the count of a chunk's factors is refused
exactly if there are not as many words, also if twice the count is no index, and otherwise none of
them is missing; the primes of a number that is factorized have their indices, so only room can be
lacking; and an address of the program is read and written without fail. -/
theorem dispatch_complete (hFetch : e.fetch = .instruction op operand) :
    op.pops ≤ e.stack.length ∧
    (op ≠ .buildChunk → ∀ address op' e',
      executeNext.run e ≠ .error (.stackUnderflow address op') e') ∧
    match op with
    | .push => ∃ n, operand = some n
    | .swap => ∃ x y rest, e.stack = y :: x :: rest ∧
        executeNext.run e = .ok none (e.after .swap (x :: y :: rest))
    | .buildChunk => ∀ (pairs : Nat) rest, pairs < indexBound → e.stack.length < indexBound →
        e.stack = (pairs : Int) :: rest →
        if rest.length < 2 * pairs then
          executeNext.run e =
            .error (.stackUnderflow e.ip .buildChunk) (e.after .buildChunk rest)
        else ∀ address op' e', executeNext.run e ≠ .error (.stackUnderflow address op') e'
    | .factorize => ∀ (n : Nat) rest ps, n < Word.bound → e.stack = (n : Int) :: rest →
        factorize n = .ok ps → (∀ p ∈ ps, ∃ i, indexOf p.1 = .ok i) ∧
          ∀ fault e', executeNext.run e = .error fault e' → fault = .stackOverflow e.maxStackDepth
    | .peekChunk => ∀ (a : Nat) rest, a < e.memory.size → e.stack = (a : Int) :: rest →
        ∃ chunk, e.memory.read? a = some chunk ∧ executeNext.run e =
          (pushChunk .peekChunk chunk >>= fun _ => pure none).run (e.after .peekChunk rest)
    | .pokeChunk => ∀ (a chunk : Nat) rest, a < e.memory.size → chunk < Word.bound →
        e.stack = (a : Int) :: (chunk : Int) :: rest →
        ∃ memory, e.memory.write? a chunk = some memory ∧ executeNext.run e =
          .ok none ({ e.after .pokeChunk rest with memory }.record (.poke a))
    | _ => True := by
  obtain ⟨-, -, -, hPops⟩ := Engine.decode_of_fetch hFetch
  refine ⟨hPops, ?_, ?_⟩
  · intro hBuild address op' e' h
    exact Fault.ne_stackUnderflow (ofFetch_of_fetch hFetch hBuild h) address op' rfl
  · cases op with
    | push => exact exists_operand_of_fetch hFetch
    | swap => exact executeNext_swap hFetch
    | buildChunk =>
      intro pairs rest hPairs hHeight hStack
      split
      · rename_i hShort
        exact executeNext_buildChunk_short hFetch hPairs hHeight hStack hShort
      · rename_i hEnough
        intro address op' e' h
        have hFault := executeNext_buildChunk_enough hFetch hPairs hStack (Nat.not_lt.mp hEnough) h
        exact Fault.ne_stackUnderflow hFault address op' rfl
    | factorize =>
      intro n rest ps hBound hStack hFactors
      exact ⟨exists_index_of_factorize hFactors, fun fault e' =>
        executeNext_factorize_full hFetch hFactors hBound hStack⟩
    | peekChunk => exact fun a rest ha hStack => executeNext_peekChunk hFetch ha hStack
    | pokeChunk =>
      exact fun a chunk rest ha hChunk hStack => executeNext_pokeChunk hFetch ha hChunk hStack
    | _ => trivial

end Fetched

/-- Twice the count is no index any more, and the count is refused all the same. -/
theorem dispatch_complete_doubled : ∃ e : Engine (List Nat),
    e.fetch = .instruction .buildChunk none ∧ e.stack = [((2 ^ 63 : Nat) : Int), 5, 7] ∧
      executeNext.run e = .error (.stackUnderflow 0 .buildChunk) (e.after .buildChunk [5, 7]) := by
  have hDecode : decode 83521 = .ok (.instruction .buildChunk none) := by decide +kernel
  have hFetch : (.start [83521] [((2 ^ 63 : Nat) : Int), 5, 7] 4 0 [] : Engine (List Nat)).fetch =
      .instruction .buildChunk none := Engine.fetch_of_decode rfl hDecode (by decide)
  have hRefused := (dispatch_complete hFetch).2.2 (2 ^ 63) [5, 7] (by decide) (by decide) rfl
  rw [if_pos (by decide)] at hRefused
  exact ⟨_, hFetch, rfl, hRefused⟩

end FactorMachine
