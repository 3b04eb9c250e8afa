import FactorMachine.Proofs.Chunk.RoundTrip
import FactorMachine.Proofs.Engine.Parts

/-!
# FactorMachine — what one instruction does

For each opcode that a self-modifying program is made of, the state after it as an equation:
the operands it finds on the stack, the new state, and the fault if there is no room for its
result. Everything that runs a known program symbolically is derived from these equations. What
holds of any program, whatever it is, goes by the parts of an instruction instead.

## Results

* `run_pushAll_room`, `run_pushAll_full` — words that are pushed one after the other.
* `execute_…`               — one equation for each opcode.
* `executeNext_instruction` — a fetched instruction is carried out.
-/

namespace FactorMachine

-- ---------------------------------------------------------------------------
-- Words as numbers
-- ---------------------------------------------------------------------------

theorem Word.ofInt?_eq {v : Int} (hLow : -(2 ^ 127) ≤ v) (hHigh : v < 2 ^ 127) :
    Word.ofInt? v = some v := by
  have hBound : (Word.bound : Int) = 2 ^ 127 := by decide
  unfold Word.ofInt?
  rw [hBound, if_pos ⟨hLow, hHigh⟩]

theorem Word.toNatBelow?_eq {n limit : Nat} (hn : n < limit) :
    Word.toNatBelow? limit (n : Int) = some n := by
  unfold Word.toNatBelow?
  rw [if_pos ⟨Int.natCast_nonneg n, Int.ofNat_lt.mpr hn⟩]
  rfl

/-- A word that is no number below the limit is not taken for one. -/
theorem Word.toNatBelow?_eq_none {w : Int} {limit : Nat}
    (hw : ∀ n : Nat, n < limit → w ≠ n) : Word.toNatBelow? limit w = none := by
  unfold Word.toNatBelow?
  apply if_neg
  rintro ⟨hNonneg, hLt⟩
  have hEq : ((w.toNat : Nat) : Int) = w := Int.toNat_of_nonneg hNonneg
  exact hw w.toNat (Int.ofNat_lt.mp (hEq ▸ hLt)) hEq.symm

theorem Record.WellFormed.chunk_lt_bound {r : Record} (h : r.WellFormed) : r.chunk < Word.bound :=
  Nat.lt_trans h.chunk_lt (by decide)

-- ---------------------------------------------------------------------------
-- Parts of instructions
-- ---------------------------------------------------------------------------

namespace Operation

variable {σ : Type}

theorem run_push_room {e : Engine σ} (w : Word) (hRoom : e.stack.length < e.maxStackDepth) :
    (push w).run e = .ok () { e with stack := w :: e.stack } := by
  rw [push_run, if_neg (Nat.not_le.mpr hRoom)]

theorem run_push_full {e : Engine σ} (w : Word) (hFull : e.maxStackDepth ≤ e.stack.length) :
    (push w).run e = .error (.stackOverflow e.maxStackDepth) e := by
  rw [push_run, if_pos hFull]

theorem run_pop {e : Engine σ} {w : Word} {rest : List Word} (address : Nat) (op : Opcode)
    (hStack : e.stack = w :: rest) :
    (pop address op).run e = .ok w { e with stack := rest } := by
  rw [pop_run, hStack]

theorem run_popPair {e : Engine σ} {x y : Word} {rest : List Word} (address : Nat)
    (op : Opcode) (hStack : e.stack = y :: x :: rest) :
    (popPair address op).run e = .ok (x, y) { e with stack := rest } := by
  rw [popPair, run_bind_ok (run_pop address op hStack), run_bind_ok (run_pop address op rfl)]
  rfl

theorem run_toAddress {e : Engine σ} {a : Nat} (ha : a < e.memory.size) :
    (toAddress (a : Int)).run e = .ok a e := by
  rw [toAddress_run, Word.toNatBelow?_eq ha]

theorem run_toOperand {e : Engine σ} {n limit : Nat} (op : Opcode) (hn : n < limit) :
    (toOperand op limit (n : Int)).run e = .ok n e := by
  rw [toOperand, Word.toNatBelow?_eq hn]
  rfl

theorem run_toOperand_invalid {e : Engine σ} {w : Int} {limit : Nat} (op : Opcode)
    (hw : ∀ n : Nat, n < limit → w ≠ n) :
    (toOperand op limit w).run e = .error (.invalidOperand op w) e := by
  rw [toOperand, Word.toNatBelow?_eq_none hw]
  rfl

theorem pushResult_eq (op : Opcode) {v : Int} (hLow : -(2 ^ 127) ≤ v) (hHigh : v < 2 ^ 127) :
    (pushResult op v : Operation σ Unit) = push v := by
  rw [pushResult, Word.ofInt?_eq hLow hHigh]

theorem pushChunk_eq (op : Opcode) {c : Chunk} (h : c < Word.bound) :
    (pushChunk op c : Operation σ Unit) = push (c : Int) := by
  rw [pushChunk, if_pos h]

/-- Pushes a result, as the last thing that an instruction does. -/
def pushLast (w : Word) : Operation σ (Option Word) := do
  push w
  return none

theorem run_pushLast_room {e : Engine σ} (w : Word)
    (hRoom : e.stack.length < e.maxStackDepth) :
    (pushLast w).run e = .ok none { e with stack := w :: e.stack } := by
  rw [pushLast, run_bind_ok (run_push_room w hRoom)]
  rfl

theorem run_pushLast_full {e : Engine σ} (w : Word)
    (hFull : e.maxStackDepth ≤ e.stack.length) :
    (pushLast w).run e = .error (.stackOverflow e.maxStackDepth) e := by
  rw [pushLast, run_bind_error (run_push_full w hFull)]

theorem wordsFor_le (count : Nat) : wordsFor count ≤ 2 * count := Nat.min_le_left _ _

/-- The words that factors are popped from, first factor on top. -/
def factorWords (fs : List Factor) : List Word := fs.flatMap fun f => [(f.index : Int), f.exponent]

theorem length_factorWords (fs : List Factor) : (factorWords fs).length = 2 * fs.length := by
  induction fs with
  | nil => rfl
  | cons f fs ih =>
    show (factorWords fs).length + 1 + 1 = _
    rw [ih, List.length_cons]
    omega

theorem run_popFactors {fs : List Factor} {e : Engine σ} {rest : List Word} (address : Nat)
    (op : Opcode) (hIndex : ∀ f ∈ fs, f.index < indexBound)
    (hExponent : ∀ f ∈ fs, f.exponent < exponentBound)
    (hStack : e.stack = factorWords fs ++ rest) :
    (popFactors address op fs.length).run e = .ok fs { e with stack := rest } := by
  induction fs generalizing e with
  | nil =>
    obtain rfl : e.stack = rest := hStack
    rfl
  | cons f fs ih =>
    have hFirst : e.stack = (f.index : Int) :: (f.exponent : Int) :: (factorWords fs ++ rest) :=
      hStack
    have hRest := ih (e := { e with stack := factorWords fs ++ rest })
      (fun g hg => hIndex g (by simp [hg])) (fun g hg => hExponent g (by simp [hg])) rfl
    rw [List.length_cons, popFactors, run_bind_ok (run_pop address op hFirst),
      run_bind_ok (run_pop address op rfl), run_bind_ok (run_toOperand op (hIndex f (by simp))),
      run_bind_ok (run_toOperand op (hExponent f (by simp))), run_bind_ok hRest]
    rfl

/-- The words that go with a list of factors, in the order in which a factorization pushes them:
the number of factors, and then the index and the exponent of each. -/
def countedWords (fs : List Factor) : List Word := (fs.length : Int) :: factorWords fs

theorem length_countedWords (fs : List Factor) : (countedWords fs).length = 2 * fs.length + 1 :=
  congrArg (· + 1) (length_factorWords fs)

/-- Words that are pushed one after the other lie on the stack in the reverse order. -/
theorem run_pushAll_room (ws : List Word) {e : Engine σ}
    (hRoom : e.stack.length + ws.length ≤ e.maxStackDepth) :
    (forM ws push).run e = .ok () { e with stack := ws.reverse ++ e.stack } := by
  induction ws generalizing e with
  | nil => rfl
  | cons w ws ih =>
    have hLength : e.stack.length + (ws.length + 1) ≤ e.maxStackDepth := hRoom
    have hFirst := run_push_room (e := e) w (by omega)
    have hLeft : (w :: e.stack).length + ws.length ≤ e.maxStackDepth := by
      rw [List.length_cons]
      omega
    rw [List.forM_cons, run_bind_ok hFirst, ih hLeft, List.reverse_cons, List.append_assoc]
    rfl

/-- Where there is no room for all of them, those that there is room for are pushed. -/
theorem run_pushAll_full (ws : List Word) {e : Engine σ} (hSome : ws ≠ [])
    (hFull : e.maxStackDepth < e.stack.length + ws.length) :
    (forM ws push).run e = .error (.stackOverflow e.maxStackDepth)
      { e with stack := (ws.take (e.maxStackDepth - e.stack.length)).reverse ++ e.stack } := by
  induction ws generalizing e with
  | nil => exact absurd rfl hSome
  | cons w ws ih =>
    have hLength : e.maxStackDepth < e.stack.length + (ws.length + 1) := hFull
    rw [List.forM_cons]
    rcases Nat.lt_or_ge e.stack.length e.maxStackDepth with hRoom | hNone
    · have hMore : ws ≠ [] := List.ne_nil_of_length_pos (by omega)
      have hLeft : e.maxStackDepth < (w :: e.stack).length + ws.length := by
        rw [List.length_cons]
        omega
      have hTaken : e.maxStackDepth - e.stack.length =
          e.maxStackDepth - (w :: e.stack).length + 1 := by
        rw [List.length_cons]
        omega
      rw [run_bind_ok (run_push_room w hRoom), ih hMore hLeft, hTaken, List.take_succ_cons,
        List.reverse_cons, List.append_assoc]
      rfl
    · rw [run_bind_error (run_push_full w hNone), Nat.sub_eq_zero_of_le hNone]
      rfl

/-- Every prime of a factorization has its index. -/
theorem pushFactors_primePower {fs : List Factor} (hNumbered : ∀ f ∈ fs, f.index < primeCount) :
    (pushFactors (fs.map Factor.primePower) : Operation σ Unit) = forM (factorWords fs) push := by
  induction fs with
  | nil => rfl
  | cons f fs ih =>
    have hIndex := indexOf_primeOf (hNumbered f (by simp))
    have hRest := ih fun g hg => hNumbered g (by simp [hg])
    rw [List.map_cons, Factor.primePower, pushFactors, hIndex, hRest]
    rfl

end Operation

-- ---------------------------------------------------------------------------
-- Opcodes
-- ---------------------------------------------------------------------------

section Opcodes

open Operation

variable {σ : Type} [RandomSource σ] {e : Engine σ} {rest : List Word} (address : Nat)

theorem execute_push (n : Nat) :
    (execute address .push (some n)).run e = (pushLast (n : Int)).run e := rfl

theorem execute_add {x y : Int} (operand : Option Nat) (hStack : e.stack = y :: x :: rest)
    (hLow : -(2 ^ 127) ≤ x + y) (hHigh : x + y < 2 ^ 127) :
    (execute address .add operand).run e = (pushLast (x + y)).run { e with stack := rest } := by
  rw [execute, run_bind_ok (run_popPair address .add hStack)]
  dsimp only
  rw [pushResult_eq .add hLow hHigh]
  rfl

/-- A remainder by a positive divisor. -/
theorem execute_mod {x y : Int} (operand : Option Nat) (hStack : e.stack = y :: x :: rest)
    (hPos : 0 < y) :
    (execute address .mod operand).run e = (pushLast (x % y)).run { e with stack := rest } := by
  have hZero : ¬ y = 0 := by omega
  -- the one quotient that is no word has a negative divisor
  have hExtreme : ¬ (x = -(Word.bound : Int) ∧ y = -1) := fun h => by omega
  rw [execute, run_bind_ok (run_popPair address .mod hStack)]
  dsimp only
  rw [if_neg hZero, if_neg hExtreme]
  rfl

theorem execute_compareEq {x y : Int} (operand : Option Nat)
    (hStack : e.stack = y :: x :: rest) :
    (execute address .compareEq operand).run e =
      (pushLast (if x = y then 1 else 0)).run { e with stack := rest } := by
  rw [execute, run_bind_ok (run_popPair address .compareEq hStack)]
  rfl

theorem execute_dup {w : Int} (operand : Option Nat) (hStack : e.stack = w :: rest) :
    (execute address .dup operand).run e = (pushLast w).run e := by
  rw [execute, run_bind_ok (EStateM.run_get e), hStack]
  rfl

theorem execute_swap {x y : Int} (operand : Option Nat) (hStack : e.stack = y :: x :: rest) :
    (execute address .swap operand).run e = .ok none { e with stack := x :: y :: rest } := by
  rw [execute, run_bind_ok (run_popPair address .swap hStack)]
  rfl

theorem execute_drop {w : Int} (operand : Option Nat) (hStack : e.stack = w :: rest) :
    (execute address .drop operand).run e = .ok none { e with stack := rest } := by
  have hPop : (discard (pop address .drop)).run e = .ok () { e with stack := rest } := by
    show (pop address .drop >>= fun _ => pure ()).run e = _
    rw [run_bind_ok (run_pop address .drop hStack)]
    rfl
  rw [execute, run_bind_ok hPop]
  rfl

theorem execute_print {w : Int} (operand : Option Nat) (hStack : e.stack = w :: rest) :
    (execute address .print operand).run e =
      .ok (some w) ({ e with stack := rest, printed := w :: e.printed }.record (.output w)) := by
  rw [execute, run_bind_ok (run_pop address .print hStack)]
  rfl

theorem execute_input (operand : Option Nat) :
    (execute address .input operand).run e =
      .ok none ({ e with phase := .awaitingInput }.record .inputRequested) := rfl

theorem execute_nop (operand : Option Nat) :
    (execute address .nop operand).run e = .ok none e := rfl

theorem execute_jump {a : Nat} (operand : Option Nat) (hStack : e.stack = (a : Int) :: rest)
    (ha : a < e.memory.size) :
    (execute address .jump operand).run e = .ok none { e with stack := rest, ip := a } := by
  rw [execute, run_bind_ok (run_pop address .jump hStack),
    run_bind_ok (run_toAddress (e := { e with stack := rest }) ha)]
  rfl

theorem execute_jumpIfZero_zero {a : Nat} (operand : Option Nat)
    (hStack : e.stack = 0 :: (a : Int) :: rest) (ha : a < e.memory.size) :
    (execute address .jumpIfZero operand).run e =
      .ok none { e with stack := rest, ip := a } := by
  rw [execute, run_bind_ok (run_pop address .jumpIfZero hStack),
    run_bind_ok (run_pop address .jumpIfZero rfl), if_pos rfl,
    run_bind_ok (run_toAddress (e := { e with stack := rest }) ha)]
  rfl

theorem execute_jumpIfZero_nonzero {w a : Int} (operand : Option Nat)
    (hStack : e.stack = w :: a :: rest) (hw : w ≠ 0) :
    (execute address .jumpIfZero operand).run e = .ok none { e with stack := rest } := by
  rw [execute, run_bind_ok (run_pop address .jumpIfZero hStack),
    run_bind_ok (run_pop address .jumpIfZero rfl), if_neg hw]
  rfl

theorem execute_call_room {a : Nat} (operand : Option Nat) (hStack : e.stack = (a : Int) :: rest)
    (ha : a < e.memory.size) (hRoom : e.callStack.length < e.maxStackDepth) :
    (execute address .call operand).run e =
      .ok none { e with stack := rest, callStack := e.ip :: e.callStack, ip := a } := by
  rw [execute, run_bind_ok (run_pop address .call hStack),
    run_bind_ok (run_toAddress (e := { e with stack := rest }) ha),
    run_bind_ok (EStateM.run_get _)]
  dsimp only
  rw [if_neg (Nat.not_le.mpr hRoom)]
  rfl

theorem execute_call_full {a : Nat} (operand : Option Nat) (hStack : e.stack = (a : Int) :: rest)
    (ha : a < e.memory.size) (hFull : e.maxStackDepth ≤ e.callStack.length) :
    (execute address .call operand).run e =
      .error (.stackOverflow e.maxStackDepth) { e with stack := rest } := by
  rw [execute, run_bind_ok (run_pop address .call hStack),
    run_bind_ok (run_toAddress (e := { e with stack := rest }) ha),
    run_bind_ok (EStateM.run_get _)]
  dsimp only
  rw [if_pos hFull]
  rfl

theorem execute_ret {target : Nat} {calls : List Nat} (operand : Option Nat)
    (hCalls : e.callStack = target :: calls) :
    (execute address .ret operand).run e =
      .ok none { e with callStack := calls, ip := target } := by
  rw [execute, run_bind_ok (EStateM.run_get e), hCalls]
  rfl

theorem execute_pokeChunk {a chunk : Nat} (operand : Option Nat)
    (hStack : e.stack = (a : Int) :: (chunk : Int) :: rest) (ha : a < e.memory.size)
    (hChunk : chunk < Word.bound) :
    (execute address .pokeChunk operand).run e =
      .ok none ({ e with stack := rest,
                         memory := (e.memory.write? a chunk).getD e.memory }.record (.poke a)) := by
  rw [execute, run_bind_ok (run_pop address .pokeChunk hStack),
    run_bind_ok (run_pop address .pokeChunk rfl),
    run_bind_ok (run_toAddress (e := { e with stack := rest }) ha),
    run_bind_ok (run_toOperand .pokeChunk hChunk)]
  rfl

/-- A chunk is read onto the stack if it is a word. -/
theorem execute_peekChunk_word {a : Nat} {c : Chunk} (operand : Option Nat)
    (hStack : e.stack = (a : Int) :: rest) (hCell : e.memory.read? a = some c)
    (hBound : c < Word.bound) :
    (execute address .peekChunk operand).run e =
      (pushLast (c : Int)).run { e with stack := rest } := by
  have ha : a < e.memory.size := (Array.getElem?_eq_some_iff.mp hCell).1
  rw [execute, run_bind_ok (run_pop address .peekChunk hStack),
    run_bind_ok (run_toAddress (e := { e with stack := rest }) ha),
    run_bind_ok (EStateM.run_get _), hCell]
  dsimp only
  rw [pushChunk_eq .peekChunk hBound]
  rfl

/-- The chunk of a well-formed record is one. -/
theorem execute_peekChunk {a : Nat} {r : Record} (operand : Option Nat)
    (hStack : e.stack = (a : Int) :: rest) (hCell : e.memory.read? a = some r.chunk)
    (hRecord : r.WellFormed) :
    (execute address .peekChunk operand).run e =
      (pushLast (r.chunk : Int)).run { e with stack := rest } :=
  execute_peekChunk_word address operand hStack hCell hRecord.chunk_lt_bound

/-- A chunk is built from factors that can be written. -/
theorem execute_buildChunk_factors {c : Chunk} {fs : List Factor} (operand : Option Nat)
    (hWritten : encodeFactors fs = .ok c) (hBound : c < Word.bound)
    (hIndex : ∀ f ∈ fs, f.index < indexBound) (hExponent : ∀ f ∈ fs, f.exponent < exponentBound)
    (hLength : fs.length < indexBound) (hStack : e.stack = countedWords fs ++ rest) :
    (execute address .buildChunk operand).run e =
      (pushLast (c : Int)).run { e with stack := rest } := by
  have hFirst : e.stack = (fs.length : Int) :: (factorWords fs ++ rest) := hStack
  have hEnough : ¬ (factorWords fs ++ rest).length < wordsFor fs.length := by
    have hWords := wordsFor_le fs.length
    rw [List.length_append, length_factorWords]
    omega
  rw [execute, run_bind_ok (run_pop address .buildChunk hFirst),
    run_bind_ok (run_toOperand .buildChunk hLength), run_bind_ok (EStateM.run_get _)]
  dsimp only
  rw [if_neg hEnough, run_bind_ok (run_popFactors address .buildChunk hIndex hExponent rfl),
    hWritten]
  dsimp only
  rw [pushChunk_eq .buildChunk hBound]
  rfl

/-- So one is built from the payload of a well-formed record. -/
theorem execute_buildChunk {r : Record} {fs : List Factor} (operand : Option Nat)
    (hPayload : r.Payload fs) (hRecord : r.WellFormed)
    (hExponent : ∀ f ∈ fs, f.exponent < exponentBound) (hLength : fs.length < indexBound)
    (hStack : e.stack = (fs.length : Int) :: (factorWords fs ++ rest)) :
    (execute address .buildChunk operand).run e =
      (pushLast (r.chunk : Int)).run { e with stack := rest } := by
  have hIndex : ∀ f ∈ fs, f.index < indexBound := fun f hf =>
    Nat.lt_trans (hPayload.numbered f hf) (by decide)
  have hChunk : encodeFactors fs = .ok r.chunk := by
    have hEncode := hRecord.encode_chunk
    rwa [encode, hPayload.factors] at hEncode
  exact execute_buildChunk_factors address operand hChunk hRecord.chunk_lt_bound hIndex hExponent
    hLength hStack

/-- A datum that is not numbered has no chunk; the fault leaves memory and depth as they
are. -/
theorem execute_buildChunk_data_fault {w : Int} (operand : Option Nat)
    (hStack : e.stack = 1 :: w :: (dataExponent : Int) :: rest)
    (hw : ∀ n : Nat, n < primeCount → w ≠ n) :
    ∃ fault e', (execute address .buildChunk operand).run e = .error fault e' ∧
      e'.memory = e.memory ∧ e'.maxStackDepth = e.maxStackDepth := by
  have hEnough : ¬ (w :: (dataExponent : Int) :: rest).length < wordsFor 1 := by
    have hWords := wordsFor_le 1
    rw [List.length_cons, List.length_cons]
    omega
  have hOne : (toOperand .buildChunk indexBound (1 : Int)).run
      { e with stack := w :: (dataExponent : Int) :: rest } = .ok 1 _ :=
    run_toOperand .buildChunk (n := 1) (by decide)
  rw [execute, run_bind_ok (run_pop address .buildChunk hStack), run_bind_ok hOne,
    run_bind_ok (EStateM.run_get _)]
  dsimp only
  rw [if_neg hEnough]
  -- an index without a prime is read and then refused, any other word is not even read
  by_cases hIndex : ∃ n : Nat, n < indexBound ∧ w = n
  · obtain ⟨n, hn, rfl⟩ := hIndex
    have hLarge : primeCount ≤ n := Nat.le_of_not_lt fun hLt => hw n hLt rfl
    obtain ⟨error, hError⟩ := @encodeFactors_error_of_index [⟨n, dataExponent⟩] n dataExponent
      (by simp) (by decide) hLarge
    have hFactors : (popFactors address .buildChunk 1).run
        { e with stack := (n : Int) :: (dataExponent : Int) :: rest } =
        .ok [⟨n, dataExponent⟩] { e with stack := rest } :=
      @run_popFactors _ [⟨n, dataExponent⟩]
        { e with stack := (n : Int) :: (dataExponent : Int) :: rest } rest address .buildChunk
        (by simpa using hn) (by simp [dataExponent, exponentBound]) rfl
    rw [run_bind_ok hFactors, hError]
    exact ⟨_, _, rfl, rfl, rfl⟩
  · have hInvalid : ∀ n : Nat, n < indexBound → w ≠ n := fun n hn hEq => hIndex ⟨n, hn, hEq⟩
    have hFactors : (popFactors address .buildChunk 1).run
        { e with stack := w :: (dataExponent : Int) :: rest } =
        .error (.invalidOperand .buildChunk w) { e with stack := rest } := by
      rw [popFactors, run_bind_ok (run_pop address .buildChunk rfl),
        run_bind_ok (run_pop address .buildChunk rfl),
        run_bind_error (run_toOperand_invalid .buildChunk hInvalid)]
    rw [run_bind_error hFactors]
    exact ⟨_, _, rfl, rfl, rfl⟩

/-- The factors of a number are pushed in ascending order after their count. -/
theorem execute_factorize {n : Nat} {fs : List Factor} (operand : Option Nat)
    (hFactors : factorize n = .ok (fs.map Factor.primePower))
    (hNumbered : ∀ f ∈ fs, f.index < primeCount) (hBound : n < Word.bound)
    (hStack : e.stack = (n : Int) :: rest) :
    (execute address .factorize operand).run e =
      (forM (countedWords fs) push >>= fun _ => pure none).run { e with stack := rest } := by
  rw [execute, run_bind_ok (run_pop address .factorize hStack),
    run_bind_ok (run_toOperand .factorize hBound), hFactors]
  dsimp only
  rw [List.length_map, pushFactors_primePower hNumbered, countedWords, List.forM_cons, bind_assoc]

section Datum

variable {v : Nat} (operand : Option Nat) (hv : v < primeCount)
  (hStack : e.stack = ((Record.data v).chunk : Int) :: rest)
include hv hStack

theorem execute_factorize_data_words : (execute address .factorize operand).run e =
    (forM [1, (v : Int), (dataExponent : Int)] push >>= fun _ => pure none).run
      { e with stack := rest } := by
  have hRecord : (Record.data v).WellFormed := hv
  have hNumbered : ∀ f ∈ [(⟨v, dataExponent⟩ : Factor)], f.index < primeCount := by
    simpa using hv
  exact execute_factorize address operand (factorize_chunk_data hv) hNumbered
    hRecord.chunk_lt_bound hStack

/-- The factorization of a datum's chunk: the exponent on top of the index on top of the
count. -/
theorem execute_factorize_data (hRoom : rest.length + 2 < e.maxStackDepth) :
    (execute address .factorize operand).run e =
      .ok none { e with stack := (dataExponent : Int) :: (v : Int) :: 1 :: rest } := by
  have hPushed := run_pushAll_room (e := { e with stack := rest })
    [1, (v : Int), (dataExponent : Int)] hRoom
  rw [execute_factorize_data_words address operand hv hStack, run_bind_ok hPushed]
  rfl

/-- The factorization needs room for three words, and goes as far as there is room. -/
theorem execute_factorize_data_fault (hFull : e.maxStackDepth ≤ rest.length + 2) :
    ∃ fault e', (execute address .factorize operand).run e = .error fault e' ∧
      e'.memory = e.memory ∧ e'.maxStackDepth = e.maxStackDepth ∧
        e.maxStackDepth ≤ e'.stack.length := by
  have hOver := run_pushAll_full (e := { e with stack := rest })
    [1, (v : Int), (dataExponent : Int)] (List.cons_ne_nil _ _) (Nat.lt_succ_of_le hFull)
  rw [execute_factorize_data_words address operand hv hStack, run_bind_error hOver]
  refine ⟨_, _, rfl, rfl, rfl, ?_⟩
  dsimp only
  rw [List.length_append, List.length_reverse, List.length_take]
  show e.maxStackDepth ≤ min (e.maxStackDepth - rest.length) 3 + rest.length
  omega

end Datum

theorem execute_random {b : Nat} (operand : Option Nat) (hPos : 0 < b)
    (hStack : e.stack = (b : Int) :: rest) :
    (execute address .random operand).run e =
      (pushLast ((RandomSource.draw 128 b e.random).1 : Int)).run
        { e with stack := rest, random := (RandomSource.draw 128 b e.random).2 } := by
  have hPositive : ¬ (b : Int) ≤ 0 := by omega
  rw [execute, run_bind_ok (run_pop address .random hStack)]
  dsimp only
  rw [if_neg hPositive]
  rfl

-- ---------------------------------------------------------------------------
-- Fetching
-- ---------------------------------------------------------------------------

/-- An instruction that finds its operands is carried out from the address after it. -/
theorem executeNext_instruction {chunk : Chunk} {op : Opcode} {operand : Option Nat}
    (hCell : e.memory.read? e.ip = some chunk)
    (hDecode : decode chunk = .ok (.instruction op operand)) (hPops : op.pops ≤ e.stack.length) :
    executeNext.run e =
      (execute e.ip op operand).run { e.record (.executed e.ip op) with ip := e.ip + 1 } := by
  rw [executeNext_eq, Engine.fetch_of_decode hCell hDecode hPops]

end Opcodes

end FactorMachine
