import FactorMachine.Proofs.Engine.Stretch
import FactorMachine.Seeker.Program

/-!
# FactorMachine — reading and writing cells at run time

A goal-seeker reads a data cell by factorizing its chunk, and writes a cell by building a chunk
from factors on the stack. Each of the fragments that do so has one rule here: how it changes
the top of the stack and the memory, how much room it takes, and under which condition it goes
through. What the program as a whole does is put together from these rules.

## Results

* `from_storeCell`, `from_loadCell` — a data cell is written and read.
* `from_buildPush`, `from_buildOpcode` — the chunks that slots are rewritten to.
* `from_pokeMain`                   — address zero is made to push another attempt.
-/

namespace FactorMachine.Terms

open Operation Statement Seeker

variable {σ : Type} [RandomSource σ] {t : Terms σ} {memory memory' : Picture} {stack : List Word}
  {calls : List Nat} {printed : List Word} {random : σ} {address : Nat} {rest : List Statement}

-- ---------------------------------------------------------------------------
-- Instructions on chunks
-- ---------------------------------------------------------------------------

/-- A record's chunk is written to an address. -/
theorem from_pokeChunk {a : Nat} {r : Record} (hCode : t.Placed address (.op .pokeChunk :: rest))
    (hRecord : r.WellFormed) (hSome : t.allows memory → (memory a).isSome)
    (hUpdate : Function.update memory a (some r) = memory')
    (hAllows : t.allows memory → t.allows memory')
    (next : t.Placed (address + 1) rest →
      t.From (address + 1) ⟨memory', stack, calls, printed, random⟩) :
    t.From address ⟨memory, (a : Int) :: (r.chunk : Int) :: stack, calls, printed, random⟩ := by
  refine from_of_ok _ (fun h => t.text_of_allows h hCode.1) (Nat.le_add_left 2 stack.length)
    (fun e hShows => ?_) (next hCode.2) fun hFits => hFits.mono (Nat.le_add_right _ 2)
  have ha := hSome hShows.allowed
  have hSize : a < e.memory.size := hShows.cells.lt_size ha
  have hRun := execute_pokeChunk address none hShows.stack hSize hRecord.chunk_lt_bound
  rw [Memory.write?, if_pos hSize] at hRun
  refine ⟨_, _, hRun, rfl, { hShows with stack := rfl, cells := ?_, allowed := ?_ }⟩
  · rw [← hUpdate]
    exact hShows.cells.write r ha
  · exact hAllows hShows.allowed

theorem from_peekChunk {a : Nat} {r : Record} (hCode : t.Placed address (.op .peekChunk :: rest))
    (hCell : memory a = some r) (hRecord : r.WellFormed) (hRoom : t.Room stack.length)
    (next : t.Placed (address + 1) rest →
      t.From (address + 1) ⟨memory, (r.chunk : Int) :: stack, calls, printed, random⟩) :
    t.From address ⟨memory, (a : Int) :: stack, calls, printed, random⟩ := by
  refine from_of_pushLast ⟨memory, stack, calls, printed, random⟩
    (fun h => t.text_of_allows h hCode.1) (Nat.le_add_left 1 stack.length)
    (fun e hShows => ?_) hRoom (next hCode.2)
  refine ⟨_, execute_peekChunk address none hShows.stack (hShows.cells.read hCell) hRecord, rfl, ?_⟩
  exact { hShows with stack := rfl }

/-- A chunk is built from the payload of a record. -/
theorem from_buildChunk {r : Record} {fs : List Factor}
    (hCode : t.Placed address (.op .buildChunk :: rest)) (hPayload : r.Payload fs)
    (hRecord : r.WellFormed) (hExponent : ∀ f ∈ fs, f.exponent < exponentBound)
    (hLength : fs.length < indexBound) (hRoom : t.Room stack.length)
    (next : t.Placed (address + 1) rest →
      t.From (address + 1) ⟨memory, (r.chunk : Int) :: stack, calls, printed, random⟩) :
    t.From address
      ⟨memory, (fs.length : Int) :: (factorWords fs ++ stack), calls, printed, random⟩ := by
  refine from_of_pushLast ⟨memory, stack, calls, printed, random⟩
    (fun h => t.text_of_allows h hCode.1) (Nat.le_add_left 1 _)
    (fun e hShows => ?_) hRoom (next hCode.2)
  refine ⟨_, execute_buildChunk address none hPayload hRecord hExponent hLength hShows.stack, rfl,
    ?_⟩
  exact { hShows with stack := rfl }

/-- The chunk of a datum is built from any word that is a numbered index. With any other word
the stretch ends. -/
theorem from_buildChunk_data {w : Int} (hCode : t.Placed address (.op .buildChunk :: rest))
    (hNumbered : t.MayFail ∨ ∃ v : Nat, v < primeCount ∧ w = v) (hRoom : t.Room stack.length)
    (next : t.Placed (address + 1) rest → ∀ v : Nat, v < primeCount → w = v →
      t.From (address + 1) ⟨memory, ((Record.data v).chunk : Int) :: stack, calls, printed,
        random⟩) :
    t.From address ⟨memory, 1 :: w :: (dataExponent : Int) :: stack, calls, printed, random⟩ := by
  by_cases hIndex : ∃ v : Nat, v < primeCount ∧ w = v
  · obtain ⟨v, hv, rfl⟩ := hIndex
    exact from_buildChunk hCode (payload_data hv) hv (by simp [dataExponent, exponentBound])
      (show 1 < indexBound by decide) hRoom fun hCode => next hCode v hv rfl
  · obtain ⟨hMay, hAny⟩ := hNumbered.resolve_right hIndex
    refine from_of_error (fun h => t.text_of_allows h hCode.1) (Nat.le_add_left 1 _) hMay
      fun e hShows => ?_
    obtain ⟨fault, e', hRun, hMemory, hDepth⟩ :=
      execute_buildChunk_data_fault address none hShows.stack fun n hn hEq => hIndex ⟨n, hn, hEq⟩
    exact ⟨fault, e', hRun, ⟨⟨hDepth.trans hShows.depth, .inl hMay⟩, memory, hShows.allowed,
      hMemory ▸ hShows.cells⟩, .inr hAny⟩

theorem from_factorize_data {v : Nat} (hCode : t.Placed address (.op .factorize :: rest))
    (hv : v < primeCount) (hRoom : t.Room (stack.length + 2))
    (next : t.Placed (address + 1) rest → t.From (address + 1)
      ⟨memory, (dataExponent : Int) :: (v : Int) :: 1 :: stack, calls, printed, random⟩) :
    t.From address ⟨memory, ((Record.data v).chunk : Int) :: stack, calls, printed, random⟩ := by
  rcases Nat.lt_or_ge (stack.length + 2) t.limit with hLt | hFull
  · refine from_of_ok _ (fun h => t.text_of_allows h hCode.1) (Nat.le_add_left 1 _)
      (fun e hShows => ?_) (next hCode.2) fun _ => hRoom
    have hRoom' : stack.length + 2 < e.maxStackDepth := by
      rw [hShows.depth]
      exact hLt
    exact ⟨_, _, execute_factorize_data address none hv hShows.stack hRoom', rfl,
      { hShows with stack := rfl }⟩
  · have hMay : t.mayFault := hRoom.mayFault hFull
    refine from_of_error (fun h => t.text_of_allows h hCode.1) (Nat.le_add_left 1 _) hMay
      fun e hShows => ?_
    have hFull' : e.maxStackDepth ≤ stack.length + 2 := by
      rw [hShows.depth]
      exact hFull
    obtain ⟨fault, e', hRun, hMemory, hDepth, hFilled⟩ :=
      execute_factorize_data_fault address none hv hShows.stack hFull'
    exact ⟨fault, e', hRun, ⟨⟨hDepth.trans hShows.depth, .inl hMay⟩, memory, hShows.allowed,
      hMemory ▸ hShows.cells⟩, .inl (hShows.depth ▸ hFilled)⟩

-- ---------------------------------------------------------------------------
-- Data cells
-- ---------------------------------------------------------------------------

/-- The top of the stack goes into a data cell, if it is a numbered index. -/
theorem from_storeCell {cell : String} {w : Int} (store : Nat → Picture)
    (hCode : t.Placed address (storeCell cell ++ rest))
    (hNumbered : t.MayFail ∨ ∃ v : Nat, v < primeCount ∧ w = v)
    (hSome : t.allows memory → (memory (t.linking.label cell)).isSome)
    (hUpdate : ∀ v, Function.update memory (t.linking.label cell) (some (.data v)) = store v)
    (hAllows : ∀ v, v < primeCount → t.allows memory → t.allows (store v))
    (hRoom : t.Room (stack.length + 2))
    (next : t.Placed (address + 6) rest → ∀ v : Nat, v < primeCount → w = v →
      t.From (address + 6) ⟨store v, stack, calls, printed, random⟩) :
    t.From address ⟨memory, w :: stack, calls, printed, random⟩ := by
  refine from_push hCode (hRoom.mono (by simp)) fun hCode => ?_
  refine from_swap hCode fun hCode => ?_
  refine from_push hCode hRoom fun hCode => ?_
  refine from_buildChunk_data hCode hNumbered (hRoom.mono (by simp)) fun hCode v hv hw => ?_
  refine from_pushLabel hCode (hRoom.mono (by simp)) fun hCode => ?_
  exact from_pokeChunk hCode hv hSome (hUpdate v) (hAllows v hv) fun hCode => next hCode v hv hw

/-- A data cell's value goes onto the stack. -/
theorem from_loadCell {cell : String} {v : Nat}
    (hCode : t.Placed address (loadCell cell ++ rest))
    (hCell : memory (t.linking.label cell) = some (.data v)) (hv : v < primeCount)
    (hRoom : t.Room (stack.length + 2))
    (next : t.Placed (address + 6) rest →
      t.From (address + 6) ⟨memory, (v : Int) :: stack, calls, printed, random⟩) :
    t.From address ⟨memory, stack, calls, printed, random⟩ := by
  refine from_pushLabel hCode (hRoom.mono (by simp)) fun hCode => ?_
  refine from_peekChunk hCode hCell hv (hRoom.mono (by simp)) fun hCode => ?_
  refine from_factorize_data hCode hv hRoom fun hCode => ?_
  refine from_drop hCode fun hCode => ?_
  refine from_swap hCode fun hCode => ?_
  exact from_drop hCode next

-- ---------------------------------------------------------------------------
-- Chunks of instructions
-- ---------------------------------------------------------------------------

/-- The chunk of a push of the top of the stack. -/
theorem from_buildPush {n : Nat} (hCode : t.Placed address (buildPush ++ rest))
    (hn : n < primeCount) (hRoom : t.Room (stack.length + 4))
    (next : t.Placed (address + 6) rest → t.From (address + 6)
      ⟨memory, ((Record.push n).chunk : Int) :: stack, calls, printed, random⟩) :
    t.From address ⟨memory, (n : Int) :: stack, calls, printed, random⟩ := by
  refine from_push hCode (hRoom.mono (by simp)) fun hCode => ?_
  refine from_swap hCode fun hCode => ?_
  refine from_push hCode (hRoom.mono (by simp)) fun hCode => ?_
  refine from_push hCode (hRoom.mono (by simp)) fun hCode => ?_
  refine from_push hCode hRoom fun hCode => ?_
  exact from_buildChunk hCode (payload_push hn) ⟨n, rfl, hn⟩
    (by simp [opcodeExponent, operandExponent, exponentBound]) (show 2 < indexBound by decide)
    (hRoom.mono (by omega)) next

/-- The chunk of an opcode without operand. -/
theorem from_buildOpcode {op : Opcode} (hCode : t.Placed address (buildOpcode op ++ rest))
    (hOp : op ≠ .push) (hRoom : t.Room (stack.length + 2))
    (next : t.Placed (address + 4) rest → t.From (address + 4)
      ⟨memory, ((Record.ofOpcode op).chunk : Int) :: stack, calls, printed, random⟩) :
    t.From address ⟨memory, stack, calls, printed, random⟩ := by
  refine from_push hCode (hRoom.mono (by simp)) fun hCode => ?_
  refine from_push hCode (hRoom.mono (by simp)) fun hCode => ?_
  refine from_push hCode hRoom fun hCode => ?_
  exact from_buildChunk hCode (payload_ofOpcode hOp) (wellFormed_ofOpcode hOp)
    (by simp [opcodeExponent, exponentBound]) (show 1 < indexBound by decide)
    (hRoom.mono (by omega)) next

/-- Address zero is made to push the top of the stack. -/
theorem from_pokeMain {n : Nat} (hCode : t.Placed address (pokeMain ++ rest))
    (hn : n < primeCount) (hSome : t.allows memory → (memory (t.linking.label mainLabel)).isSome)
    (hUpdate : Function.update memory (t.linking.label mainLabel) (some (.push n)) = memory')
    (hAllows : t.allows memory → t.allows memory') (hRoom : t.Room (stack.length + 4))
    (next : t.Placed (address + 8) rest →
      t.From (address + 8) ⟨memory', stack, calls, printed, random⟩) :
    t.From address ⟨memory, (n : Int) :: stack, calls, printed, random⟩ := by
  have hSplit : t.Placed address (buildPush ++ (.pushLabel mainLabel :: .op .pokeChunk :: rest)) :=
    hCode
  refine from_buildPush hSplit hn hRoom fun hCode => ?_
  refine from_pushLabel hCode (hRoom.mono (by simp)) fun hCode => ?_
  exact from_pokeChunk hCode ⟨n, rfl, hn⟩ hSome hUpdate hAllows next

end FactorMachine.Terms
