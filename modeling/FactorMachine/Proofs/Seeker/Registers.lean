import FactorMachine.Proofs.Assembly.Transfer
import FactorMachine.Proofs.Chunk.Checksummed
import FactorMachine.Seeker.Program

/-!
# FactorMachine — data cells are registers

A program keeps a value in a data cell by building the datum's chunk and writing it, and gets it
back by reading the chunk and taking its factors apart. The chunk of a datum is the cube of one
prime, so its factorization leaves three words, the count, the index and the exponent, and the index
is what the others are dropped for.

The loading trusts the cell to hold the cube and nothing else. A checksum makes no difference to
what a chunk means, but it is one more factor, and it is the checksum's index that then ends up on
top. No program that keeps its values in this way ever writes one.

A value that has no prime is refused when its chunk is built, which is before anything is written.

## Results

* `holdsPlain_iff`      — a datum without a checksum is in a cell as its encoding.
* `Stands.steps_store`  — the storing leaves the value in the cell.
* `Stands.steps_load`   — the loading leaves an index of whatever factors are in the cell.
* `cells_are_registers` — so a cell gives back what was stored in it.
-/

namespace FactorMachine

open Statement Seeker

-- ---------------------------------------------------------------------------
-- What a cell holds
-- ---------------------------------------------------------------------------

/-- A cell holds a datum, and the datum has no checksum. -/
def HoldsPlain (cells : Array Chunk) (a v : Nat) : Prop :=
  ∃ chunk analysis, cells[a]? = some chunk ∧ decode chunk = .ok (.data v) ∧
    analyze chunk = .ok analysis ∧ analysis.checksum = .absent

theorem Analysis.logical_of_absent {raw : List Factor}
    (h : (ofFactors raw).checksum = .absent) : (ofFactors raw).logical = raw := by
  unfold ofFactors at h ⊢
  split
  · rfl
  · rename_i candidate hFind
    simp only [hFind] at h
    split at h
    · cases h
    · split at h <;> cases h

/-- A datum without a checksum is in a cell as its encoding. -/
theorem holdsPlain_iff {cells : Array Chunk} {a v : Nat} :
    HoldsPlain cells a v ↔ v < primeCount ∧ cells[a]? = some (Record.data v).chunk := by
  constructor
  · rintro ⟨chunk, analysis, hChunk, hDecode, hAnalyze, hAbsent⟩
    have hv : v < primeCount := (chunk_dvd_of_decode hDecode).2.1
    rw [decode, hAnalyze] at hDecode
    obtain ⟨raw, -, rfl, rfl⟩ := analyze_eq_ok hAnalyze
    -- the payload is all there is, so the chunk is its product
    have hRaw : raw = [⟨v, dataExponent⟩] :=
      (Analysis.logical_of_absent hAbsent).symm.trans (readFrom_of_interpret hDecode)
    refine ⟨hv, ?_⟩
    rw [hChunk, (payload_data hv).chunk_eq, hRaw]
  · rintro ⟨hv, hChunk⟩
    have hRecord : (Record.data v).WellFormed := hv
    have hProduct := (payload_data hv).chunk_eq
    have hPos : (Record.data v).chunk ≠ 0 := hProduct ▸ (factorsNumber_pos _).ne'
    have hRead : indexedFactors (Record.data v).chunk = .ok [⟨v, dataExponent⟩] :=
      hProduct ▸ indexedFactors_number (canonical_data hv)
    refine ⟨_, .ofFactors [⟨v, dataExponent⟩], hChunk, hRecord.decode_chunk, ?_, rfl⟩
    rw [analyze, if_neg hPos, hRead]

-- ---------------------------------------------------------------------------
-- Storing
-- ---------------------------------------------------------------------------

variable {σ : Type} [RandomSource σ] {ss : List Statement} {selected : List Nat} {out : Assembled}
  {e : Engine σ} {linking : Linking} {cell : String} {a : Nat} {base : List Word}

open Engine Operation

section Storing

variable {v : Word} (h : Stands ss out (storeCell cell) e)
  (hRealizes : Realizes linking ss out.program) (hStack : e.stack = v :: base)
include h hRealizes hStack

/-- The exponent of a datum goes under the value. -/
theorem Stands.steps_under (hRoom : base.length + 1 < e.maxStackDepth) : e.steps 2 =
    .ok (e.ran [(e.ip, .push), (e.ip + 1, .swap)] (e.ip + 2)
      (v :: (dataExponent : Int) :: base)) := by
  let pushed := e.ran [(e.ip, .push)] (e.ip + 1) ((dataExponent : Int) :: v :: base)
  have hPushed : e.steps 2 = pushed.steps 1 := by
    have hFree : e.stack.length < e.maxStackDepth := hStack ▸ hRoom
    rw [steps_push h.free 1 (h.decodesTo hRealizes (i := 0) rfl rfl) hFree, hStack]
    rfl
  have hSwapped : pushed.steps 1 = .ok (pushed.ran [(e.ip + 1, .swap)] (e.ip + 2)
      (v :: (dataExponent : Int) :: base)) :=
    steps_swap rfl 0 (h.decodesTo hRealizes (i := 1) rfl rfl) rfl
  rw [hPushed, hSwapped, ran_ran]
  rfl

/-- The count goes on top of both. -/
theorem Stands.steps_count (hRoom : base.length + 2 < e.maxStackDepth) : e.steps 3 =
    .ok (e.ran [(e.ip, .push), (e.ip + 1, .swap), (e.ip + 2, .push)] (e.ip + 3)
      (1 :: v :: (dataExponent : Int) :: base)) := by
  let under := e.ran [(e.ip, .push), (e.ip + 1, .swap)] (e.ip + 2)
    (v :: (dataExponent : Int) :: base)
  have hUnder : e.steps 2 = .ok under :=
    h.steps_under hRealizes hStack (Nat.lt_of_succ_lt hRoom)
  have hPushed : under.steps 1 = .ok (under.ran [(e.ip + 2, .push)] (e.ip + 3)
      (1 :: v :: (dataExponent : Int) :: base)) :=
    steps_push rfl 0 (h.decodesTo hRealizes (i := 2) rfl rfl) hRoom
  rw [steps_of_steps hUnder 1, hPushed, ran_ran]
  rfl

end Storing

/-- The storing leaves the value in the cell. -/
theorem Stands.steps_store {v : Nat} (h : Stands ss out (storeCell cell) e)
    (hRealizes : Realizes linking ss out.program) (hLabel : linking.label cell = a)
    (ha : a < e.memory.size) (hv : v < primeCount) (hStack : e.stack = (v : Int) :: base)
    (hRoom : base.length + 2 < e.maxStackDepth) :
    ∃ trace, e.steps 6 = .ok (e.wrote trace (e.ip + 6) base a (Record.data v).chunk) := by
  have hRecord : (Record.data v).WellFormed := hv
  let counted := e.ran [(e.ip, .push), (e.ip + 1, .swap), (e.ip + 2, .push)] (e.ip + 3)
    (1 :: (v : Int) :: (dataExponent : Int) :: base)
  let built := counted.ran [(e.ip + 3, .buildChunk)] (e.ip + 4) ((Record.data v).chunk :: base)
  let aimed := built.ran [(e.ip + 4, .push)] (e.ip + 5) ((a : Int) :: (Record.data v).chunk :: base)
  have hOne : base.length < e.maxStackDepth := by omega
  have hTwo : base.length + 1 < e.maxStackDepth := by omega
  have hAll := calc
    e.steps 6 = counted.steps 3 := steps_of_steps (h.steps_count hRealizes hStack hRoom) 3
    _ = built.steps 2 :=
      steps_buildChunk_data rfl 2 (h.decodesTo hRealizes (i := 3) rfl rfl) hv rfl hOne
    _ = aimed.steps 1 :=
      steps_push rfl 1 (hLabel ▸ h.decodesTo hRealizes (i := 4) rfl rfl) hTwo
    _ = .ok (aimed.wrote [(e.ip + 5, .pokeChunk)] (e.ip + 6) base a (Record.data v).chunk) :=
      steps_pokeChunk rfl 0 (h.decodesTo hRealizes (i := 5) rfl rfl) rfl ha hRecord.chunk_lt_bound
  simp only [aimed, built, counted, ran_ran, ran_wrote] at hAll
  exact ⟨_, hAll⟩

-- ---------------------------------------------------------------------------
-- Loading
-- ---------------------------------------------------------------------------

/-- Whatever factors are in the cell, the loading leaves the index of the last one, and under it
what lies two words below that. -/
theorem Stands.steps_load {fs : List Factor} {exponent index dropped : Word} {ws : List Word}
    (h : Stands ss out (loadCell cell) e) (hRealizes : Realizes linking ss out.program)
    (hLabel : linking.label cell = a) (hCanonical : Canonical fs)
    (hRead : e.memory.cells[a]? = some (factorsNumber fs)) (hBound : factorsNumber fs < Word.bound)
    (hWords : (countedWords fs).reverse = exponent :: index :: dropped :: ws)
    (hStack : e.stack = base) (hRoom : base.length + 2 * fs.length < e.maxStackDepth) :
    ∃ trace, e.steps 6 = .ok (e.ran trace (e.ip + 6) (index :: (ws ++ base))) := by
  subst hStack
  let aimed := e.ran [(e.ip, .push)] (e.ip + 1) ((a : Int) :: e.stack)
  let peeked := aimed.ran [(e.ip + 1, .peekChunk)] (e.ip + 2) ((factorsNumber fs : Int) :: e.stack)
  let factored := peeked.ran [(e.ip + 2, .factorize)] (e.ip + 3)
    (exponent :: index :: dropped :: (ws ++ e.stack))
  let bare := factored.ran [(e.ip + 3, .drop)] (e.ip + 4) (index :: dropped :: (ws ++ e.stack))
  let turned := bare.ran [(e.ip + 4, .swap)] (e.ip + 5) (dropped :: index :: (ws ++ e.stack))
  have hOne : e.stack.length < e.maxStackDepth := by omega
  have hFits : e.stack.length + (countedWords fs).length ≤ e.maxStackDepth := by
    rw [length_countedWords]
    exact hRoom
  have hFactored : peeked.steps 4 = factored.steps 3 := by
    have hStep := steps_factorize (e := peeked) rfl 3 (h.decodesTo hRealizes (i := 2) rfl rfl)
      (factorize_number hCanonical) hCanonical.numbered hBound rfl hFits
    rwa [hWords] at hStep
  have hAll := calc
    e.steps 6 = aimed.steps 5 :=
      steps_push h.free 5 (hLabel ▸ h.decodesTo hRealizes (i := 0) rfl rfl) hOne
    _ = peeked.steps 4 :=
      steps_peekChunk rfl 4 (h.decodesTo hRealizes (i := 1) rfl rfl) rfl hRead hBound hOne
    _ = factored.steps 3 := hFactored
    _ = bare.steps 2 := steps_drop rfl 2 (h.decodesTo hRealizes (i := 3) rfl rfl) rfl
    _ = turned.steps 1 := steps_swap rfl 1 (h.decodesTo hRealizes (i := 4) rfl rfl) rfl
    _ = .ok (turned.ran [(e.ip + 5, .drop)] (e.ip + 6) (index :: (ws ++ e.stack))) :=
      steps_drop rfl 0 (h.decodesTo hRealizes (i := 5) rfl rfl) rfl
  simp only [turned, bare, factored, peeked, aimed, ran_ran] at hAll
  exact ⟨_, hAll⟩

-- ---------------------------------------------------------------------------
-- Values without a prime
-- ---------------------------------------------------------------------------

/-- After so many steps the engine is stopped by a fault, and no cell was written. -/
def Engine.FaultsIn (e : Engine σ) (n : Nat) : Prop :=
  ∃ e', e.steps n = .ok e' ∧ e'.phase = .errored ∧ e'.fault.isSome = true ∧
    e'.program = e.program

theorem Engine.faultsIn_of_fault {op : Opcode} {operand : Option Nat} {e' : Engine σ}
    {fault : Fault} (hFree : e.phase.canStep = true)
    (hCell : DecodesTo e.memory.cells e.ip (.instruction op operand))
    (hPops : op.pops ≤ e.stack.length)
    (hRun : (execute e.ip op operand).run (e.carriesOut op) = .error fault e')
    (hMemory : e'.memory = e.memory) : e.FaultsIn 1 := by
  refine ⟨_, steps_of_fault hFree hCell hPops hRun, rfl, rfl, ?_⟩
  show e'.memory.cells = e.memory.cells
  rw [hMemory]

theorem Engine.faultsIn_of_full {n : Nat} (hFree : e.phase.canStep = true)
    (hCell : DecodesTo e.memory.cells e.ip (.push n)) (hFull : e.maxStackDepth ≤ e.stack.length) :
    e.FaultsIn 1 :=
  faultsIn_of_fault hFree hCell (Nat.zero_le _)
    (run_pushLast_full (e := e.carriesOut .push) (n : Int) hFull) rfl

theorem Engine.FaultsIn.after {m n : Nat} {e' : Engine σ} (hSteps : e.steps m = .ok e')
    (hProgram : e'.program = e.program) (h : e'.FaultsIn n) : e.FaultsIn (m + n) := by
  obtain ⟨stopped, hMore, hErrored, hFault, hSame⟩ := h
  exact ⟨stopped, (steps_of_steps hSteps n).trans hMore, hErrored, hFault, hSame.trans hProgram⟩

/-- A value without a prime is not stored, if only because there is no room for the words above
it. -/
theorem Stands.faultsIn {v : Word} (h : Stands ss out (storeCell cell) e)
    (hRealizes : Realizes linking ss out.program) (hStack : e.stack = v :: base)
    (hv : ∀ n : Nat, n < primeCount → v ≠ n) : ∃ n ≤ 4, e.FaultsIn n := by
  -- either of the two pushes may be short of room; then the building refuses the value
  rcases Nat.lt_or_ge (base.length + 1) e.maxStackDepth with hOne | hFull
  · have hUnder := h.steps_under hRealizes hStack hOne
    rcases Nat.lt_or_ge (base.length + 2) e.maxStackDepth with hTwo | hFull
    · have hCount := h.steps_count hRealizes hStack hTwo
      let counted := e.ran [(e.ip, .push), (e.ip + 1, .swap), (e.ip + 2, .push)] (e.ip + 3)
        (1 :: v :: (dataExponent : Int) :: base)
      obtain ⟨fault, e', hRun, hMemory, -⟩ := execute_buildChunk_data_fault
        (e := counted.carriesOut .buildChunk) (e.ip + 3) none rfl hv
      have hBuild : counted.FaultsIn 1 := faultsIn_of_fault rfl
        (h.decodesTo hRealizes (i := 3) rfl rfl) (Nat.le_add_left 1 _) hRun hMemory
      exact ⟨4, Nat.le_refl 4, hBuild.after hCount rfl⟩
    · have hPush := faultsIn_of_full (e := e.ran [(e.ip, .push), (e.ip + 1, .swap)] (e.ip + 2)
        (v :: (dataExponent : Int) :: base)) rfl (h.decodesTo hRealizes (i := 2) rfl rfl) hFull
      exact ⟨3, by omega, hPush.after hUnder rfl⟩
  · have hFull' : e.maxStackDepth ≤ e.stack.length := hStack ▸ hFull
    exact ⟨1, by omega, faultsIn_of_full h.free (h.decodesTo hRealizes (i := 0) rfl rfl) hFull'⟩

-- ---------------------------------------------------------------------------
-- Registers
-- ---------------------------------------------------------------------------

/-- **Data cells are registers.** In an assembled program a label names a cell. Where the code that
stores in it stands, with that code's cells as they were assembled, and there is room for three
words above the base, a value that has a prime is taken from the stack and is then in the cell,
without a checksum; no other cell is different, and no other part of the engine but the history.
Where the code that loads from it stands, with that much room, such a value is put on the stack, and
nothing is different but the history. A value that has no prime is a fault within four steps, with
every cell as it was. -/
theorem cells_are_registers (hAssemble : assemble ss selected = .ok out)
    (hLabel : out.labels.lookup cell = some a) (ha : a < out.program.length) (e : Engine σ)
    (base : List Word) :
    (∀ v < primeCount, Stands ss out (storeCell cell) e → e.stack = (v : Int) :: base →
      base.length + 3 ≤ e.maxStackDepth → ∃ trace c e', e.steps 6 = .ok e' ∧
        e' = e.wrote trace (e.ip + 6) base a c ∧ HoldsPlain e'.program a v ∧
        ∀ i ≠ a, e'.program[i]? = e.program[i]?) ∧
    (∀ v, Stands ss out (loadCell cell) e → HoldsPlain e.program a v → e.stack = base →
      base.length + 3 ≤ e.maxStackDepth →
      ∃ trace, e.steps 6 = .ok (e.ran trace (e.ip + 6) ((v : Int) :: base))) ∧
    ∀ v : Word, v < 0 ∨ (primeCount : Int) ≤ v → Stands ss out (storeCell cell) e →
      e.stack = v :: base → ∃ n ≤ 4, e.FaultsIn n := by
  have hRealizes := realizes_of_assemble hAssemble
  have hAddress : (Linking.ofLabels out.labels selected).label cell = a := by
    simp [Linking.ofLabels, hLabel]
  refine ⟨fun v hv h hStack hRoom => ?_, fun v h hHolds hStack hRoom => ?_,
    fun v hv h hStack => ?_⟩
  · have hSize : a < e.memory.size := h.size ▸ ha
    obtain ⟨trace, hSteps⟩ := h.steps_store hRealizes hAddress hSize hv hStack hRoom
    refine ⟨trace, _, _, hSteps, rfl, ?_, fun i hi => ?_⟩
    · exact holdsPlain_iff.mpr ⟨hv, Array.getElem?_setIfInBounds_self_of_lt hSize⟩
    · exact Array.getElem?_setIfInBounds_ne hi.symm
  · obtain ⟨hv, hRead⟩ := holdsPlain_iff.mp hHolds
    have hRecord : (Record.data v).WellFormed := hv
    have hChunk := (payload_data hv).chunk_eq
    exact h.steps_load hRealizes hAddress (canonical_data hv) (hChunk ▸ hRead)
      (hChunk ▸ hRecord.chunk_lt_bound) rfl hStack hRoom
  · refine h.faultsIn hRealizes hStack fun n hn hEq => ?_
    subst hEq
    rcases hv with hNegative | hLarge
    · exact absurd hNegative (Int.not_lt.mpr (Int.natCast_nonneg n))
    · exact absurd hn (Nat.not_lt.mpr (Int.ofNat_le.mp hLarge))

/-- The greatest value is stored and loaded again, and the next one is refused. -/
theorem cells_are_registers_greatest : ∃ ss out, ∃ e stored loaded next : Engine (List Nat),
    ss = storeCell "x" ++ loadCell "x" ++ [.label "x", .data 0] ∧ assemble ss [] = .ok out ∧
    e.stack = [((primeCount - 1 : Nat) : Int)] ∧ e.steps 6 = .ok stored ∧ stored.stack = [] ∧
    HoldsPlain stored.program 12 (primeCount - 1) ∧ stored.steps 6 = .ok loaded ∧
    loaded.stack = e.stack ∧ next.stack = [(primeCount : Int)] ∧ ∃ n ≤ 4, next.FaultsIn n := by
  have hRun : (assemble (storeCell "x" ++ loadCell "x" ++ [.label "x", .data 0]) []).toOption.map
      (fun out => (out.program.length, out.labels.lookup "x")) = some (13, some 12) := by
    decide +kernel
  obtain ⟨out, hOk, hBoth⟩ := Option.map_eq_some_iff.mp hRun
  obtain ⟨hLength, hLabel⟩ := Prod.mk.inj hBoth
  have ha : 12 < out.program.length := hLength ▸ Nat.lt_succ_self 12
  let ss := storeCell "x" ++ loadCell "x" ++ [.label "x", .data 0]
  have hAssemble : assemble ss [] = .ok out := ok_of_toOption hOk
  let e : Engine (List Nat) := start out.program [((primeCount - 1 : Nat) : Int)] 3 0 []
  let next : Engine (List Nat) := start out.program [(primeCount : Int)] 3 0 []
  have hStands : ∀ w : Word, Stands ss out (storeCell "x")
      (start out.program [w] 3 0 [] : Engine (List Nat)) :=
    fun w => stands_of_program [] _ rfl rfl rfl rfl
  obtain ⟨trace, c, stored, hStore, rfl, hHolds, hSame⟩ :=
    (cells_are_registers hAssemble hLabel ha e []).1 (primeCount - 1) (by decide) (hStands _) rfl
      (Nat.le_refl 3)
  have hSize : (e.memory.cells.setIfInBounds 12 c).size = out.program.length := by
    rw [Array.size_setIfInBounds]
    exact List.size_toArray ..
  have hLoads : Stands ss out (loadCell "x") (e.wrote trace (e.ip + 6) [] 12 c) := by
    refine ⟨rfl, hSize, ⟨storeCell "x", _, rfl, rfl⟩, fun i hi => ?_⟩
    have hLt : i < 6 := hi
    have hOther : 0 + 6 + i ≠ 12 := by omega
    exact (hSame _ hOther).trans (List.getElem?_toArray ..)
  obtain ⟨trace', hLoad⟩ := (cells_are_registers hAssemble hLabel ha _ []).2.1 (primeCount - 1)
    hLoads hHolds rfl (Nat.le_refl 3)
  have hRefused := (cells_are_registers hAssemble hLabel ha next []).2.2 (primeCount : Int)
    (.inr (Int.le_refl _)) (hStands _) rfl
  exact ⟨ss, out, e, _, _, next, rfl, hAssemble, rfl, hStore, rfl, hHolds, hLoad, rfl, rfl,
    hRefused⟩

/-- In a program with both codes a cell may hold a datum with a checksum on seven, a prime whose index
is three. The count and the index of the datum itself are then left below. The loading stands first
here, so an engine starts with it. -/
theorem load_of_checksummed : ∃ ss out, ∃ e loaded : Engine (List Nat),
    ss = loadCell "x" ++ storeCell "x" ++ [.label "x", .raw (3 ^ 3 * 7 ^ 6)] ∧
    assemble ss [] = .ok out ∧ out.labels.lookup "x" = some 12 ∧ 12 < out.program.length ∧
    Stands ss out (loadCell "x") e ∧ DecodesTo e.program 12 (.data 1) ∧ e.stack = [] ∧
    5 ≤ e.maxStackDepth ∧ e.steps 6 = .ok loaded ∧ loaded.ip = e.ip + 6 ∧
    loaded.stack = [3, 1, 2] ∧ loaded.stack ≠ [1] := by
  have hRun : (assemble (loadCell "x" ++ storeCell "x" ++
      [.label "x", .raw (3 ^ 3 * 7 ^ 6)]) []).toOption.map
      (fun out => (out.program.length, out.labels.lookup "x", out.program[12]?)) =
        some (13, some 12, some (3 ^ 3 * 7 ^ 6)) := by
    decide +kernel
  obtain ⟨out, hOk, hAll⟩ := Option.map_eq_some_iff.mp hRun
  obtain ⟨hLength, hBoth⟩ := Prod.mk.inj hAll
  obtain ⟨hLabel, hChunk⟩ := Prod.mk.inj hBoth
  let ss := loadCell "x" ++ storeCell "x" ++ [.label "x", .raw (3 ^ 3 * 7 ^ 6)]
  have hAssemble : assemble ss [] = .ok out := ok_of_toOption hOk
  let e : Engine (List Nat) := start out.program [] 5 0 []
  have hStands : Stands ss out (loadCell "x") e := stands_of_program [] _ rfl rfl rfl rfl
  have hDecode : decode (3 ^ 3 * 7 ^ 6) = .ok (.data 1) := by decide +kernel
  have hCell : e.memory.cells[12]? = some (3 ^ 3 * 7 ^ 6) := (List.getElem?_toArray ..).trans hChunk
  have hAddress : (Linking.ofLabels out.labels []).label "x" = 12 := by
    simp [Linking.ofLabels, hLabel]
  have hCanonical : Canonical [⟨1, dataExponent⟩, ⟨3, checksumExponent⟩] :=
    ⟨by simp, by simp [dataExponent, checksumExponent], by simp [primeCount]⟩
  have hNumber : factorsNumber [⟨1, dataExponent⟩, ⟨3, checksumExponent⟩] = 3 ^ 3 * 7 ^ 6 := by
    simp [Factor.number, primeOf, Nat.nth_prime_one_eq_three, Nat.nth_prime_three_eq_seven,
      checksumExponent, dataExponent]
  obtain ⟨trace, hLoad⟩ := hStands.steps_load (realizes_of_assemble hAssemble) hAddress hCanonical
    (hNumber ▸ hCell) (hNumber ▸ show 3 ^ 3 * 7 ^ 6 < Word.bound by decide) rfl rfl
    (show 0 + 2 * 2 < 5 by decide)
  exact ⟨ss, out, e, _, rfl, hAssemble, hLabel, by omega, hStands, ⟨_, hCell, hDecode⟩, rfl,
    Nat.le_refl 5, hLoad, rfl, rfl, show ([3, 1, 2] : List Word) ≠ [1] by decide⟩

end FactorMachine
