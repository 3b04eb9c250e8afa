import FactorMachine.Proofs.Engine.Calls
import FactorMachine.Proofs.Seeker.Miss
import FactorMachine.Proofs.Seeker.Requests

/-!
# FactorMachine — what a goal-seeker leaves alone

A goal-seeker writes to addresses that it computes, with chunks that it builds, on a stack
whose height depends on what its slots hold and on the words that it is given. All the same it
stays within its bounds, whatever it is given and whatever it draws, and also where it faults on
the way: address zero keeps pushing an attempt, a slot that was selected holds no operation, an
addition or a push of zero, a data cell holds a number, and nothing else ever changes.

The invariant is that every stretch leads to one of the two waits with contents that are valid,
or to a fault.

## Results

* `from_zero_anywhere`  — an iteration leads to the wait for feedback, over any stack.
* `leads_of_reaches`    — every engine that runs a goal-seeker is within such a stretch.
* `intact_of_reaches`   — its memory is intact.
-/

namespace FactorMachine

def CellLayout.addresses (c : CellLayout) : List Nat :=
  [c.previousAttempt, c.failureCount, c.lastSlot, c.lastKind]

/-- A memory differs from the program at most where and how the program may rewrite itself. -/
structure GoalSeeker.Intact (s : GoalSeeker) (cells : Array Chunk) : Prop where
  size : cells.size = s.program.length
  unchanged : ∀ a, a ≠ 0 → a ∉ s.selectedSlots → a ∉ s.cells.addresses →
    cells[a]? = s.program[a]?
  attempt : ∃ n, DecodesTo cells 0 (.push n)
  selected : ∀ a ∈ s.selectedSlots, DecodesTo cells a (.ofOpcode .nop) ∨
    DecodesTo cells a (.ofOpcode .add) ∨ DecodesTo cells a (.push 0)
  unselected : ∀ a ∈ s.slotAddresses, a ∉ s.selectedSlots → DecodesTo cells a (.ofOpcode .nop)
  data : ∀ a ∈ s.cells.addresses, ∃ v, DecodesTo cells a (.data v)

theorem DecodesTo.readCell {cells : Array Chunk} {address v : Nat}
    (h : DecodesTo cells address (.data v)) : readCell cells address = some v := by
  obtain ⟨chunk, hChunk, hDecode⟩ := h
  simp [FactorMachine.readCell, hChunk, hDecode]

namespace Seeker

open Terms

-- ---------------------------------------------------------------------------
-- Pictures of valid contents
-- ---------------------------------------------------------------------------

section Pictures

variable {l : Layout} {m : Contents} {cells : Array Chunk}

theorem decodesTo_of_holds (hValid : l.Valid m) (hHolds : Holds cells (l.picture m)) {a : Nat}
    {r : Record} (hRecord : l.picture m a = some r) : DecodesTo cells a r :=
  ⟨r.chunk, hHolds.read hRecord, (Layout.picture_wellFormed hValid hRecord).decode_chunk⟩

/-- The data cells are read as what they hold. -/
theorem readCell_of_holds (hValid : l.Valid m) (hHolds : Holds cells (l.picture m)) (d : DataCell) :
    readCell cells (l.linking.label d.label) = some (m.cell d) :=
  (decodesTo_of_holds hValid hHolds (l.picture_cell m d)).readCell

/-- Where the pictures agree, the memories do. -/
theorem cells_eq_of_holds {cells' : Array Chunk} {picture picture' : Picture} {a : Nat}
    (h : Holds cells picture) (h' : Holds cells' picture') (hSame : picture' a = picture a) :
    cells'[a]? = cells[a]? := by
  rw [h' a, hSame, ← h a]

/-- Contents that agree in what an address shows of them make no difference there. -/
theorem picture_congr {m' : Contents} {a : Nat} (hZero : a = 0 → m.attempt = m'.attempt)
    (hSlot : 1 ≤ a → a ≤ l.config.slotCount → m.slots a = m'.slots a)
    (hCells : ∀ d : DataCell, a = l.linking.label d.label → m.cell d = m'.cell d) :
    l.picture m a = l.picture m' a := by
  unfold Layout.picture
  split
  · rename_i hFirst
    rw [hZero hFirst]
  · split
    · rename_i hFirst hSlots
      rw [hSlot (Nat.pos_of_ne_zero hFirst) hSlots]
    · split
      · rfl
      · -- what a data cell shows is the value that goes with its label
        cases hd : DataCell.all[a - l.cellsAt]? with
        | none => rfl
        | some d =>
          have hOffset := DataCell.offset_of_all hd
          rw [Option.map_some, Option.map_some, hCells d]
          rw [Layout.label_cell_eq]
          omega

/-- Beyond the slots the contents make a difference only in the data cells. -/
theorem picture_eq_of_beyond (m m' : Contents) {a : Nat} (hBeyond : l.config.slotCount < a)
    (hCells : ∀ d : DataCell, a ≠ l.linking.label d.label) : l.picture m a = l.picture m' a :=
  picture_congr (fun hZero => by omega) (fun _ hSlot => by omega) fun d hd => absurd hd (hCells d)

/-- Valid contents make a difference only at address zero, in slots that are free and in data
cells. -/
theorem picture_eq_of_outside {m' : Contents} (hValid : l.Valid m) (hValid' : l.Valid m') {a : Nat}
    (hZero : a ≠ 0) (hFixed : ¬ l.free a) (hCells : ∀ d : DataCell, a ≠ l.linking.label d.label) :
    l.picture m a = l.picture m' a :=
  picture_congr (fun h => absurd h hZero)
    (fun _ _ => (hValid.fixed a hFixed).trans (hValid'.fixed a hFixed).symm)
    fun d hd => absurd hd (hCells d)

/-- Which addresses there are does not depend on the contents. -/
theorem isSome_picture (m m' : Contents) (a : Nat) :
    (l.picture m a).isSome = (l.picture m' a).isSome := by
  unfold Layout.picture
  split
  · rfl
  · split
    · rfl
    · split
      · rfl
      · rw [Option.isSome_map, Option.isSome_map]

/-- Memories that hold pictures of one layout have the same size. -/
theorem size_eq_of_holds {m' : Contents} {cells' : Array Chunk} (h : Holds cells (l.picture m))
    (h' : Holds cells' (l.picture m')) : cells.size = cells'.size := by
  have hLt : ∀ a, a < cells.size ↔ a < cells'.size := by
    intro a
    have hSame : cells[a]?.isSome = cells'[a]?.isSome := by
      rw [h a, h' a, Option.isSome_map, Option.isSome_map, isSome_picture m m']
    rwa [Bool.eq_iff_iff, isSome_getElem?, isSome_getElem?] at hSame
  have hFirst := hLt cells.size
  have hSecond := hLt cells'.size
  omega

theorem mem_addresses {seeker : GoalSeeker} {target : Nat} (h : l.Describes seeker target)
    {a : Nat} : a ∈ seeker.cells.addresses ↔ ∃ d : DataCell, a = l.linking.label d.label := by
  rw [h.cells]
  constructor
  · intro ha
    simp only [CellLayout.addresses, List.mem_cons, List.not_mem_nil, or_false] at ha
    obtain rfl | rfl | rfl | rfl := ha
    · exact ⟨.previous, rfl⟩
    · exact ⟨.failures, rfl⟩
    · exact ⟨.lastSlot, rfl⟩
    · exact ⟨.lastKind, rfl⟩
  · rintro ⟨d, rfl⟩
    cases d <;> simp [CellLayout.addresses, DataCell.label]

/-- A memory with valid contents is intact. -/
theorem intact_of_holds {seeker : GoalSeeker} {target : Nat} (h : l.Describes seeker target)
    (hValid : l.Valid m) (hHolds : Holds cells (l.picture m)) : seeker.Intact cells := by
  have hSame : ∀ a, a ≠ 0 → a ∉ seeker.selectedSlots → a ∉ seeker.cells.addresses →
      cells[a]? = seeker.program[a]? := by
    intro a hZero hSelected hCells
    rw [h.selected] at hSelected
    rw [mem_addresses h, not_exists] at hCells
    rw [hHolds a, picture_eq_of_outside hValid h.valid hZero (fun ha => hSelected (h.free a ha))
      hCells, ← h.program a, List.getElem?_toArray]
  constructor
  · rw [size_eq_of_holds hHolds h.program, List.size_toArray]
  · exact hSame
  · exact ⟨m.attempt, decodesTo_of_holds hValid hHolds (l.picture_zero m)⟩
  · intro a ha
    rw [h.selected] at ha
    obtain ⟨hFirst, hLast⟩ := l.selected_range a ha
    have hDecodes := decodesTo_of_holds hValid hHolds (l.picture_slot m hFirst hLast)
    generalize m.slots a = kind at hDecodes
    cases kind with
    | nop => exact .inl hDecodes
    | add => exact .inr (.inl hDecodes)
    | push => exact .inr (.inr hDecodes)
  · intro a ha hSelected
    rw [h.selected] at hSelected
    obtain ⟨hFirst, hLast⟩ := List.mem_range'_1.mp ha
    rw [h.slotCount] at hLast
    -- valid contents have no operation in a slot that was not selected
    have hDecodes := decodesTo_of_holds hValid hHolds (l.picture_slot m hFirst (by omega))
    rwa [hValid.fixed a fun ha => hSelected (h.free a ha)] at hDecodes
  · intro a ha
    obtain ⟨d, rfl⟩ := (mem_addresses h).mp ha
    exact ⟨m.cell d, decodesTo_of_holds hValid hHolds (l.picture_cell m d)⟩

end Pictures

-- ---------------------------------------------------------------------------
-- Runs on any words
-- ---------------------------------------------------------------------------

variable {σ : Type} [RandomSource σ]

/-- Every stretch with valid contents, and with any stack and any fault. -/
def Layout.anywhere (σ : Type) (l : Layout) (depth : Nat) : Watch σ where
  __ := Watch.idle depth
  waits e := ∃ m base printed random, l.Valid m ∧
    (l.AtFeedback (.idle depth) m base printed random e ∨
      l.AtTarget (.idle depth) m base printed random e)

variable {l : Layout} {depth : Nat}

theorem from_zero_anywhere {m : Contents} (hValid : l.Valid m) (base printed : List Word)
    (random : σ) : (l.terms (l.anywhere σ depth)).From 0 ⟨l.picture m,
      List.replicate l.config.slotCount 0 ++ (l.config.frameMarker : Int) :: base, [], printed,
        random⟩ :=
  from_iteration hValid (.inl trivial) fun _ _ hAt =>
    ⟨m, base, printed, random, hValid, .inl (hAt.of_depth rfl)⟩

/-- Any word at a wait leads to the next one, or to a fault. -/
theorem leads_anywhere {a b : Engine σ} {v : Word} {r : StepResult}
    (hWaits : (l.anywhere σ depth).waits a) (hResume : a.resume v = .ok (r, b)) :
    (l.terms (l.anywhere σ depth)).Leads b := by
  obtain ⟨m, base, printed, random, hValid, hAt | hAt⟩ := hWaits
  · -- the word is judged, and either path leads to a wait with whatever is left over
    have hHere : l.AtFeedback (l.anywhere σ depth) m base printed random a := hAt.of_depth rfl
    refine leads_of_resume hResume hHere (.inl trivial) id (from_judge (.inl trivial) ?_ ?_)
    · exact fun _ => from_hit hValid (.inl trivial) fun _ _ hAt' =>
        ⟨_, _, _, _, hValid.store .failures (by decide), .inr (hAt'.of_depth rfl)⟩
    · exact fun _ => from_miss hValid (.inl ⟨trivial, fun _ => trivial⟩) (.inl trivial)
        (.inl trivial) (.inl trivial) fun _ _ _ _ _ _ _ _ _ hAfter =>
          from_zero_anywhere hAfter _ _ _
  · -- a word that is no index faults when it is written to its cell
    have hHere : l.AtTarget (l.anywhere σ depth) m base printed random a := hAt.of_depth rfl
    refine leads_of_resume hResume hHere (.inl trivial) id ?_
    exact from_target hValid (.inl ⟨trivial, fun _ => trivial⟩) (.inl trivial) (.inl trivial)
      fun _ hTarget _ => from_zero_anywhere (Layout.Valid.retarget hValid hTarget) _ _ _

/-- Every engine that runs a goal-seeker is on the way to a wait or to a fault. -/
theorem leads_of_reaches {seeker : GoalSeeker} {target historyLimit : Nat} {random : σ}
    (h : l.Describes seeker target) {e : Engine σ} (hReaches : (Engine.start seeker.program
      seeker.initialStack depth historyLimit random).Reaches e) :
    (l.terms (l.anywhere σ depth)).Leads e := by
  refine Leads.of_reaches (fun _ => id) (fun _ _ _ _ _ => leads_anywhere) hReaches ?_
  exact from_zero_anywhere h.valid [] [] random (.inl trivial) _ rfl
    (h.shows_start historyLimit random)

end Seeker

/-- **A goal-seeker stays within its bounds.** Whatever its builder went through before, whatever
words it is given, whatever it draws and however deep its stacks may be, its memory is intact
after every call. -/
theorem intact_of_reaches {σ : Type} [RandomSource σ] {config : SeekerConfig}
    {protocol : ProtocolConfig} {b b' : SeekerBuilder} {bank : SlotBank} {target streak : Nat}
    {seeker : GoalSeeker} (hStart : SeekerBuilder.start config protocol = .ok b)
    (hBuild : (SeekerBuilder.build target streak).run { b with bank } = .ok seeker b')
    {maxStackDepth historyLimit : Nat} {random : σ} {e : Engine σ}
    (hReaches : (Engine.start seeker.program seeker.initialStack maxStackDepth historyLimit
      random).Reaches e) : seeker.Intact e.program := by
  obtain ⟨-, hPossible⟩ := SeekerBuilder.start_spec hStart
  obtain ⟨-, -, l, -, -, hDescribes⟩ := Seeker.build_spec (b := { b with bank }) hPossible hBuild
  obtain ⟨-, picture, ⟨m, hValid, rfl⟩, hHolds⟩ :=
    (Seeker.leads_of_reaches hDescribes hReaches).keeps
  exact Seeker.intact_of_holds hDescribes hValid hHolds

/-- The bounds hold after the first step of a program with a single slot. -/
theorem intact_of_reaches_step : ∃ b seeker b' r, ∃ e : Engine (List Nat),
    SeekerBuilder.start { slotCount := 1 } {} = .ok b ∧
    (SeekerBuilder.build 3 0).run b = .ok seeker b' ∧
    (Engine.start seeker.program seeker.initialStack 4096 4096 [5]).step = .ok (r, e) ∧
    seeker.Intact e.program := by
  obtain ⟨b, seeker, b', hStart, hBuild, -⟩ := Seeker.exists_smallest
  obtain ⟨r, hStep, -⟩ := Engine.step_next
    (e := Engine.start seeker.program seeker.initialStack 4096 4096 [5]) rfl
  exact ⟨b, seeker, b', r, _, hStart, hBuild, hStep,
    intact_of_reaches hStart (b := b) hBuild (.step .refl hStep)⟩

end FactorMachine
