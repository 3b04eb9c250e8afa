import FactorMachine.Proofs.Chunk.Least
import FactorMachine.Proofs.Seeker.Depth
import FactorMachine.Proofs.Seeker.Iteration

/-!
# FactorMachine — what a goal-seeker makes of a hit

After a hit a goal-seeker clears its failure count and asks for a target, and the target that it is
given becomes its attempt. No word is printed or drawn on the way, and the slots stay as they are.

The path is followed from the end of an iteration in a memory that somebody else may have prepared,
with slots of any kind, also in slots that the program itself would never rewrite. For this the
layout is loosened: every slot is free. Only the text tells where the path leads, and the text is
that of the program.

## Results

* `GoalSeeker.Cleared`, `GoalSeeker.Aimed`    — what has changed after a hit and after a target.
* `leads_clearing`, `leads_aiming`            — where they lead.
* `staysBelow_of_hit`, `staysBelow_of_target` — with enough room the stack is never full.
* `exists_contents`                           — the contents of a prepared memory.
* `hit_leads_on`                              — the success path, as it shows in an engine.
-/

namespace FactorMachine

open Seeker Terms

variable {σ : Type} [RandomSource σ]

namespace GoalSeeker

/-- What a hit has made of the engine `e` by the time it is `e'`. -/
structure Cleared (s : GoalSeeker) (e e' : Engine σ) : Prop where
  waits : s.AtSuccessInput e'
  stack : e'.stack = []
  failureCount : readCell e'.program s.cells.failureCount = some 0
  unchanged : ∀ a, a ≠ s.cells.failureCount → e'.program[a]? = e.program[a]?
  printed : e'.printed = e.printed
  random : e'.random = e.random

/-- What a target has made of the engine `e` by the time it is `e'`. -/
structure Aimed (s : GoalSeeker) (target : Nat) (e e' : Engine σ) : Prop where
  free : e'.phase.canStep = true
  ip : e'.ip = 0
  stack : e'.stack = s.initialStack
  attempt : DecodesTo e'.program 0 (.push target)
  previousAttempt : readCell e'.program s.cells.previousAttempt = some target
  lastSlot : ∃ slot, s.selectedSlots[0]? = some slot ∧
    readCell e'.program s.cells.lastSlot = some slot
  lastKind : readCell e'.program s.cells.lastKind = some nopKind
  unchanged : ∀ a, a ≠ 0 → a ≠ s.cells.previousAttempt → a ≠ s.cells.lastSlot →
    a ≠ s.cells.lastKind → e'.program[a]? = e.program[a]?
  printed : e'.printed = e.printed
  random : e'.random = e.random

end GoalSeeker

namespace Seeker

-- ---------------------------------------------------------------------------
-- After a hit and after a target
-- ---------------------------------------------------------------------------

section Hit

variable {l : Layout} {depth : Nat} {m : Contents}
  {printed : List Word} {random : σ} {e e' : Engine σ}

/-- The stretch after a hit. -/
def Layout.clearing (l : Layout) (depth : Nat) (m : Contents) (printed : List Word) (random : σ) :
    Watch σ where
  __ := Watch.guarded σ depth
  waits e := l.AtTarget (.idle depth) (m.store .failures 0) [] printed random e

/-- A hit leads to the wait for a target. -/
theorem leads_clearing (hValid : l.Valid m) (hAttempt : m.attempt < l.config.attemptModulus)
    (hAwaits : e.phase = .awaitingInput) (hAt : l.AtFeedback (.idle depth) m [] printed random e) :
    ∃ r b, e.resume l.protocol.successFeedback = .ok (r, b) ∧
      (l.terms (l.clearing depth m e.printed random)).Leads b := by
  have hHere : l.AtFeedback (l.clearing depth m e.printed random) m [] printed random e :=
    hAt.of_depth rfl
  obtain ⟨r, b, hResume, -, -, hLeads⟩ := leads_resume hAwaits hHere (.inl trivial) id
    (from_feedback_hit hValid (.inl trivial) fun a _ hThere => by
      rw [leftOver_of_lt hAttempt] at hThere
      show l.AtTarget (.idle depth) (m.store .failures 0) [] e.printed random a
      rw [hAt.printed]
      exact hThere.of_depth rfl)
  exact ⟨r, b, hResume, hLeads⟩

/-- With room for the frame and two more words, the stack is never full after a hit. -/
theorem staysBelow_of_hit (hValid : l.Valid m) (hAttempt : m.attempt < l.config.attemptModulus)
    (hRoom : l.config.slotCount + l.pushes m + 4 < depth) (hAwaits : e.phase = .awaitingInput)
    (hAt : l.AtFeedback (.idle depth) m [] printed random e) :
    e.StaysBelow l.protocol.successFeedback := by
  obtain ⟨r, b, hResume, -⟩ := leads_clearing hValid hAttempt hAwaits hAt
  have hLess : depth - 1 < depth := by omega
  have hLeads : (l.terms (l.inTurn σ hLess.le 0)).Leads b :=
    leads_of_hit hValid hAttempt (by omega) hAt hResume
  exact hLeads.staysBelow (fun _ => id) id hLess hResume

/-- Where a hit has come to a wait, it is the one for a target. -/
theorem atTarget_of_comesTo (hValid : l.Valid m) (hAttempt : m.attempt < l.config.attemptModulus)
    (hAwaits : e.phase = .awaitingInput) (hAt : l.AtFeedback (.idle depth) m [] printed random e)
    (hComes : e.ComesTo l.protocol.successFeedback e') (hAgain : e'.phase = .awaitingInput) :
    l.AtTarget (.idle depth) (m.store .failures 0) [] e.printed random e' := by
  obtain ⟨r, b, hResume, hLeads⟩ := leads_clearing hValid hAttempt hAwaits hAt
  exact (hLeads.of_comesTo (fun _ => id) hResume hComes).waits hAgain

/-- The stretch to the beginning of an iteration with the given contents. -/
def Layout.aiming (l : Layout) (depth : Nat) (m : Contents) (printed : List Word) (random : σ) :
    Watch σ where
  __ := Watch.guarded σ depth
  ends := (l.terms (.idle depth)).Shows ⟨l.picture m, List.replicate l.config.slotCount 0 ++
    [(l.config.frameMarker : Int)], [], printed, random⟩ 0

/-- A target leads to the beginning of an iteration. -/
theorem leads_aiming {target : Nat} (hValid : l.Valid m) (hTarget : target < primeCount)
    (hAwaits : e.phase = .awaitingInput) (hAt : l.AtTarget (.idle depth) m [] printed random e) :
    ∃ r b, e.resume target = .ok (r, b) ∧
      (l.terms (l.aiming depth (l.retarget m target) printed random)).Leads b := by
  have hHere : l.AtTarget (l.aiming depth (l.retarget m target) printed random) m [] printed random
    e := hAt.of_depth rfl
  -- the engine is not at address zero yet
  have hGoesOn : ¬ (l.aiming depth (l.retarget m target) printed random).ends
      (e.supplied target) := by
    intro hEnds
    have hIp : e.ip = 0 := hEnds.ip
    rw [hAt.ip] at hIp
    omega
  obtain ⟨r, b, hResume, -, -, hLeads⟩ := leads_resume hAwaits hHere (.inl trivial) hGoesOn
    (from_target hValid (.inr ⟨target, hTarget, rfl⟩) (.inl trivial) (.inl trivial)
      fun n _ hSame hFits a hPhase hShows => by
        obtain rfl : target = n := Int.ofNat_inj.mp hSame
        exact .ended hPhase hShows.fault (hShows.keeps hFits) (Layout.shows_of_depth hShows rfl))
  exact ⟨r, b, hResume, hLeads⟩

/-- With room for every frame, and for what a target needs, the stack is never full after it. -/
theorem staysBelow_of_target {target : Nat} (hValid : l.Valid m)
    (hOnly : ∀ a, l.free a → a ∈ l.selected) (hTarget : target < l.config.attemptModulus)
    (hRoom : l.config.slotCount + l.selected.toFinset.card + 4 < depth) (hDepth : 8 < depth)
    (hAwaits : e.phase = .awaitingInput) (hAt : l.AtTarget (.idle depth) m [] printed random e) :
    e.StaysBelow target := by
  obtain ⟨r, b, hResume, -⟩ := leads_aiming hValid (hTarget.trans l.modulus_lt) hAwaits hAt
  have hLess : depth - 1 < depth := by omega
  have hLeads : (l.terms (l.inTurn σ hLess.le (m.cell .failures))).Leads b :=
    leads_of_target hValid hOnly hTarget (by omega) (by omega) hAt hResume
  exact hLeads.staysBelow (fun _ => id) id hLess hResume

end Hit

-- ---------------------------------------------------------------------------
-- Memories that somebody else has prepared
-- ---------------------------------------------------------------------------

/-- The layout of the same program, with every slot free to hold what it likes. -/
def Layout.loosened (l : Layout) : Layout where
  __ := l
  free _ := True
  selected_free _ _ := trivial

end Seeker

/-- The beginning of an iteration outside any routine, in a memory that is as the encoder writes
it, with data in the data cells. -/
structure GoalSeeker.BeginsClean {σ : Type} (s : GoalSeeker) (attempt : Nat)
    (slots : Nat → SlotKind) (e : Engine σ) : Prop extends s.Begins attempt slots e where
  calls : e.callStack = []
  fault : e.fault = none
  data : ∀ a ∈ s.cells.addresses, ∃ v, DecodesTo e.program a (.data v)
  canonical : ∀ (a : Nat) (chunk : Chunk), e.program[a]? = some chunk →
    canonicalForm chunk = .ok chunk

namespace Seeker

section Loosened

variable {σ : Type} {l : Layout} {seeker : GoalSeeker} {target attempt : Nat}
  {slots : Nat → SlotKind} {e e' : Engine σ} {depth : Nat} {m : Contents} {printed : List Word}
  {random : σ}

/-- In a memory that is as the encoder writes it, a record has one spelling. -/
theorem getElem?_of_canonical {cells : Array Chunk} {a : Nat} {r : Record}
    (hCanonical : ∀ chunk, cells[a]? = some chunk → canonicalForm chunk = .ok chunk)
    (h : DecodesTo cells a r) : cells[a]? = some r.chunk ∧ r.WellFormed := by
  obtain ⟨chunk, hChunk, hDecode⟩ := h
  obtain ⟨-, hWellFormed, -⟩ := chunk_dvd_of_decode hDecode
  have hForm := hCanonical chunk hChunk
  unfold canonicalForm at hForm
  rw [hDecode] at hForm
  obtain ⟨-, hSame⟩ := encode_eq_ok_iff.mp hForm
  exact ⟨hSame ▸ hChunk, hWellFormed⟩

/-- The contents of a prepared memory. -/
theorem exists_contents (h : l.Describes seeker target)
    (hBegins : seeker.BeginsClean attempt slots e) :
    ∃ m, l.loosened.Valid m ∧ m.attempt = attempt ∧ Holds e.program (l.loosened.picture m) := by
  let m : Contents :=
    ⟨attempt, slots, fun d => (readCell e.program (l.linking.label d.label)).getD 0⟩
  have hPlain : ∀ {a : Nat} {r : Record}, DecodesTo e.program a r →
      e.program[a]? = some r.chunk ∧ r.WellFormed :=
    fun hDecodes => getElem?_of_canonical (hBegins.canonical _) hDecodes
  have hCell : ∀ d : DataCell,
      DecodesTo e.program (l.linking.label d.label) (.data (m.cell d)) := by
    intro d
    obtain ⟨v, hDecodes⟩ := hBegins.data _ ((mem_addresses h).mpr ⟨d, rfl⟩)
    have hValue : m.cell d = v := congrArg (·.getD 0) hDecodes.readCell
    rwa [hValue]
  refine ⟨m, ⟨attempt_lt_of_decodesTo hBegins.attempt, fun d => (hPlain (hCell d)).2,
    fun _ hFixed => absurd trivial hFixed⟩, rfl, fun a => ?_⟩
  show e.program[a]? = (l.picture m a).map Record.chunk
  -- address zero, the slots, the data cells and the text, in this order
  rcases Nat.eq_zero_or_pos a with rfl | hPos
  · rw [l.picture_zero]
    exact (hPlain hBegins.attempt).1
  · rcases Nat.lt_or_ge l.config.slotCount a with hBeyond | hSlot
    · by_cases hData : ∃ d : DataCell, a = l.linking.label d.label
      · obtain ⟨d, rfl⟩ := hData
        rw [l.picture_cell]
        exact (hPlain (hCell d)).1
      · have hOutside : a ∉ seeker.cells.addresses := fun ha => hData ((mem_addresses h).mp ha)
        rw [hBegins.text a (h.slotCount ▸ hBeyond) hOutside, ← List.getElem?_toArray, h.program a,
          picture_eq_of_beyond _ _ hBeyond (not_exists.mp hData)]
    · rw [l.picture_slot m hPos hSlot]
      refine (hPlain (hBegins.slot a (List.mem_range'_1.mpr ⟨hPos, ?_⟩))).1
      rw [h.slotCount]
      omega

/-- An iteration from the beginning ends at the request for feedback. -/
theorem atFeedback_of_steps [RandomSource σ] {n : Nat} (h : l.Describes seeker target)
    (hBegins : seeker.BeginsClean attempt slots e) (hValid : l.loosened.Valid m)
    (hHolds : Holds e.program (l.loosened.picture m)) (hSteps : e.steps n = .ok e')
    (hAwaits : e'.phase = .awaitingInput) :
    l.loosened.AtFeedback (.idle e.maxStackDepth) m [] e.printed e.random e' := by
  let w : Watch σ :=
    { Watch.idle e.maxStackDepth with
      waits := l.loosened.AtFeedback (.idle e.maxStackDepth) m [] e.printed e.random }
  have hFrom : (l.loosened.terms w).From 0 ⟨l.loosened.picture m, List.replicate
      l.config.slotCount 0 ++ [(l.config.frameMarker : Int)], [], e.printed, e.random⟩ :=
    from_iteration hValid (.inl trivial) fun _ _ hAt => hAt.of_depth rfl
  have hStack : e.stack =
      List.replicate l.config.slotCount 0 ++ [(l.config.frameMarker : Int)] := by
    rw [hBegins.stack, GoalSeeker.initialStack, h.slotCount, h.frameMarker]
  have hLeads := hFrom (.inl trivial) e hBegins.free ⟨hBegins.ip, hStack, hBegins.calls, rfl, rfl,
    rfl, hBegins.fault, hHolds, _, hValid, rfl⟩
  exact (hLeads.steps (fun _ => id) hSteps).waits hAwaits

/-- A memory that holds a picture is as the encoder writes it. -/
theorem Layout.Describes.beginsClean (h : l.Describes seeker target) (hValid : l.Valid m)
    (hPhase : e.phase.canStep = true)
    (hShows : (l.terms (.idle depth)).Shows ⟨l.picture m, List.replicate l.config.slotCount 0 ++
      [(l.config.frameMarker : Int)], [], printed, random⟩ 0 e) :
    seeker.BeginsClean m.attempt m.slots e where
  toBegins := h.begins hValid hShows.cells hPhase hShows.ip (by
    rw [hShows.stack, GoalSeeker.initialStack, h.slotCount, h.frameMarker])
  calls := hShows.calls
  fault := hShows.fault
  data a ha := by
    obtain ⟨d, rfl⟩ := (mem_addresses h).mp ha
    exact ⟨_, decodesTo_of_holds hValid hShows.cells (l.picture_cell m d)⟩
  canonical a chunk hChunk := by
    have hCell : e.program[a]? = (l.picture m a).map Record.chunk := hShows.cells a
    rw [hCell] at hChunk
    obtain ⟨r, hRecord, rfl⟩ := Option.map_eq_some_iff.mp hChunk
    have hWellFormed := Layout.picture_wellFormed hValid hRecord
    unfold canonicalForm
    rw [hWellFormed.decode_chunk]
    exact hWellFormed.encode_chunk

/-- A target changes address zero and three of the data cells. -/
theorem picture_retarget_of_ne {n a : Nat} (hZero : a ≠ 0)
    (hPrevious : a ≠ l.linking.label previousCell) (hSlot : a ≠ l.linking.label lastSlotCell)
    (hKind : a ≠ l.linking.label lastKindCell) : l.picture (l.retarget m n) a = l.picture m a := by
  unfold Layout.retarget
  rw [Layout.picture_store_of_ne (d := .lastKind) hKind,
    Layout.picture_store_of_ne (d := .lastSlot) hSlot, Layout.picture_aim_of_ne hZero,
    Layout.picture_store_of_ne (d := .previous) hPrevious]

/-- A program falls back on the first of its selected slots. -/
theorem head_selected (h : l.Describes seeker target) :
    seeker.selectedSlots[0]? = some (l.linking.slot .fallback) := by
  have hPos : 0 < seeker.selectedSlots.length := by
    rw [h.selected]
    exact l.selected_pos
  rw [← h.linking]
  cases hSelected : seeker.selectedSlots with
  | nil => simp [hSelected] at hPos
  | cons first others => rfl

/-- What has changed at the wait for a target. -/
theorem cleared_of_atTarget (h : l.Describes seeker target)
    (hValid : l.loosened.Valid (m.store .failures 0))
    (hAt : l.loosened.AtFeedback (.idle depth) m [] printed random e)
    (hAwaits : e'.phase = .awaitingInput)
    (hThere : l.loosened.AtTarget (.idle depth) (m.store .failures 0) [] e.printed random e') :
    seeker.Cleared e e' := by
  have hInput : DecodesTo e'.program (l.config.slotCount + 19) (.ofOpcode .input) :=
    decodesTo_of_holds hValid hThere.cells (Layout.picture_of_text _ l.loosened.text_successInput)
  have hCell := readCell_of_holds hValid hThere.cells .failures
  rw [m.store_cell_self] at hCell
  constructor
  · exact (atSuccessInput_of_ip h hAwaits hThere.ip hInput).1
  · exact hThere.stack
  · rw [h.cells]
    exact hCell
  · intro a ha
    rw [h.cells] at ha
    exact cells_eq_of_holds hAt.cells hThere.cells (Layout.picture_store_of_ne (d := .failures) ha)
  · exact hThere.printed
  · exact hThere.random.trans hAt.random.symm

/-- What has changed at the beginning of the iteration on a target. -/
theorem aimed_of_shows {next : Nat} (h : l.Describes seeker target)
    (hValid : l.loosened.Valid (l.loosened.retarget m next))
    (hAt : l.loosened.AtTarget (.idle depth) m [] printed random e)
    (hPhase : e'.phase.canStep = true) (hThere : (l.loosened.terms (.idle depth)).Shows
      ⟨l.loosened.picture (l.loosened.retarget m next), List.replicate l.config.slotCount 0 ++
        [(l.config.frameMarker : Int)], [], printed, random⟩ 0 e') :
    seeker.Aimed next e e' := by
  have hCells := readCell_of_holds hValid hThere.cells
  constructor
  · exact hPhase
  · exact hThere.ip
  · rw [hThere.stack, GoalSeeker.initialStack, h.slotCount, h.frameMarker]
  · exact decodesTo_of_holds hValid hThere.cells (l.loosened.picture_zero _)
  · rw [h.cells]
    exact (hCells .previous).trans (congrArg some (l.loosened.retarget_previous m next))
  · refine ⟨_, head_selected h, ?_⟩
    rw [h.cells]
    exact (hCells .lastSlot).trans (congrArg some (l.loosened.retarget_lastSlot m next))
  · rw [h.cells]
    exact (hCells .lastKind).trans (congrArg some (l.loosened.retarget_lastKind m next))
  · intro a hZero hPrevious hSlot hKind
    rw [h.cells] at hPrevious hSlot hKind
    exact cells_eq_of_holds hAt.cells hThere.cells
      (picture_retarget_of_ne hZero hPrevious hSlot hKind)
  · exact hThere.printed.trans hAt.printed.symm
  · exact hThere.random.trans hAt.random.symm

end Loosened

end Seeker

-- ---------------------------------------------------------------------------
-- The success path
-- ---------------------------------------------------------------------------

/-- **A hit leads on to the next target.** A goal-seeker that was built has made an iteration, from
its beginning with slots of any kind and an attempt below the modulus. It is told that it has hit,
and its stack does not reach the limit. Then, without a word printed or drawn, it comes to its
request for a target, with an empty stack and no failures counted. From there each target below the
modulus brings it to the beginning of an iteration on that target, if the stack still does not reach
the limit. But for address zero and the data cells, neither path changes anything in memory. -/
theorem hit_leads_on {config : SeekerConfig} {protocol : ProtocolConfig} {b b' : SeekerBuilder}
    {bank : SlotBank} {target streak : Nat} {seeker : GoalSeeker}
    (hStart : SeekerBuilder.start config protocol = .ok b)
    (hBuild : (SeekerBuilder.build target streak).run { b with bank } = .ok seeker b')
    {attempt : Nat} {slots : Nat → SlotKind} {e₀ e : Engine σ} {n : Nat}
    (hBegins : seeker.BeginsClean attempt slots e₀) (hAttempt : attempt < config.attemptModulus)
    (hSteps : e₀.steps n = .ok e) (hWaits : seeker.AtMainInput e)
    (hBelow : e.StaysBelow protocol.successFeedback) :
    ∃ e₁, e.ComesTo protocol.successFeedback e₁ ∧ seeker.Cleared e e₁ ∧
      ∀ next : Nat, next < config.attemptModulus → e₁.StaysBelow next →
        ∃ e₂, e₁.ComesTo next e₂ ∧ seeker.Aimed next e₁ e₂ := by
  obtain ⟨l, rfl, rfl, hDescribes⟩ := exists_layout hStart hBuild
  obtain ⟨m, hValid, rfl, hHolds⟩ := exists_contents hDescribes hBegins
  -- the iteration ends at the request for feedback
  obtain ⟨-, -, hAwaits, -⟩ := id hWaits
  have hAt := atFeedback_of_steps hDescribes hBegins hValid hHolds hSteps hAwaits
  obtain ⟨r, b₁, hResume, hLeads⟩ := leads_clearing hValid hAttempt hAwaits hAt
  obtain ⟨e₁, hComes, ⟨hAwaits₁, hTarget⟩ | ⟨-, hEnds⟩⟩ :=
    exists_comesTo (fun _ h => h) hResume hLeads hBelow
  · have hValid₁ : l.loosened.Valid (m.store .failures 0) := hValid.store .failures (by decide)
    refine ⟨e₁, hComes, cleared_of_atTarget hDescribes hValid₁ hAt hAwaits₁ hTarget,
      fun next hNext hBelow₁ => ?_⟩
    have hNextLt : next < primeCount := Nat.lt_trans hNext l.modulus_lt
    obtain ⟨r, b₂, hResume₂, hLeads₂⟩ := leads_aiming hValid₁ hNextLt hAwaits₁ hTarget
    obtain ⟨e₂, hComes₂, ⟨-, hNever⟩ | ⟨hPhase, hShows⟩⟩ :=
      exists_comesTo (fun _ h => h) hResume₂ hLeads₂ hBelow₁
    · exact hNever.elim
    · exact ⟨e₂, hComes₂, aimed_of_shows hDescribes (Layout.Valid.retarget hValid₁ hNextLt) hTarget
        hPhase hShows⟩
  · exact hEnds.elim

/-- A single slot that holds a push is no obstacle to a hit, nor to a five as the next target. -/
theorem hit_leads_on_pushing : ∃ b seeker b', ∃ (e₀ e e₁ e₂ : Engine (List Nat)) (n : Nat),
    SeekerBuilder.start { slotCount := 1 } {} = .ok b ∧
    (SeekerBuilder.build 3 0).run b = .ok seeker b' ∧
    seeker.BeginsClean 3 (Function.update (fun _ => .nop) 1 .push) e₀ ∧ e₀.steps n = .ok e ∧
    seeker.AtMainInput e ∧ e.ComesTo 1 e₁ ∧ seeker.Cleared e e₁ ∧ e₁.ComesTo 5 e₂ ∧
    seeker.Aimed 5 e₁ e₂ := by
  obtain ⟨b, seeker, b', l, e₀, hStart, hBuild, hDescribes, hConfig, hProtocol, hSelected, hValid,
    hFree, hShows⟩ := exists_pushing
  have hPushes : l.pushes ((Contents.start 3).rewrite 1 .push) = 1 := by
    unfold Layout.pushes
    rw [hConfig]
    decide
  have hAttempt : ((Contents.start 3).rewrite 1 .push).attempt < l.config.attemptModulus := by
    rw [hConfig]
    decide
  have hBegins := hDescribes.beginsClean hValid hFree hShows
  obtain ⟨n, e, hSteps, hAwaits, hAt⟩ := exists_wait hValid (by rw [hConfig, hPushes]; decide)
    hFree hShows
  have hWaits := (atMainInput_of_atFeedback hDescribes hValid hAwaits hAt).1
  have hFive : 5 < l.config.attemptModulus := by
    rw [hConfig]
    decide
  have hSuccess : l.protocol.successFeedback = 1 := by rw [hProtocol]
  have hBelow : e.StaysBelow 1 := by
    have hBelow := staysBelow_of_hit hValid hAttempt (by rw [hConfig, hPushes]; decide) hAwaits hAt
    rwa [hSuccess] at hBelow
  obtain ⟨e₁, hComes, hCleared, hNext⟩ := hit_leads_on hStart (b := b) hBuild hBegins
    (by decide) hSteps hWaits hBelow
  have hBelow₁ : e₁.StaysBelow (5 : Nat) := by
    obtain ⟨-, -, -, -, hAwaits₁, -⟩ := id hCleared.waits
    have hAt₁ := atTarget_of_comesTo hValid hAttempt hAwaits hAt (hSuccess ▸ hComes) hAwaits₁
    exact staysBelow_of_target (hValid.store .failures (by decide)) hDescribes.free hFive
      (by rw [hConfig, hSelected]; decide) (by decide) hAwaits₁ hAt₁
  obtain ⟨e₂, hComes₂, hAimed⟩ := hNext 5 (by decide) hBelow₁
  exact ⟨b, seeker, b', e₀, e, e₁, e₂, n, hStart, hBuild, hBegins, hSteps, hWaits, hComes, hCleared,
    hComes₂, hAimed⟩

end FactorMachine
