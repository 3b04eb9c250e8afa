import FactorMachine.Proofs.Seeker.Distinct
import FactorMachine.Proofs.Seeker.SuccessPath
import FactorMachine.Proofs.Trainer.Training

/-!
# FactorMachine — every outcome reaches the slot that it is owed to

A session reads from the program's own memory to which slot an outcome belongs: the program keeps
the address of its last slot in a data cell. It writes that cell when it is given a target, with the
address of the first of its selected slots. A fresh program has zero there, which is no slot's
address, and keeps it until the first attempt has been judged and a target been sent. So what the
cell holds at the request for feedback tells whether an attempt was judged since the program was
loaded.

The slots of the bank share out the addresses that a program has for slots, whatever addresses they
have traded since, so exactly one of them is at the address in the cell.

`Owed` is the invariant. It goes with the row of episodes that led to a session, from which `tried`
tells what has happened since the program was loaded.

## Results

* `Owed.cycle`         — what a cycle does to the slots, and that it keeps the invariant.
* `owed_life`          — every episode in the life of a session.
* `outcomes_reach_one` — to which slot each outcome goes.
-/

namespace FactorMachine

namespace Seeker

open Terms

-- ---------------------------------------------------------------------------
-- The cell of the last slot
-- ---------------------------------------------------------------------------

variable {σ : Type} [RandomSource σ] {l : Layout} {depth : Nat} {m : Contents}
  {printed : List Word} {random : σ} {a : Engine σ}

/-- The stretch to the wait for feedback, with an address in the cell of the last slot. -/
def Layout.marked (σ : Type) (l : Layout) (depth address : Nat) : Watch σ :=
  .sure depth fun e => ∃ m printed random, l.Valid m ∧ m.Steady ∧ m.cell .lastSlot = address ∧
    l.AtFeedback (.idle depth) m [] printed random e

/-- The address in the cell of the last slot when feedback is asked for: after a first attempt has
been judged it is that of a slot. -/
def Layout.owed (l : Layout) (tried : Bool) : Nat :=
  if tried then l.linking.slot .fallback else 0

/-- An iteration leaves the cell as it is. -/
theorem from_zero_marked (hValid : l.Valid m) (hSteady : m.Steady)
    (hDepth : l.config.slotCount + 8 ≤ depth) (printed : List Word) (random : σ) :
    (l.terms (l.marked σ depth (m.cell .lastSlot))).From 0 ⟨l.picture m,
      List.replicate l.config.slotCount 0 ++ [(l.config.frameMarker : Int)], [], printed,
        random⟩ :=
  from_zero_sure hValid hSteady hDepth printed random fun _ _ hAt =>
    ⟨m, printed, random, hValid, hSteady, rfl, hAt⟩

/-- A target brings the address of a slot into the cell. -/
theorem leads_of_marked_target {target : Nat} (hValid : l.Valid m) (hSteady : m.Steady)
    (hDepth : l.config.slotCount + 8 ≤ depth) (hTarget : target < primeCount)
    (hAwaits : a.phase = .awaitingInput) (hAt : l.AtTarget (.idle depth) m [] printed random a) :
    ∃ r b, a.resume target = .ok (r, b) ∧ b.Standing r ∧ b.Settled ∧
      (l.terms (l.marked σ depth (l.linking.slot .fallback))).Leads b :=
  leads_of_target_sure hValid hSteady hDepth hTarget hAwaits hAt fun _ _ hThere =>
    ⟨_, _, _, hValid.retarget hTarget, hSteady, l.retarget_lastSlot m target, hThere⟩

/-- The address of every slot holds a chunk. -/
theorem exists_chunk_of_slot {cells : Array Chunk} (hHolds : Holds cells (l.picture m)) {i : Nat}
    (hFirst : 1 ≤ i) (hLast : i ≤ l.config.slotCount) : ∃ chunk, cells[i]? = some chunk :=
  ⟨_, hHolds.read (l.picture_slot m hFirst hLast)⟩

end Seeker

namespace SlotBank

/-- Slots in rotation are apart. -/
theorem Rotating.distinct {n : Nat} {b : SlotBank} (h : b.Rotating n) : b.Distinct := by
  refine ⟨h.addresses.nodup_iff.mpr List.nodup_range', fun hZero => ?_⟩
  rw [h.addresses.mem_iff, List.mem_range'_1] at hZero
  omega

/-- An outcome at one of the addresses of the slots goes to the one slot that is there. -/
theorem Rotating.recordOutcome_spec {n : Nat} {b : SlotBank} (h : b.Rotating n) {address : Nat}
    (hFirst : 1 ≤ address) (hLast : address ≤ n) (instruction : Chunk) (success : Bool) :
    ∃ front slot back, b.slots = front ++ slot :: back ∧ slot.address = address ∧
      (∀ other ∈ front ++ back, other.address ≠ address) ∧
      (b.recordOutcome address instruction success).2 = { b with
        slots := front ++
          { slot with instruction, outcomes := slot.outcomes.push success } :: back } := by
  rcases recordOutcome_cases b address instruction success with
    ⟨-, hNone⟩ | ⟨front, slot, back, hSlots, hAddress, hRecorded⟩
  · -- there is a slot at each of the addresses
    refine absurd ?_ hNone
    rw [h.addresses.mem_iff, List.mem_range'_1]
    omega
  · rw [hRecorded]
    exact ⟨front, slot, back, hSlots, hAddress, hAddress ▸ h.distinct.address_ne hSlots, rfl⟩

end SlotBank

namespace Session

open Seeker Terms

variable {σ : Type} [RandomSource σ]

-- ---------------------------------------------------------------------------
-- Credit
-- ---------------------------------------------------------------------------

/-- The outcome of an attempt has gone to one slot, the one at the address in the cell of the last
slot when the engine waited for feedback, together with the chunk that was at that address. All the
other slots are as they were, and so is everything else in the bank. -/
def Credited (before : Session σ) (success : Bool) (after : Session σ) : Prop :=
  ∃ (e : Engine σ) (address : Nat) (instruction : Chunk) (front : List Slot) (slot : Slot)
    (back : List Slot),
    runToInput.run before = .ok () { before with engine := e } ∧
    readCell e.program before.seeker.cells.lastSlot = some address ∧
    e.program[address]? = some instruction ∧
    before.builder.bank.slots = front ++ slot :: back ∧ slot.address = address ∧
    (∀ other ∈ front ++ back, other.address ≠ address) ∧
    after.builder.bank = { before.builder.bank with
      slots := front ++
        { slot with instruction, outcomes := slot.outcomes.push success } :: back }

/-- What becomes of the slots in an episode, where `tried` says whether an attempt has been judged
since the program was loaded. -/
def Episode.Credits (tried : Bool) : Episode σ → Prop
  | .cycle before (.ok report after) =>
    match report.success with
    | some success =>
      if tried then Credited before success after
      else after.builder.bank = before.builder.bank
    | none => after.builder.bank = before.builder.bank
  | .cycle before (.error _ after) => after.builder.bank = before.builder.bank
  | .rebuild _ => True

omit [RandomSource σ] in
/-- Whether an attempt has been judged since the program was loaded, after one more episode. -/
def Episode.tries (tried : Bool) : Episode σ → Bool
  | .cycle _ (.ok report _) => tried || report.success.isSome
  | .cycle _ (.error _ _) => tried
  | .rebuild _ => false

/-- Every episode in a row does to the slots what it should. -/
def AllCredit : Bool → List (Episode σ) → Prop
  | _, [] => True
  | tried, episode :: later => episode.Credits tried ∧ AllCredit (episode.tries tried) later

theorem allCredit_append {xs ys : List (Episode σ)} {tried : Bool} :
    AllCredit tried (xs ++ ys) ↔
      AllCredit tried xs ∧ AllCredit (xs.foldl Episode.tries tried) ys := by
  induction xs generalizing tried with
  | nil => exact (iff_of_eq (true_and _)).symm
  | cons episode later ih => exact (and_congr_right fun _ => ih).trans and_assoc.symm

-- ---------------------------------------------------------------------------
-- The invariant
-- ---------------------------------------------------------------------------

/-- The engine is on its way to the wait that the controller expects, with the right address in the
cell of the last slot where that wait is for feedback. -/
structure Owed (c : Config) (tried : Bool) (s : Session σ) : Prop where
  supplied : Supplied c s
  engine : ∃ l : Layout, l.config = c.seeker ∧ l.protocol = c.protocol ∧
    (∃ target, l.Describes s.seeker target) ∧
    match s.controller.phase with
    | .awaitingAttemptResult =>
      (l.terms (l.marked σ c.engine.maxStackDepth (l.owed tried))).Leads s.engine
    | .sendTarget =>
      tried = true ∧ (l.terms (l.steadyTarget σ c.engine.maxStackDepth)).Leads s.engine

variable {c : Config} {s s' : Session σ} {tried : Bool}

theorem Owed.of_awaiting {l : Layout} {target : Nat} (hSupplied : Supplied c s)
    (hSeeker : l.config = c.seeker) (hProtocol : l.protocol = c.protocol)
    (hDescribes : l.Describes s.seeker target)
    (hPhase : s.controller.phase = .awaitingAttemptResult)
    (hLeads : (l.terms (l.marked σ c.engine.maxStackDepth (l.owed tried))).Leads s.engine) :
    Owed c tried s :=
  ⟨hSupplied, l, hSeeker, hProtocol, ⟨target, hDescribes⟩, by rw [hPhase]; exact hLeads⟩

theorem Owed.of_sending {l : Layout} {target : Nat} (hSupplied : Supplied c s)
    (hSeeker : l.config = c.seeker) (hProtocol : l.protocol = c.protocol)
    (hDescribes : l.Describes s.seeker target) (hPhase : s.controller.phase = .sendTarget)
    (hLeads : (l.terms (l.steadyTarget σ c.engine.maxStackDepth)).Leads s.engine) :
    Owed c true s :=
  ⟨hSupplied, l, hSeeker, hProtocol, ⟨target, hDescribes⟩, by rw [hPhase]; exact ⟨rfl, hLeads⟩⟩

/-- A fresh program has no slot's address in the cell. -/
theorem marked_of_build {b b' : SeekerBuilder} {target streak : Nat} {seeker : GoalSeeker}
    {e : Engine σ} (hConsistent : c.Consistent) (hConfig : b.config = c.seeker)
    (hProtocol : b.protocol = c.protocol)
    (hBuild : (SeekerBuilder.build target streak).run b = .ok seeker b')
    (hDepth : e.maxStackDepth = c.engine.maxStackDepth) :
    ∃ l : Layout, l.config = c.seeker ∧ l.protocol = c.protocol ∧
      (∃ target, l.Describes seeker target) ∧
      (l.terms (l.marked σ c.engine.maxStackDepth (l.owed false))).Leads
        (e.reinitialize seeker.program seeker.initialStack) := by
  obtain ⟨-, l, hSeeker, hLayoutProtocol, hDescribes, hRoom⟩ :=
    layout_of_build hConsistent hConfig hProtocol hBuild
  have hFrom := from_zero_marked (l := l) (m := .start target) hDescribes.valid (fun _ => rfl)
    hRoom [] e.random
  have hStart : l.config.slotCount + 1 ≤ c.engine.maxStackDepth := by omega
  exact ⟨l, hSeeker, hLayoutProtocol, ⟨target, hDescribes⟩,
    hFrom (Layout.fits_start hStart) _ rfl (hDescribes.shows_reinitialize hDepth)⟩

theorem owed_start {random₁ random₂ : σ} (h : start c random₁ random₂ = .ok s) :
    Owed c false s := by
  have hSupplied := supplied_start h
  obtain ⟨builder, seeker, builder', -, hBuilder, hBuild, rfl⟩ := start_eq_ok h
  obtain ⟨⟨hConfig, hProtocol⟩, -⟩ := SeekerBuilder.start_spec hBuilder
  exact ⟨hSupplied, marked_of_build hSupplied.inStep.consistent hConfig hProtocol hBuild
    (e := Engine.start [] [] c.engine.maxStackDepth c.engine.historyLimit random₁) rfl⟩

/-- A rebuilding begins anew. -/
theorem Owed.rebuilt (h : Supplied c s) (hRun : reinitialize.run s = .ok () s') :
    Owed c false s' := by
  have hSupplied := h.reinitialize
  rw [hRun] at hSupplied
  rw [reinitialize_eq] at hRun
  split at hRun
  · cases hRun
  · rename_i seeker builder hBuild
    cases hRun
    exact ⟨hSupplied, marked_of_build h.inStep.consistent h.inStep.builderConfig
      h.inStep.builderProtocol hBuild h.inStep.engine.depth⟩

theorem Owed.restarted (h : Supplied c s) (hRun : restart.run s = .ok () s') :
    Owed c false s' := by
  rw [restart_eq] at hRun
  split at hRun
  · cases hRun
  · exact .rebuilt (s := { s with restarts := s.restarts + 1 })
      ⟨{ h.inStep with }, h.builder⟩ hRun

-- ---------------------------------------------------------------------------
-- Cycles
-- ---------------------------------------------------------------------------

omit [RandomSource σ] in
/-- An outcome that is owed to no slot goes to none. -/
theorem recordSlotOutcome_of_zero
    (hRead : readCell s.engine.program s.seeker.cells.lastSlot = some 0) (success : Bool) :
    s.recordSlotOutcome success = s := by
  unfold recordSlotOutcome
  rw [hRead]
  dsimp only
  split
  · rfl
  · rw [if_pos rfl]

omit [RandomSource σ] in
theorem recordSlotOutcome_of_ne {address : Nat} {instruction : Chunk}
    (hRead : readCell s.engine.program s.seeker.cells.lastSlot = some address)
    (hChunk : s.engine.program[address]? = some instruction) (hNonzero : address ≠ 0)
    (success : Bool) : (s.recordSlotOutcome success).builder.bank =
      (s.builder.bank.recordOutcome address instruction success).2 := by
  unfold recordSlotOutcome
  rw [hRead]
  dsimp only
  rw [hChunk]
  dsimp only
  rw [if_neg hNonzero]
  rfl

/-- The outcome of an attempt goes to the slot in the cell, if there is one. -/
theorem credits_of_judged {l : Layout} {target : Nat} {m : Contents} {depth : Nat}
    {printed : List Word} {random : σ} {e : Engine σ} {report : CycleReport} {success : Bool}
    (hSupplied : Supplied c s) (hSeeker : l.config = c.seeker)
    (hDescribes : l.Describes s.seeker target) (hValid : l.Valid m)
    (hMark : m.cell .lastSlot = l.owed tried)
    (hAt : l.AtFeedback (.idle depth) m [] printed random e)
    (hRun : runToInput.run s = .ok () { s with engine := e })
    (hSuccess : report.success = some success)
    (hBuilder : s'.builder = ({ s with engine := e }.recordSlotOutcome success).builder) :
    (Episode.cycle s (.ok report s')).Credits tried := by
  have hRead : readCell e.program s.seeker.cells.lastSlot = some (l.owed tried) := by
    rw [hDescribes.cells, ← hMark]
    exact readCell_of_holds hValid hAt.cells .lastSlot
  unfold Episode.Credits
  dsimp only
  rw [hSuccess]
  dsimp only
  cases tried with
  | false =>
    rw [if_neg Bool.false_ne_true, hBuilder,
      recordSlotOutcome_of_zero (s := { s with engine := e }) hRead success]
  | true =>
    obtain ⟨hFirst, hLast⟩ := l.selected_range _ l.slot_fallback
    obtain ⟨instruction, hChunk⟩ := exists_chunk_of_slot hAt.cells hFirst hLast
    obtain ⟨front, slot, back, hSlots, hAddress, hOthers, hRecorded⟩ :=
      hSupplied.builder.rotating.recordOutcome_spec hFirst (hSeeker ▸ hLast) instruction success
    have hBank := recordSlotOutcome_of_ne (s := { s with engine := e }) hRead hChunk
      (Nat.pos_iff_ne_zero.mp hFirst) success
    rw [if_pos rfl]
    refine ⟨e, _, instruction, front, slot, back, hRun, hRead, hChunk, hSlots, hAddress, hOthers,
      ?_⟩
    rw [hBuilder, hBank]
    exact hRecorded

/-- A cycle that expects an attempt credits its outcome, or it runs out of steps. -/
theorem Owed.cycle_judged (h : Owed c tried s)
    (hPhase : s.controller.phase = .awaitingAttemptResult) :
    (Episode.cycle s (cycle.run s)).Credits tried ∧
      Owed c ((Episode.cycle s (cycle.run s)).tries tried) (stateAfter (cycle.run s)) := by
  have hSupplied := h.supplied.cycle
  obtain ⟨l, hSeeker, hProtocol, ⟨target, hDescribes⟩, hTrack⟩ := h.engine
  rw [hPhase] at hTrack
  obtain ⟨e, hLeads, -, hCycle | ⟨hAwaits, hRun⟩⟩ :=
    cycle_of_leads hTrack id (fun _ => id) h.supplied.inStep.settled
  · -- the engine is still on its way, and nothing else has changed
    rw [hCycle] at hSupplied ⊢
    exact ⟨rfl, .of_awaiting hSupplied hSeeker hProtocol hDescribes hPhase hLeads⟩
  · obtain ⟨m, printed, random, hValid, hSteady, hMark, hAt⟩ := hLeads.waits hAwaits
    obtain ⟨s', -, ⟨hCycle, -⟩ | ⟨report, hCycle, -, hInput, -, hThen⟩⟩ :=
      cycle_hit h.supplied.inStep hPhase
    · rw [runToInput_of_exhausted hCycle] at hRun
      cases hRun
    obtain ⟨success, hSuccess, hBuilder, hSame, result, hResume⟩ :=
      judged_of_cycle hRun hPhase hCycle
    -- every attempt is a hit, so the program goes on to the wait for a target
    obtain ⟨r, b, hResumed, -, -, hTarget⟩ := leads_of_steady_hit (l := l) hValid hSteady
      (hSeeker ▸ h.supplied.inStep.consistent.depth) hAwaits hAt
    rw [hProtocol, ← hInput] at hResumed
    cases hResume.symm.trans hResumed
    rw [hCycle] at hSupplied ⊢
    refine ⟨credits_of_judged h.supplied hSeeker hDescribes hValid hMark hAt hRun hSuccess hBuilder,
      ?_⟩
    have hTried : (Episode.cycle s (.ok report s')).tries tried = true := by
      unfold Episode.tries
      dsimp only
      rw [hSuccess]
      exact Bool.or_true tried
    rw [hTried]
    exact .of_sending hSupplied hSeeker hProtocol (hSame ▸ hDescribes) hThen hTarget

/-- A cycle that sends a target brings the address of a slot into the cell, or it runs out of
steps. -/
theorem Owed.cycle_sent (h : Owed c tried s) (hPhase : s.controller.phase = .sendTarget) :
    (Episode.cycle s (cycle.run s)).Credits tried ∧
      Owed c ((Episode.cycle s (cycle.run s)).tries tried) (stateAfter (cycle.run s)) := by
  have hSupplied := h.supplied.cycle
  obtain ⟨l, hSeeker, hProtocol, ⟨target, hDescribes⟩, hTrack⟩ := h.engine
  rw [hPhase] at hTrack
  obtain ⟨rfl, hTrack⟩ := hTrack
  obtain ⟨e, hLeads, -, hCycle | ⟨hAwaits, hRun⟩⟩ :=
    cycle_of_leads hTrack id (fun _ => id) h.supplied.inStep.settled
  · rw [hCycle] at hSupplied ⊢
    exact ⟨rfl, .of_sending hSupplied hSeeker hProtocol hDescribes hPhase hLeads⟩
  · obtain ⟨m, printed, random, hValid, hSteady, hAt⟩ := hLeads.waits hAwaits
    obtain ⟨s', -, ⟨hCycle, -⟩ | ⟨report, hCycle, -, hInput, -, hThen⟩⟩ :=
      cycle_send h.supplied.inStep hPhase
    · rw [runToInput_of_exhausted hCycle] at hRun
      cases hRun
    obtain ⟨hSuccess, hBuilder, hSame, result, hResume⟩ := sent_of_cycle hRun hPhase hCycle
    obtain ⟨r, b, hResumed, -, -, hFeedback⟩ := leads_of_marked_target (l := l) hValid hSteady
      (hSeeker ▸ h.supplied.inStep.consistent.depth) (h.supplied.inStep.target_spec hSeeker).1
      hAwaits hAt
    rw [← hInput] at hResumed
    cases hResume.symm.trans hResumed
    rw [hCycle] at hSupplied ⊢
    refine ⟨?_, .of_awaiting hSupplied hSeeker hProtocol (hSame ▸ hDescribes) hThen hFeedback⟩
    unfold Episode.Credits
    dsimp only
    rw [hSuccess]
    exact congrArg SeekerBuilder.bank hBuilder

/-- A cycle gives an outcome to the slot that it is owed to. -/
theorem Owed.cycle (h : Owed c tried s) :
    (Episode.cycle s (cycle.run s)).Credits tried ∧
      Owed c ((Episode.cycle s (cycle.run s)).tries tried) (stateAfter (cycle.run s)) := by
  cases hPhase : s.controller.phase with
  | awaitingAttemptResult => exact h.cycle_judged hPhase
  | sendTarget => exact h.cycle_sent hPhase

-- ---------------------------------------------------------------------------
-- The life of a session
-- ---------------------------------------------------------------------------

/-- A row of episodes that leads to a session and gives every outcome to the slot that it is owed
to. -/
structure Repays (c : Config) (tried : Bool) (episodes : List (Episode σ)) (s' : Session σ) :
    Prop where
  owed : Owed c (episodes.foldl Episode.tries tried) s'
  credits : AllCredit tried episodes

theorem Repays.refl (h : Owed c tried s) : Repays c tried [] s := ⟨h, trivial⟩

theorem Repays.cons {episode : Episode σ} {later : List (Episode σ)}
    (hCredits : episode.Credits tried) (hLater : Repays c (episode.tries tried) later s') :
    Repays c tried (episode :: later) s' :=
  ⟨hLater.owed, hCredits, hLater.credits⟩

theorem Repays.append {xs ys : List (Episode σ)} {s'' : Session σ} (h : Repays c tried xs s')
    (h' : Repays c (xs.foldl Episode.tries tried) ys s'') : Repays c tried (xs ++ ys) s'' where
  owed := by
    rw [List.foldl_append]
    exact h'.owed
  credits := allCredit_append.mpr ⟨h.credits, h'.credits⟩

/-- In training every outcome goes where it is owed. -/
theorem Owed.trains {n : Nat} {happened : List (Episode σ)}
    {ending : EStateM.Result SessionError (Session σ) Unit} (h : Owed c tried s)
    (hTrains : Trains n s happened ending) : Repays c tried happened (stateAfter ending) := by
  induction hTrains generalizing tried with
  | done => exact .refl h
  | report hCycle _ ih =>
    obtain ⟨hCredits, hAfter⟩ := h.cycle
    rw [hCycle] at hCredits hAfter
    exact .cons hCredits (ih hAfter)
  | @again _ _ s₁ _ _ _ _ hCycle _ hRestart _ ih =>
    obtain ⟨hCredits, hAfter⟩ := h.cycle
    rw [hCycle] at hCredits hAfter
    exact .cons hCredits (.cons trivial (ih (Owed.restarted (s := s₁) hAfter.supplied hRestart)))
  | fatal hCycle _ =>
    obtain ⟨hCredits, hAfter⟩ := h.cycle
    rw [hCycle] at hCredits hAfter
    exact .cons hCredits (.refl hAfter)
  | stuck hCycle _ hRestart =>
    obtain ⟨hCredits, hAfter⟩ := h.cycle
    rw [hCycle] at hCredits hAfter
    refine .cons hCredits (.refl ?_)
    -- a restart that fails has changed nothing, since there is always a program
    rcases restart_error hRestart with ⟨-, -, rfl⟩ | ⟨-, -, cause, rfl⟩
    · exact hAfter
    · exact absurd hRestart (Supplied.restart_ne_assembly hAfter.supplied cause)

theorem Owed.call (h : Owed c tried s) (call : Call) :
    Repays c tried (call.episodes s) (call.after s) := by
  cases call with
  | cycle =>
    obtain ⟨hCredits, hAfter⟩ := h.cycle
    exact .cons hCredits (.refl hAfter)
  | train n =>
    obtain ⟨ending, hTrains, hRun⟩ := trains_train n s
    unfold Call.after
    dsimp only
    rw [hRun, stateAfter_withSummary]
    exact h.trains hTrains
  | rebuild =>
    obtain ⟨seeker, builder, hBuild⟩ := h.supplied.exists_build
    have hRun := reinitialize_eq s
    rw [hBuild] at hRun
    unfold Call.episodes Call.after
    dsimp only
    rw [hRun]
    exact .cons trivial (.refl (.rebuilt h.supplied hRun))

theorem owed_life (h : Owed c tried s) (calls : List Call) :
    Repays c tried (life calls s) (afterCalls calls s) := by
  induction calls generalizing tried s with
  | nil => exact .refl h
  | cons call calls ih =>
    have hCall := h.call call
    exact hCall.append (ih hCall.owed)

/-- **Every outcome reaches one slot.** In the life of a session, each judged attempt but the first
one since the program was loaded appends its outcome to the history of one slot, the one at the
address in the program's cell of the last slot, which takes the chunk that is at that address. All
other slots stay as they are. The first attempt that is judged, a cycle that sends a target and a
cycle that fails change no slot. -/
theorem outcomes_reach_one {random₁ random₂ : σ} (hStart : start c random₁ random₂ = .ok s)
    (calls : List Call) (earlier : List (Episode σ)) (episode : Episode σ)
    (later : List (Episode σ)) (hLife : life calls s = earlier ++ episode :: later) :
    episode.Credits (earlier.foldl Episode.tries false) := by
  have hCredits := (owed_life (owed_start hStart) calls).credits
  rw [hLife, allCredit_append] at hCredits
  exact hCredits.2.1

/-- With a single slot and a first draw of three there is a session. Its third cycle is the first
that may have an outcome to give to a slot. -/
theorem outcomes_reach_one_smallest : ∃ s : Session (List Nat),
    start { seeker := { slotCount := 1 } } [] [3] = .ok s ∧
      let s₁ := Call.cycle.after s
      let s₂ := Call.cycle.after s₁
      (Episode.cycle s₂ (cycle.run s₂)).Credits
        ([Episode.cycle s (cycle.run s), .cycle s₁ (cycle.run s₁)].foldl Episode.tries false) := by
  obtain ⟨b, seeker, b', hBuilder, hBuild, -⟩ := Seeker.exists_smallest
  have hTarget : (Controller.start {} {} [3] : Controller (List Nat)).target = 3 := by decide
  obtain ⟨s, hStart⟩ := exists_start (c := { seeker := { slotCount := 1 } }) [] (by decide)
    hBuilder hTarget hBuild
  exact ⟨s, hStart, outcomes_reach_one hStart [.cycle, .cycle, .cycle] [_, _] _ [] rfl⟩

end Session

end FactorMachine
