import FactorMachine.Proofs.Seeker.Depth
import FactorMachine.Proofs.Seeker.Steady
import FactorMachine.Proofs.Seeker.Waits

/-!
# FactorMachine — what a goal-seeker makes of a miss

After a miss a goal-seeker draws three numbers and changes itself as they say: address zero, one of
the selected slots and the data cells. It leaves everything else in its memory alone, and comes to
its request for feedback again with the next attempt.

Wherever a program has got to, the path is the same, as long as the stack does not fill up on it.

## Results

* `GoalSeeker.Missed`  — what has changed at the next request.
* `leads_missing`      — a miss leads there.
* `staysBelow_of_miss` — with enough room the stack is never full on the way.
* `miss_leads_on`      — the failure path, as it shows in an engine.
-/

namespace FactorMachine

open Seeker Terms

variable {σ : Type} [RandomSource σ]

/-- What a miss has made of the engine `e` by the time it is `e'`, given the word that was shown,
the data cells, and the numbers that were drawn. -/
structure GoalSeeker.Missed (s : GoalSeeker) (c : SeekerConfig) (p : ProtocolConfig)
    (shown previous failures offset place kind : Nat) (e e' : Engine σ) : Prop where
  waits : s.AtMainInput e'
  /-- Three numbers were drawn, and no more. -/
  drawn : ∃ random₁ random₂,
    RandomSource.draw 128 c.randomOffsetBound e.random = (offset, random₁) ∧
    RandomSource.draw 128 s.selectedSlots.length random₁ = (place, random₂) ∧
    RandomSource.draw 128 kindCount random₂ = (kind, e'.random)
  offset_lt : offset < c.randomOffsetBound
  place_lt : place < s.selectedSlots.length
  kind_lt : kind < 3
  failureCount : readCell e'.program s.cells.failureCount = some (failures + 1)
  attempt : DecodesTo e'.program 0 (.push (c.nextAttempt shown offset previous))
  attempt_lt : c.nextAttempt shown offset previous < c.attemptModulus
  attempt_ne : c.nextAttempt shown offset previous ≠ previous
  previousAttempt :
    readCell e'.program s.cells.previousAttempt = some (c.nextAttempt shown offset previous)
  lastSlot : readCell e'.program s.cells.lastSlot = s.selectedSlots[place]?
  lastKind : readCell e'.program s.cells.lastKind = some kind
  slot : ∀ a, s.selectedSlots[place]? = some a → DecodesTo e'.program a (drawnKind kind).record
  unchanged : ∀ a, a ≠ 0 → s.selectedSlots[place]? ≠ some a → a ∉ s.cells.addresses →
    e'.program[a]? = e.program[a]?
  /-- The stuck signal comes before the word that the next iteration shows. -/
  printed : ∃ word, e'.printed = word ::
    if failures + 1 = c.maxFailuresBeforeStuck then (p.stuckSignal : Int) :: e.printed
    else e.printed

namespace Seeker

-- ---------------------------------------------------------------------------
-- What has changed
-- ---------------------------------------------------------------------------

section Pictures

variable {l : Layout} {m : Contents}

theorem picture_afterMiss_of_ne {offset place kind a : Nat} (hZero : a ≠ 0)
    (hSlot : a ≠ l.linking.slot (.selected place))
    (hCells : ∀ d : DataCell, a ≠ l.linking.label d.label) :
    l.picture (l.afterMiss m offset place kind) a = l.picture m a :=
  picture_congr (fun h => absurd h hZero)
    (fun _ _ => congrFun (l.afterMiss_slots m offset place kind) a ▸ m.rewrite_slots_of_ne _ hSlot)
    fun d hd => absurd hd (hCells d)

theorem selected_getElem? {place : Nat} (hPlace : place < l.selected.length) :
    l.selected[place]? = some (l.linking.slot (.selected place)) := by
  have hAt := List.getElem?_eq_getElem hPlace
  rw [hAt, l.slot_selected _ _ hAt]

end Pictures

-- ---------------------------------------------------------------------------
-- The next request
-- ---------------------------------------------------------------------------

variable {l : Layout} {depth : Nat} {m : Contents} {v : Word}
  {base printed : List Word} {random : σ} {e e' : Engine σ}

/-- The engine waits for feedback again, after a miss in an iteration with the given contents. -/
structure MissedFrom (l : Layout) (depth : Nat) (m : Contents) (base printed : List Word)
    (random : σ) (offset place kind : Nat) (e : Engine σ) : Prop where
  valid : l.Valid (l.afterMiss m offset place kind)
  there : ∃ random₁ random₂ random₃,
    RandomSource.draw 128 l.config.randomOffsetBound random = (offset, random₁) ∧
    RandomSource.draw 128 l.selected.length random₁ = (place, random₂) ∧
    RandomSource.draw 128 kindCount random₂ = (kind, random₃) ∧
    l.AtFeedback (.idle depth) (l.afterMiss m offset place kind) (l.leftOver m base)
      (l.reported m (((l.shape m).shown m.attempt : Int) :: printed)) random₃ e

/-- The stretch after a miss. -/
def Layout.missing (l : Layout) (depth : Nat) (m : Contents) (base printed : List Word)
    (random : σ) : Watch σ where
  __ := Watch.guarded σ depth
  waits e := ∃ offset place kind, MissedFrom l depth m base printed random offset place kind e

/-- A miss leads to the next wait for feedback. -/
theorem leads_missing (hValid : l.Valid m) (hCount : m.cell .failures + 1 < primeCount)
    (hAwaits : e.phase = .awaitingInput) (hAt : l.AtFeedback (.idle depth) m base printed random e)
    (hMiss : v ≠ l.protocol.successFeedback) : ∃ r b, e.resume v = .ok (r, b) ∧
      (l.terms (l.missing depth m base printed random)).Leads b := by
  have hHere : l.AtFeedback (l.missing depth m base printed random) m base printed random e :=
    hAt.of_depth rfl
  obtain ⟨r, b, hResume, -, -, hLeads⟩ := leads_resume hAwaits hHere (.inl trivial) id
    (from_judge (.inl trivial) (fun hHit => absurd hHit hMiss) fun _ =>
      from_miss hValid (.inr hCount) (.inl trivial) (.inl trivial) (.inl trivial)
        fun offset place kind random₁ random₂ random₃ hOffset hPlace hKind hAfter =>
          from_iteration hAfter (.inl trivial) fun _ _ hThere =>
            ⟨offset, place, kind, hAfter, random₁, random₂, random₃, hOffset, hPlace, hKind,
              hThere.of_depth rfl⟩)
  exact ⟨r, b, hResume, hLeads⟩

/-- With room for every frame, and for what a miss needs, the stack is never full after a miss. -/
theorem staysBelow_of_miss (hValid : l.Valid m) (hOnly : ∀ a, l.free a → a ∈ l.selected)
    (hAttempt : m.attempt < l.config.attemptModulus)
    (hRoom : l.config.slotCount + l.selected.toFinset.card + 4 < depth) (hDepth : 8 < depth)
    (hCount : m.cell .failures + 1 < primeCount) (hAwaits : e.phase = .awaitingInput)
    (hAt : l.AtFeedback (.idle depth) m [] printed random e)
    (hMiss : v ≠ l.protocol.successFeedback) : e.StaysBelow v := by
  obtain ⟨r, b, hResume, -⟩ := leads_missing hValid hCount hAwaits hAt hMiss
  have hLess : depth - 1 < depth := by omega
  have hLeads : (l.terms (l.inTurn σ hLess.le (m.cell .failures + 1))).Leads b :=
    leads_of_miss hValid hOnly hAttempt (by omega) (by omega) hAt hMiss hCount hResume
  exact hLeads.staysBelow (fun _ => id) id hLess hResume

/-- What has changed at the next wait. -/
theorem missed_of_missedFrom {seeker : GoalSeeker} {target offset place kind : Nat}
    (h : l.Describes seeker target) (hAt : l.AtFeedback (.idle depth) m base printed random e)
    (hAwaits : e'.phase = .awaitingInput)
    (hMissed : MissedFrom l depth m base printed random offset place kind e') :
    seeker.Missed l.config l.protocol ((l.shape m).shown m.attempt) (m.cell .previous)
      (m.cell .failures) offset place kind e e' := by
  obtain ⟨hValid, random₁, random₂, random₃, hOffset, hPlace, hKind, hThere⟩ := hMissed
  obtain ⟨hModulus, hBound, -⟩ := l.constants_possible
  have hPlaceLt : place < l.selected.length := by
    have hLt := RandomSource.draw_lt 128 l.selected.length random₁ l.selected_pos
    rwa [hPlace] at hLt
  have hSlot := selected_getElem? hPlaceLt
  have hRange := l.selected_range _ (l.slot_mem hPlaceLt)
  have hCells := readCell_of_holds hValid hThere.cells
  constructor
  · exact (atMainInput_of_atFeedback h hValid hAwaits hThere).1
  · rw [h.selected, hAt.random, hThere.random]
    exact ⟨random₁, random₂, hOffset, hPlace, hKind⟩
  · have hLt := RandomSource.draw_lt 128 l.config.randomOffsetBound random hBound
    rwa [hOffset] at hLt
  · rw [h.selected]
    exact hPlaceLt
  · have hLt := RandomSource.draw_lt 128 kindCount random₂ (by decide)
    rwa [hKind] at hLt
  · rw [h.cells]
    exact (hCells .failures).trans (congrArg some (l.afterMiss_failures m offset place kind))
  · exact decodesTo_of_holds hValid hThere.cells (l.picture_zero _)
  · exact SeekerConfig.nextAttempt_lt hModulus
  · exact SeekerConfig.nextAttempt_ne hModulus
  · rw [h.cells]
    exact (hCells .previous).trans (congrArg some (l.afterMiss_previous m offset place kind))
  · rw [h.cells, h.selected, hSlot]
    exact (hCells .lastSlot).trans (congrArg some (l.afterMiss_lastSlot m offset place kind))
  · rw [h.cells]
    exact (hCells .lastKind).trans (congrArg some (l.afterMiss_lastKind m offset place kind))
  · intro a ha
    rw [h.selected, hSlot, Option.some.injEq] at ha
    subst ha
    have hDecodes := decodesTo_of_holds hValid hThere.cells (l.picture_slot _ hRange.1 hRange.2)
    rwa [l.afterMiss_slots, Contents.rewrite_slots_self] at hDecodes
  · intro a hZero hOther hOutside
    rw [h.selected, hSlot, ne_eq, Option.some.injEq] at hOther
    rw [mem_addresses h, not_exists] at hOutside
    exact cells_eq_of_holds hAt.cells hThere.cells
      (picture_afterMiss_of_ne hZero (fun hSame => hOther hSame.symm) hOutside)
  · rw [hAt.printed]
    exact ⟨_, hThere.printed⟩

end Seeker

-- ---------------------------------------------------------------------------
-- The failure path
-- ---------------------------------------------------------------------------

/-- **A miss leads on to the next attempt.** A goal-seeker that was built has got to its request
for feedback, on whatever words and draws, and has shown an attempt. It is given another word than
the one for a hit, and its stack does not reach the limit. Then it comes to its request for
feedback again, with the failure counted, a new attempt, one of the selected slots rewritten and
the data cells up to date, as three draws say; nothing else in its memory has changed. It says that
it is stuck exactly where the count becomes the greatest number of failures. -/
theorem miss_leads_on {config : SeekerConfig} {protocol : ProtocolConfig} {b b' : SeekerBuilder}
    {bank : SlotBank} {target streak : Nat} {seeker : GoalSeeker}
    (hStart : SeekerBuilder.start config protocol = .ok b)
    (hBuild : (SeekerBuilder.build target streak).run { b with bank } = .ok seeker b')
    {maxStackDepth historyLimit : Nat} {random : σ} {e : Engine σ}
    (hReaches : (Engine.start seeker.program seeker.initialStack maxStackDepth historyLimit
      random).Reaches e) (hWaits : seeker.AtMainInput e) {shown previous failures : Nat}
    (hShown : e.printed.head? = some (shown : Int))
    (hPrevious : readCell e.program seeker.cells.previousAttempt = some previous)
    (hFailures : readCell e.program seeker.cells.failureCount = some failures)
    (hCount : failures + 1 < 2 ^ 20) {v : Word} (hMiss : v ≠ protocol.successFeedback)
    (hBelow : e.StaysBelow v) : ∃ offset place kind e', e.ComesTo v e' ∧
      seeker.Missed config protocol shown previous failures offset place kind e e' := by
  obtain ⟨l, rfl, rfl, hDescribes⟩ := exists_layout hStart hBuild
  obtain ⟨-, -, hAwaits, -⟩ := id hWaits
  obtain ⟨m, base, printed, random', hValid, hAt | hAt⟩ :=
    (leads_of_reaches hDescribes hReaches).waits hAwaits
  · -- what the data cells hold and what was shown are parts of the contents
    have hCells := readCell_of_holds hValid hAt.cells
    obtain rfl : (l.shape m).shown m.attempt = shown := by
      rw [hAt.printed] at hShown
      exact Int.ofNat_inj.mp (Option.some.inj hShown)
    obtain rfl : m.cell .previous = previous := by
      rw [hDescribes.cells] at hPrevious
      exact Option.some.inj ((hCells .previous).symm.trans hPrevious)
    obtain rfl : m.cell .failures = failures := by
      rw [hDescribes.cells] at hFailures
      exact Option.some.inj ((hCells .failures).symm.trans hFailures)
    obtain ⟨r, b, hResume, hLeads⟩ := leads_missing hValid hCount hAwaits hAt hMiss
    obtain ⟨e', hComes, ⟨hAgain, offset, place, kind, hMissed⟩ | ⟨-, hEnds⟩⟩ :=
      exists_comesTo (fun _ h => h) hResume hLeads hBelow
    · exact ⟨offset, place, kind, e', hComes, missed_of_missedFrom hDescribes hAt hAgain hMissed⟩
    · exact hEnds.elim
  · exact absurd hWaits (atSuccessInput_of_atTarget hDescribes hValid hAwaits hAt).2

/-- With a single slot and a depth of 4096, a new program misses its first attempt. -/
theorem miss_leads_on_first : ∃ b seeker b' offset place kind, ∃ e e' : Engine (List Nat),
    SeekerBuilder.start { slotCount := 1 } {} = .ok b ∧
    (SeekerBuilder.build 3 0).run b = .ok seeker b' ∧
    seeker.AtMainInput e ∧ e.printed = [3] ∧ e.ComesTo 2 e' ∧
    seeker.Missed { slotCount := 1 } {} 3 3 0 offset place kind e e' := by
  obtain ⟨b, seeker, b', l, hStart, hBuild, hDescribes, hConfig, hProtocol, hSelected⟩ :=
    exists_smallest_layout
  have hRoom : l.config.slotCount + l.pushes (.start 3) + 3 ≤ 4096 := by
    rw [hConfig, pushes_steady fun _ => rfl]
    decide
  obtain ⟨n, e, hSteps, hAwaits, hAt⟩ := exists_wait hDescribes.valid hRoom rfl
    (hDescribes.shows_start 4096 ([5] : List Nat))
  have hCells := readCell_of_holds hDescribes.valid hAt.cells
  have hWaits := (atMainInput_of_atFeedback hDescribes hDescribes.valid hAwaits hAt).1
  have hAttempt : (Contents.start 3).attempt < l.config.attemptModulus := by
    rw [hConfig]
    decide
  have hMiss : (2 : Word) ≠ l.protocol.successFeedback := by
    rw [hProtocol]
    decide
  have hCount : (Contents.start 3).cell .failures + 1 < primeCount := by decide
  have hPrinted : e.printed = [3] := by
    rw [hAt.printed, shape_steady (m := .start 3) fun _ => rfl]
    rfl
  have hBelow : e.StaysBelow 2 := staysBelow_of_miss hDescribes.valid hDescribes.free hAttempt
    (by rw [hConfig, hSelected]; decide) (by decide) hCount hAwaits hAt hMiss
  have hShown : e.printed.head? = some ((3 : Nat) : Int) := by
    rw [hPrinted]
    rfl
  have hPrevious : readCell e.program seeker.cells.previousAttempt = some 3 := by
    rw [hDescribes.cells]
    exact hCells .previous
  have hFailures : readCell e.program seeker.cells.failureCount = some 0 := by
    rw [hDescribes.cells]
    exact hCells .failures
  obtain ⟨offset, place, kind, e', hComes, hMissed⟩ := miss_leads_on hStart (b := b) hBuild
    (Engine.Reaches.refl.steps hSteps) hWaits hShown hPrevious hFailures (by decide) (by decide)
    hBelow
  exact ⟨b, seeker, b', offset, place, kind, e, e', hStart, hBuild, hWaits, hPrinted, hComes,
    hMissed⟩

end FactorMachine
