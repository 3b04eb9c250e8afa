import FactorMachine.Proofs.Config.Validation
import FactorMachine.Proofs.Engine.Calls
import FactorMachine.Proofs.Seeker.Miss
import FactorMachine.Proofs.Seeker.Requests

/-!
# FactorMachine — how deep a stack a goal-seeker needs

A goal-seeker that is given words in keeping with the protocol faults for one reason only: its
frame may outgrow the stack. A frame has a marker, a zero for each slot and the attempt, and
every selected slot that holds a push puts one more zero on top. The feedback then comes on
top of that, and the word that it is compared with. So the stack has to take four words more
than there are slots and selected slots together, and if it does, nothing else goes wrong.

A valid configuration has room for eight words beyond its slots. That is enough as long as at
most four slots are selected.

## Results

* `pushes_le`       — a frame grows by at most one word for each selected slot.
* `leads_of_run`    — with room for that, every protocol run is on its way to a wait.
* `exists_overflow` — without it, there are draws that make the stack overflow.
* `never_stops_iff` — the exact condition for a goal-seeker never to stop.
-/

namespace FactorMachine

-- ---------------------------------------------------------------------------
-- Runs that follow the protocol
-- ---------------------------------------------------------------------------

/-- Whether a program that waits for input at an address wants a target, and not feedback: it
is past the beginning of the success path. -/
def GoalSeeker.asksForTarget (s : GoalSeeker) (ip : Nat) : Bool :=
  match resolveLabel s.labels Seeker.successLabel with
  | .ok address => address < ip
  | .error _ => false

/-- What becomes of an engine that runs a goal-seeker if it is given feedback where it waits for
feedback and a possible target where it waits for a target, with fewer than `2 ^ 20` failures
in a row. The number is that of the failures since the last hit. -/
inductive ProtocolRun {σ : Type} [RandomSource σ] (c : Config) (s : GoalSeeker) (e : Engine σ) :
    Nat → Engine σ → Prop
  | start : ProtocolRun c s e 0 e
  | step {k : Nat} {a b : Engine σ} {r : StepResult} : ProtocolRun c s e k a →
      a.step = .ok (r, b) → ProtocolRun c s e k b
  | hit {k : Nat} {a b : Engine σ} {r : StepResult} : ProtocolRun c s e k a →
      s.asksForTarget a.ip = false → a.resume c.protocol.successFeedback = .ok (r, b) →
      ProtocolRun c s e 0 b
  | miss {k : Nat} {a b : Engine σ} {r : StepResult} {v : Word} : ProtocolRun c s e k a →
      s.asksForTarget a.ip = false → v ≠ c.protocol.successFeedback → k + 1 < 2 ^ 20 →
      a.resume v = .ok (r, b) → ProtocolRun c s e (k + 1) b
  | target {k n : Nat} {a b : Engine σ} {r : StepResult} : ProtocolRun c s e k a →
      s.asksForTarget a.ip = true → n < c.seeker.attemptModulus → a.resume n = .ok (r, b) →
      ProtocolRun c s e k b

namespace Seeker

open Terms

-- ---------------------------------------------------------------------------
-- The height of a frame
-- ---------------------------------------------------------------------------

section Height

variable {l : Layout} {m : Contents}

theorem pushes_eq_card (l : Layout) (m : Contents) : l.pushes m =
    ((Finset.Icc 1 l.config.slotCount).filter fun a => m.slots a = .push).card := by
  have hList : (Finset.Icc 1 l.config.slotCount).filter (fun a => m.slots a = .push) =
      ((List.range' 1 l.config.slotCount).filter fun a => m.slots a = .push).toFinset := by
    ext a
    rw [Finset.mem_filter, Finset.mem_Icc, List.mem_toFinset, List.mem_filter, List.mem_range'_1,
      decide_eq_true_eq]
    exact and_congr_left fun _ => by omega
  rw [hList, List.toFinset_card_of_nodup ((List.nodup_range' (h := Nat.one_pos)).filter _),
    ← List.countP_eq_length_filter]
  rfl

/-- Only selected slots hold a push. -/
theorem pushes_le (hValid : l.Valid m) (hOnly : ∀ a, l.free a → a ∈ l.selected) :
    l.pushes m ≤ l.selected.toFinset.card := by
  rw [pushes_eq_card]
  refine Finset.card_le_card fun a ha => ?_
  rw [List.mem_toFinset]
  by_contra hOther
  have hPush := (Finset.mem_filter.mp ha).2
  rw [hValid.fixed a fun hFree => hOther (hOnly a hFree)] at hPush
  cases hPush

/-- A slot that did not hold a push and now does. -/
theorem pushes_rewrite {a : Nat} (hSelected : a ∈ l.selected) (hOther : m.slots a ≠ .push) :
    l.pushes (m.rewrite a .push) = l.pushes m + 1 := by
  rw [pushes_eq_card, pushes_eq_card]
  have hInsert : (Finset.Icc 1 l.config.slotCount).filter
      (fun a' => (m.rewrite a .push).slots a' = .push) =
        insert a ((Finset.Icc 1 l.config.slotCount).filter fun a' => m.slots a' = .push) := by
    ext a'
    rw [Finset.mem_insert, Finset.mem_filter, Finset.mem_filter, Finset.mem_Icc]
    by_cases hSame : a' = a
    · subst hSame
      have hRange := l.selected_range a' hSelected
      simp [hRange]
    · rw [m.rewrite_slots_of_ne .push hSame]
      simp [hSame]
  rw [hInsert, Finset.card_insert_of_notMem]
  exact fun hMem => hOther (Finset.mem_filter.mp hMem).2

end Height

-- ---------------------------------------------------------------------------
-- Enough room
-- ---------------------------------------------------------------------------

section Room

variable {σ : Type} [RandomSource σ] {l : Layout} {depth limit : Nat} {hLimit : depth ≤ limit}

/-- The stretches of a protocol run with `failures` misses since the last hit: no fault is
allowed, and the stack is empty but for the frame. It is kept to a depth that may be less than its
limit. -/
def Layout.inTurn (σ : Type) (l : Layout) (hLimit : depth ≤ limit) (failures : Nat) : Watch σ where
  __ := Watch.idle limit
  depth
  depth_le := hLimit
  mayFault := False
  waits e := ∃ m printed random, l.Valid m ∧ m.attempt < l.config.attemptModulus ∧
    m.cell .failures = failures ∧
      (l.AtFeedback (.idle limit) m [] printed random e ∨
        (failures = 0 ∧ l.AtTarget (.idle limit) m [] printed random e))

theorem from_zero_inTurn {m : Contents} (hValid : l.Valid m)
    (hOnly : ∀ a, l.free a → a ∈ l.selected) (hAttempt : m.attempt < l.config.attemptModulus)
    (hRoom : l.config.slotCount + l.selected.toFinset.card + 4 ≤ depth) (printed : List Word)
    (random : σ) : (l.terms (l.inTurn σ hLimit (m.cell .failures))).From 0 ⟨l.picture m,
      List.replicate l.config.slotCount 0 ++ [(l.config.frameMarker : Int)], [], printed,
        random⟩ := by
  have hPushes := pushes_le hValid hOnly
  refine from_iteration hValid (.inr ?_) fun _ _ hAt =>
    ⟨m, printed, random, hValid, hAttempt, rfl, .inl (hAt.of_depth rfl)⟩
  show l.config.slotCount + l.pushes m + 2 + 0 < depth
  omega

variable {m : Contents} {printed : List Word} {random : σ} {a b : Engine σ} {r : StepResult}

/-- A hit leads to the wait for a target. -/
theorem leads_of_hit (hValid : l.Valid m) (hAttempt : m.attempt < l.config.attemptModulus)
    (hRoom : l.config.slotCount + l.pushes m + 4 ≤ depth)
    (hAt : l.AtFeedback (.idle limit) m [] printed random a)
    (hResume : a.resume l.protocol.successFeedback = .ok (r, b)) :
    (l.terms (l.inTurn σ hLimit 0)).Leads b := by
  have hHeight := length_frame (l := l) m []
  rw [List.length_nil] at hHeight
  have hHere : l.AtFeedback (l.inTurn σ hLimit 0) m [] printed random a := hAt.of_depth rfl
  have hLast : (l.terms (l.inTurn σ hLimit 0)).Room (l.config.slotCount + l.pushes m + 3) :=
    .inr (by show _ < depth; omega)
  refine leads_of_resume hResume hHere (hLast.mono (Nat.le_succ_of_le hHeight)) id ?_
  refine from_feedback_hit hValid hLast fun e _ hThere => ?_
  rw [leftOver_of_lt hAttempt] at hThere
  exact ⟨_, _, _, hValid.store .failures (by decide), hAttempt, m.store_cell_self .failures 0,
    .inr ⟨rfl, hThere.of_depth rfl⟩⟩

/-- A miss leads to the next wait for feedback. -/
theorem leads_of_miss {v : Word} (hValid : l.Valid m)
    (hOnly : ∀ a, l.free a → a ∈ l.selected) (hAttempt : m.attempt < l.config.attemptModulus)
    (hRoom : l.config.slotCount + l.selected.toFinset.card + 4 ≤ depth) (hDepth : 8 ≤ depth)
    (hAt : l.AtFeedback (.idle limit) m [] printed random a)
    (hMiss : v ≠ l.protocol.successFeedback) (hCount : m.cell .failures + 1 < primeCount)
    (hResume : a.resume v = .ok (r, b)) :
    (l.terms (l.inTurn σ hLimit (m.cell .failures + 1))).Leads b := by
  have hPushes := pushes_le hValid hOnly
  have hHeight := length_frame (l := l) m []
  rw [List.length_nil] at hHeight
  have hHere : l.AtFeedback (l.inTurn σ hLimit (m.cell .failures + 1)) m [] printed random a :=
    hAt.of_depth rfl
  have hLast : (l.terms (l.inTurn σ hLimit (m.cell .failures + 1))).Room
      (l.config.slotCount + l.pushes m + 3) := .inr (by show _ < depth; omega)
  have hFew : (l.terms (l.inTurn σ hLimit (m.cell .failures + 1))).Room 6 :=
    .inr (by show _ < depth; omega)
  refine leads_of_resume hResume hHere (hLast.mono (Nat.le_succ_of_le hHeight)) id ?_
  refine from_feedback_miss hValid hAttempt hMiss hCount hLast hFew
    fun offset place kind _ _ random' _ _ _ hAfter => ?_
  rw [← l.afterMiss_failures m offset place kind]
  exact from_zero_inTurn hAfter hOnly (l.nextAttempt_lt m offset) hRoom _ _

/-- A target leads to the wait for feedback on it. -/
theorem leads_of_target {target : Nat} (hValid : l.Valid m)
    (hOnly : ∀ a, l.free a → a ∈ l.selected) (hTarget : target < l.config.attemptModulus)
    (hRoom : l.config.slotCount + l.selected.toFinset.card + 4 ≤ depth) (hDepth : 8 ≤ depth)
    (hAt : l.AtTarget (.idle limit) m [] printed random a)
    (hResume : a.resume target = .ok (r, b)) :
    (l.terms (l.inTurn σ hLimit (m.cell .failures))).Leads b := by
  have hHere : l.AtTarget (l.inTurn σ hLimit (m.cell .failures)) m [] printed random a :=
    hAt.of_depth rfl
  have hLast : (l.terms (l.inTurn σ hLimit (m.cell .failures))).Room (l.config.slotCount + 3) :=
    .inr (by show _ < depth; omega)
  have hFew : (l.terms (l.inTurn σ hLimit (m.cell .failures))).Room 7 :=
    .inr (by show _ < depth; omega)
  have hTargetLt := Nat.lt_trans hTarget l.modulus_lt
  refine leads_of_resume hResume hHere (hLast.mono (Nat.zero_le _)) id ?_
  refine from_target hValid (.inr ⟨target, hTargetLt, rfl⟩) (hFew.mono (show 0 + 4 ≤ 7 by decide))
    (hLast.mono (show 0 + 1 + l.config.slotCount ≤ l.config.slotCount + 3 by omega))
    fun n hn hSame => ?_
  obtain rfl : target = n := Int.ofNat_inj.mp hSame
  rw [← l.retarget_failures m target]
  exact from_zero_inTurn (Layout.Valid.retarget hValid hn) hOnly hTarget hRoom _ _

/-- Which of the two waits is meant can be seen from the address. -/
theorem asksForTarget_eq {seeker : GoalSeeker} {target : Nat} (h : l.Describes seeker target)
    (ip : Nat) : seeker.asksForTarget ip = decide (l.config.slotCount + 9 < ip) := by
  unfold GoalSeeker.asksForTarget resolveLabel
  rw [h.lookup_success]

/-- With room for every frame, an engine that follows the protocol is on its way to a wait. -/
theorem leads_of_run {c : Config} {seeker : GoalSeeker} {target historyLimit failures : Nat}
    (h : l.Describes seeker target) (hSeeker : l.config = c.seeker)
    (hProtocol : l.protocol = c.protocol) (hTarget : target < l.config.attemptModulus)
    (hRoom : l.config.slotCount + l.selected.toFinset.card + 4 ≤ depth) (hDepth : 8 ≤ depth)
    (hRun : ProtocolRun c seeker
      (Engine.start seeker.program seeker.initialStack depth historyLimit random) failures a) :
    (l.terms (l.inTurn σ (Nat.le_refl depth) failures)).Leads a := by
  induction hRun with
  | start =>
    have hFits : l.config.slotCount + 1 ≤ depth := by omega
    exact from_zero_inTurn h.valid h.free hTarget hRoom [] random (Layout.fits_start hFits) _ rfl
      (h.shows_start historyLimit random)
  | step _ hStep ih =>
    obtain ⟨hPhase, rfl⟩ := Engine.eq_next_of_step hStep
    exact ih.next hPhase id
  | hit _ hAsks hResume ih =>
    -- a hit is given at the wait for feedback only, and clears the count
    obtain ⟨m, printed, random, hValid, hAttempt, -, hAt | ⟨-, hAt⟩⟩ :=
      ih.waits (Engine.awaiting_of_resume hResume)
    · have hPushes := pushes_le hValid h.free
      rw [← hProtocol] at hResume
      exact leads_of_hit hValid hAttempt (by omega) hAt hResume
    · rw [asksForTarget_eq h, hAt.ip, decide_eq_false_iff_not] at hAsks
      omega
  | miss _ hAsks hMiss hCount hResume ih =>
    -- so is a miss, and it adds one to the count
    obtain ⟨m, printed, random, hValid, hAttempt, rfl, hAt | ⟨-, hAt⟩⟩ :=
      ih.waits (Engine.awaiting_of_resume hResume)
    · rw [← hProtocol] at hMiss
      exact leads_of_miss hValid h.free hAttempt hRoom hDepth hAt hMiss hCount hResume
    · rw [asksForTarget_eq h, hAt.ip, decide_eq_false_iff_not] at hAsks
      omega
  | target _ hAsks hSmall hResume ih =>
    -- a target is given at the other wait, where the count is zero
    obtain ⟨m, printed, random, hValid, -, rfl, hAt | ⟨-, hAt⟩⟩ :=
      ih.waits (Engine.awaiting_of_resume hResume)
    · rw [asksForTarget_eq h, hAt.ip, decide_eq_true_eq] at hAsks
      omega
    · rw [← hSeeker] at hSmall
      exact leads_of_target hValid h.free hSmall hRoom hDepth hAt hResume

end Room

-- ---------------------------------------------------------------------------
-- Too little room
-- ---------------------------------------------------------------------------

section Overflow

variable {l : Layout} {depth : Nat}

/-- Draws that make a program write a push to the given slots, one after each miss. -/
def pushingDraws (l : Layout) (slots : List Nat) : List Nat :=
  slots.flatMap fun a => [0, l.selected.idxOf a, 0]

/-- The stretch to the wait for feedback with the given contents. -/
def Layout.towards (l : Layout) (depth : Nat) (m : Contents) (printed : List Word)
    (draws : List Nat) : Watch (List Nat) where
  __ := Watch.idle depth
  mayFault := False
  waits e := l.AtFeedback (.idle depth) m [] printed draws e

theorem from_zero_towards {m : Contents} (hValid : l.Valid m)
    (hRoom : l.config.slotCount + l.pushes m + 2 < depth) (printed : List Word)
    (draws : List Nat) : (l.terms (l.towards depth m printed draws)).From 0
      ⟨l.picture m, List.replicate l.config.slotCount 0 ++ [(l.config.frameMarker : Int)], [],
        printed, draws⟩ :=
  from_iteration hValid (.inr hRoom) fun _ _ hAt => hAt.of_depth rfl

variable {m : Contents} {printed : List Word} {draws : List Nat} {slot : Nat}
  {a b : Engine (List Nat)} {r : StepResult}

/-- A miss with the draws for a slot makes it hold a push. -/
theorem slots_afterMiss (hSelected : slot ∈ l.selected) (offset : Nat) :
    (l.afterMiss m offset (l.selected.idxOf slot) 0).slots = (m.rewrite slot .push).slots := by
  have hAt : l.selected[l.selected.idxOf slot]? = some slot := List.getElem?_idxOf hSelected
  have hSlot := l.slot_selected _ _ hAt
  unfold Layout.afterMiss
  rw [hSlot]
  rfl

theorem pushes_afterMiss (hSelected : slot ∈ l.selected) (hOther : m.slots slot ≠ .push)
    (offset : Nat) :
    l.pushes (l.afterMiss m offset (l.selected.idxOf slot) 0) = l.pushes m + 1 := by
  rw [← pushes_rewrite hSelected hOther]
  unfold Layout.pushes
  rw [slots_afterMiss hSelected]

/-- A miss with the draws for a slot leads to an iteration with one more push. -/
theorem leads_of_pushing_miss {v : Word} (hValid : l.Valid m)
    (hAttempt : m.attempt < l.config.attemptModulus) (hSelected : slot ∈ l.selected)
    (hOther : m.slots slot ≠ .push) (hRoom : l.config.slotCount + l.pushes m + 3 < depth)
    (hDepth : 8 ≤ depth)
    (hAt : l.AtFeedback (.idle depth) m [] printed
      (0 :: l.selected.idxOf slot :: 0 :: draws) a)
    (hMiss : v ≠ l.protocol.successFeedback) (hCount : m.cell .failures + 1 < primeCount)
    (hResume : a.resume v = .ok (r, b)) :
    (l.terms (l.towards depth (l.afterMiss m 0 (l.selected.idxOf slot) 0)
      (l.reported m (((l.shape m).shown m.attempt : Int) :: printed)) draws)).Leads b := by
  have hPlace : l.selected.idxOf slot < l.selected.length := List.idxOf_lt_length_of_mem hSelected
  have hHeight := length_frame (l := l) m []
  rw [List.length_nil] at hHeight
  -- the watch is long and only its depth matters until the next iteration begins
  generalize hWatch : l.towards depth (l.afterMiss m 0 (l.selected.idxOf slot) 0)
    (l.reported m (((l.shape m).shown m.attempt : Int) :: printed)) draws = w
  have hWatchDepth : depth = w.depth := by
    rw [← hWatch]
    rfl
  have hWatchLimit : depth = w.limit := by
    rw [← hWatch]
    rfl
  have hGoesOn : ¬ w.ends (a.supplied v) := by
    rw [← hWatch]
    exact id
  have hHere : l.AtFeedback w m [] printed (0 :: l.selected.idxOf slot :: 0 :: draws) a :=
    hAt.of_depth hWatchLimit
  have hLast : (l.terms w).Room (l.config.slotCount + l.pushes m + 3) := .inr (hWatchDepth ▸ hRoom)
  have hFew : (l.terms w).Room 7 := .inr (hWatchDepth ▸ hDepth)
  refine leads_of_resume hResume hHere (hLast.mono (Nat.le_succ_of_le hHeight)) hGoesOn ?_
  refine from_feedback_miss hValid hAttempt hMiss hCount hLast (hFew.mono (by decide))
    fun offset place kind random₁ random₂ random₃ hOffset hDrawn hKind hAfter => ?_
  -- the three draws are the ones that the list begins with
  have hOffset' : (0 % l.config.randomOffsetBound, l.selected.idxOf slot :: 0 :: draws) =
      (offset, random₁) := hOffset
  obtain ⟨hZero, rfl⟩ := Prod.mk.inj hOffset'
  have hDrawn' : (l.selected.idxOf slot % l.selected.length, 0 :: draws) = (place, random₂) :=
    hDrawn
  obtain ⟨hSlot, rfl⟩ := Prod.mk.inj hDrawn'
  have hKind' : (0 % kindCount, draws) = (kind, random₃) := hKind
  obtain ⟨hPush, rfl⟩ := Prod.mk.inj hKind'
  obtain rfl : 0 = offset := (Nat.zero_mod _).symm.trans hZero
  obtain rfl : l.selected.idxOf slot = place := (Nat.mod_eq_of_lt hPlace).symm.trans hSlot
  obtain rfl : 0 = kind := hPush
  rw [← hWatch]
  refine from_zero_towards hAfter ?_ _ _
  rw [pushes_afterMiss hSelected hOther]
  omega

/-- An engine that followed the protocol waits for feedback, and its slots hold no additions. -/
structure AwaitsFeedback (l : Layout) (depth : Nat) (c : Config) (seeker : GoalSeeker)
    (e : Engine (List Nat)) (m : Contents) (draws : List Nat) (a : Engine (List Nat)) : Prop where
  valid : l.Valid m
  attempt : m.attempt < l.config.attemptModulus
  noAdd : ∀ x, m.slots x ≠ .add
  awaits : a.phase = .awaitingInput
  shows : ∃ printed, l.AtFeedback (.idle depth) m [] printed draws a
  run : ProtocolRun c seeker e (m.cell .failures) a

variable {c : Config} {seeker : GoalSeeker} {e : Engine (List Nat)} {target : Nat}

theorem length_frame_of_noAdd (hAdd : ∀ x, m.slots x ≠ .add) :
    (frame l.config.frameMarker m.attempt (l.shape m) []).length =
      l.config.slotCount + l.pushes m + 2 := by
  have hZeros : (l.shape m).zeros = 0 + l.config.slotCount + l.pushes m :=
    zeros_shapeFrom hAdd ⟨0, l.config.slotCount⟩ 1 l.config.slotCount
  rw [frame_eq_cons, List.length_cons, length_frameBelow, hZeros, List.length_nil]
  omega

/-- One more slot holds a push at the next wait. -/
theorem AwaitsFeedback.miss (h : l.Describes seeker target) (hProtocol : l.protocol = c.protocol)
    (hFeedback : c.protocol.successFeedback ≠ c.protocol.failureFeedback)
    (hWaiting : AwaitsFeedback l depth c seeker e m (0 :: l.selected.idxOf slot :: 0 :: draws) a)
    (hSelected : slot ∈ l.selected) (hOther : m.slots slot ≠ .push)
    (hRoom : l.config.slotCount + l.pushes m + 3 < depth) (hDepth : 8 ≤ depth)
    (hCount : m.cell .failures + 1 < primeCount) :
    ∃ b, AwaitsFeedback l depth c seeker e (l.afterMiss m 0 (l.selected.idxOf slot) 0) draws b := by
  obtain ⟨printed, hAt⟩ := hWaiting.shows
  have hMiss : (c.protocol.failureFeedback : Int) ≠ c.protocol.successFeedback :=
    fun hSame => hFeedback (Int.ofNat_inj.mp hSame).symm
  have hPlace : l.selected.idxOf slot < l.selected.length := List.idxOf_lt_length_of_mem hSelected
  have hLess : a.stack.length < a.maxStackDepth := by
    rw [hAt.stack, hAt.depth, length_frame_of_noAdd hWaiting.noAdd]
    show _ < depth
    omega
  obtain ⟨r, a', hResume⟩ : ∃ r a', a.resume c.protocol.failureFeedback = .ok (r, a') :=
    ⟨_, _, Engine.resume_room _ hWaiting.awaits hLess⟩
  -- the program waits for feedback here, so it may be given one
  have hAsks : seeker.asksForTarget a.ip = false := by
    rw [asksForTarget_eq h, hAt.ip, decide_eq_false_iff_not]
    omega
  have hRun := hWaiting.run.miss hAsks hMiss hCount hResume
  have hMiss' : (c.protocol.failureFeedback : Int) ≠ l.protocol.successFeedback := by
    rwa [hProtocol]
  have hLeads := leads_of_pushing_miss hWaiting.valid hWaiting.attempt hSelected hOther hRoom hDepth
    hAt hMiss' hCount hResume
  obtain ⟨b, hRun', -, ⟨hAwaits, hThere⟩ | ⟨hMay, -⟩ | ⟨-, hEnds⟩⟩ :=
    hLeads.exists_end (ProtocolRun c seeker e (m.cell .failures + 1)) hRun
      fun _ _ _ hHere hStep => hHere.step hStep
  · refine ⟨b, hWaiting.valid.afterMiss hCount 0 hPlace (by decide), l.nextAttempt_lt m 0, ?_,
      hAwaits, ⟨_, hThere⟩, ?_⟩
    · intro x
      rw [slots_afterMiss hSelected]
      by_cases hSame : x = slot
      · rw [hSame, m.rewrite_slots_self]
        decide
      · rw [m.rewrite_slots_of_ne .push hSame]
        exact hWaiting.noAdd x
    · rw [l.afterMiss_failures]
      exact hRun'
  · exact hMay.elim
  · exact hEnds.elim

/-- Any slots can be made to hold pushes, if there is room for the frame with them. -/
theorem AwaitsFeedback.misses (h : l.Describes seeker target) (hProtocol : l.protocol = c.protocol)
    (hFeedback : c.protocol.successFeedback ≠ c.protocol.failureFeedback) (hDepth : 8 ≤ depth)
    {slots : List Nat} :
    ∀ {m : Contents} {a : Engine (List Nat)},
      AwaitsFeedback l depth c seeker e m (pushingDraws l slots) a → slots.Nodup →
      (∀ x ∈ slots, x ∈ l.selected ∧ m.slots x ≠ .push) →
      l.config.slotCount + l.pushes m + slots.length + 3 ≤ depth →
      m.cell .failures + slots.length < primeCount →
      ∃ m' b, AwaitsFeedback l depth c seeker e m' [] b ∧
        l.pushes m' = l.pushes m + slots.length := by
  induction slots with
  | nil =>
    intro m a hWaiting _ _ _ _
    exact ⟨m, a, hWaiting, rfl⟩
  | cons slot slots ih =>
    intro m a hWaiting hNodup hFree hRoom hCount
    -- the slots are distinct, so those still to come hold no push yet
    obtain ⟨hNew, hNodup⟩ := List.nodup_cons.mp hNodup
    obtain ⟨⟨hSelected, hOther⟩, hFree⟩ := List.forall_mem_cons.mp hFree
    rw [List.length_cons] at hRoom hCount
    obtain ⟨b, hNext⟩ := hWaiting.miss h hProtocol hFeedback hSelected hOther (by omega) hDepth
      (by omega)
    have hPushes := pushes_afterMiss hSelected hOther 0
    have hFailures := l.afterMiss_failures m 0 (l.selected.idxOf slot) 0
    have hFree' : ∀ x ∈ slots, x ∈ l.selected ∧
        (l.afterMiss m 0 (l.selected.idxOf slot) 0).slots x ≠ .push := by
      intro x hx
      have hNe : x ≠ slot := by
        rintro rfl
        exact hNew hx
      rw [slots_afterMiss hSelected, m.rewrite_slots_of_ne .push hNe]
      exact hFree x hx
    obtain ⟨m', b', hThere, hMore⟩ := ih hNext hNodup hFree' (by omega) (by omega)
    refine ⟨m', b', hThere, ?_⟩
    rw [hMore, hPushes, List.length_cons]
    omega

/-- Feedback on the greatest frame that the stack takes is one word too many. -/
theorem AwaitsFeedback.overflow (h : l.Describes seeker target)
    (hWaiting : AwaitsFeedback l depth c seeker e m draws a)
    (hFull : l.config.slotCount + l.pushes m + 3 = depth) :
    ∃ b, ProtocolRun c seeker e 0 b ∧ b.phase = .errored := by
  obtain ⟨printed, hAt⟩ := hWaiting.shows
  have hHeight := length_frame_of_noAdd (l := l) hWaiting.noAdd
  have hAsks : seeker.asksForTarget a.ip = false := by
    rw [asksForTarget_eq h, hAt.ip, decide_eq_false_iff_not]
    omega
  let w : Watch (List Nat) := { Watch.idle depth with waits := fun _ => False }
  obtain ⟨-, hCode, -, -, -⟩ := l.placed_parts w
  -- the word to compare with does not fit, so the next instruction faults
  have hHere : l.AtFeedback w m [] printed draws a := hAt.of_depth rfl
  obtain ⟨r, b, hResume, -, -, hLeads⟩ := leads_resume (v := (c.protocol.successFeedback : Int))
    hWaiting.awaits hHere (.inl trivial) id (from_push_full hCode trivial (by
      show depth ≤ (frame l.config.frameMarker m.attempt (l.shape m) []).length + 1
      omega))
  obtain ⟨b', hRun, -, ⟨-, hNever⟩ | ⟨-, hErrored, -⟩ | ⟨-, hNever⟩⟩ :=
    hLeads.exists_end (ProtocolRun c seeker e 0) (hWaiting.run.hit hAsks hResume)
      fun _ _ _ hThere hStep => hThere.step hStep
  · exact hNever.elim
  · exact ⟨b', hRun, hErrored⟩
  · exact hNever.elim

/-- Without room for the greatest frame there are draws that make the stack overflow. -/
theorem exists_overflow (h : l.Describes seeker target) (hProtocol : l.protocol = c.protocol)
    (hFeedback : c.protocol.successFeedback ≠ c.protocol.failureFeedback)
    (hTarget : target < l.config.attemptModulus) (hValid : l.config.slotCount + 8 ≤ depth)
    (hShort : depth < l.config.slotCount + l.selected.toFinset.card + 4) (historyLimit : Nat) :
    ∃ (random : List Nat) (a : Engine (List Nat)), ProtocolRun c seeker (Engine.start seeker.program
      seeker.initialStack depth historyLimit random) 0 a ∧ a.phase = .errored := by
  have hCard : l.selected.dedup.length = l.selected.toFinset.card := List.card_toFinset _
  have hFew : l.selected.dedup.length ≤ l.selected.length := (List.dedup_sublist _).length_le
  have hSelected := l.selectedCount_lt
  -- as many of the selected slots as make the frame fill the stack but for one word
  obtain ⟨slots, hSlots⟩ :
      ∃ slots, slots = l.selected.dedup.take (depth - (l.config.slotCount + 3)) := ⟨_, rfl⟩
  have hLength : slots.length = depth - (l.config.slotCount + 3) := by
    rw [hSlots, List.length_take]
    omega
  have hNodup : slots.Nodup := by
    rw [hSlots]
    exact (List.nodup_dedup _).sublist (List.take_sublist _ _)
  have hFree : ∀ x ∈ slots, x ∈ l.selected ∧ (Contents.start target).slots x ≠ .push := by
    intro x hx
    rw [hSlots] at hx
    refine ⟨List.mem_dedup.mp (List.mem_of_mem_take hx), ?_⟩
    rw [Contents.start_slots]
    decide
  have hNone : l.pushes (.start target) = 0 := by
    refine List.countP_eq_zero.mpr fun x _ => ?_
    rw [Contents.start_slots]
    decide
  have hAdd : ∀ x, (Contents.start target).slots x ≠ .add := by
    intro x
    rw [Contents.start_slots]
    decide
  have hFits : l.config.slotCount + l.pushes (.start target) + 2 < depth := by omega
  have hFrom := from_zero_towards h.valid hFits [] (pushingDraws l slots)
  have hStart : l.config.slotCount + 1 ≤ depth := by omega
  have hLeads := hFrom (Layout.fits_start hStart) _ rfl (h.shows_start historyLimit _)
  obtain ⟨a, hRun, -, ⟨hAwaits, hAt⟩ | ⟨hMay, -⟩ | ⟨-, hEnds⟩⟩ :=
    hLeads.exists_end (ProtocolRun c seeker _ 0) .start fun _ _ _ hHere hStep => hHere.step hStep
  · -- at the first wait no slot holds anything
    have hWaiting : AwaitsFeedback l depth c seeker _ (.start target) (pushingDraws l slots) a :=
      ⟨h.valid, hTarget, hAdd, hAwaits, ⟨[], hAt⟩, hRun⟩
    have hCount : (Contents.start target).cell .failures + slots.length < primeCount := by
      show 0 + slots.length < primeCount
      omega
    obtain ⟨m, b, hFilled, hPushes⟩ :=
      hWaiting.misses h hProtocol hFeedback (by omega) hNodup hFree (by omega) hCount
    exact ⟨_, hFilled.overflow h (by omega)⟩
  · exact hMay.elim
  · exact hEnds.elim

end Overflow

end Seeker

-- ---------------------------------------------------------------------------
-- The exact condition
-- ---------------------------------------------------------------------------

/-- **When a goal-seeker never stops.** With a valid configuration, a program that is given words
in keeping with the protocol never faults and never halts, whatever it draws, if and only if the
stack is deep enough for its slots, its selected slots and four words more. -/
theorem never_stops_iff {c : Config} (hValid : c.validate = .ok ()) {b b' : SeekerBuilder}
    (hStart : SeekerBuilder.start c.seeker c.protocol = .ok b) {bank : SlotBank}
    {target streak : Nat} (hTarget : target < c.seeker.attemptModulus) {seeker : GoalSeeker}
    (hBuild : (SeekerBuilder.build target streak).run { b with bank } = .ok seeker b') :
    (∀ (σ : Type) [RandomSource σ] (random : σ) (failures : Nat) (e : Engine σ),
      ProtocolRun c seeker (Engine.start seeker.program seeker.initialStack
        c.engine.maxStackDepth c.engine.historyLimit random) failures e →
          e.phase ≠ .errored ∧ e.phase ≠ .halted) ↔
      c.seeker.slotCount + seeker.selectedSlots.toFinset.card + 4 ≤ c.engine.maxStackDepth := by
  obtain ⟨⟨hConfig, hProtocol⟩, hPossible⟩ := SeekerBuilder.start_spec hStart
  obtain ⟨-, -, l, hSeeker, hProtocol', hDescribes⟩ :=
    Seeker.build_spec (b := { b with bank }) hPossible hBuild
  have hSeeker : l.config = c.seeker := hSeeker.trans hConfig
  have hProtocol : l.protocol = c.protocol := hProtocol'.trans hProtocol
  have hConsistent := Config.validate_eq_ok_iff.mp hValid
  have hDepth := hConsistent.depth
  rw [hDescribes.selected, ← hSeeker]
  rw [← hSeeker] at hTarget hDepth
  constructor
  · intro hNever
    by_contra hShort
    -- the draws that overflow are a source of randomness like any other
    obtain ⟨random, a, hRun, hErrored⟩ := Seeker.exists_overflow hDescribes hProtocol
      hConsistent.feedback hTarget hDepth (Nat.not_le.mp hShort) c.engine.historyLimit
    exact (hNever (List Nat) random 0 a hRun).1 hErrored
  · intro hRoom σ _ random failures e hRun
    have hLeads := Seeker.leads_of_run hDescribes hSeeker hProtocol hTarget hRoom (by omega) hRun
    exact ⟨hLeads.not_errored id, hLeads.not_halted⟩

/-- With a single slot the default depth is enough. -/
theorem never_stops_one_slot : ∃ seeker b b',
    SeekerBuilder.start { slotCount := 1 } {} = .ok b ∧
    (SeekerBuilder.build 3 0).run b = .ok seeker b' ∧
    ∀ (σ : Type) [RandomSource σ] (random : σ) (failures : Nat) (e : Engine σ),
      ProtocolRun { seeker := { slotCount := 1 } } seeker (Engine.start seeker.program
        seeker.initialStack 4096 4096 random) failures e →
          e.phase ≠ .errored ∧ e.phase ≠ .halted := by
  obtain ⟨b, seeker, b', hStart, hBuild, hSelected⟩ := Seeker.exists_smallest
  have hRoom : 1 + seeker.selectedSlots.toFinset.card + 4 ≤ 4096 := by
    rw [hSelected]
    decide
  exact ⟨seeker, b, b', hStart, hBuild, (never_stops_iff (c := { seeker := { slotCount := 1 } })
    (by decide) hStart (by decide) hBuild).mpr hRoom⟩

end FactorMachine
