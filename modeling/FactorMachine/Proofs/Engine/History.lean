import FactorMachine.Engine.History
import FactorMachine.Proofs.Window

/-!
# FactorMachine — events in a row

Recording events one after the other, and what a history still shows of them. A history with room
for all of them shows exactly these events, so histories tell any two rows of events apart.

## Results

* `History.latest_recordAll` — what a history keeps.
* `History.events_recordAll` — a history with room for everything keeps everything.
* `History.recordAll_inj`    — events that every history records alike are the same.
-/

namespace FactorMachine

namespace History

/-- Records events in a row. -/
def recordAll (h : History) (events : List Event) : History := events.foldl record h

@[simp] theorem recordAll_nil (h : History) : h.recordAll [] = h := rfl

theorem recordAll_append (h : History) (xs ys : List Event) :
    h.recordAll (xs ++ ys) = (h.recordAll xs).recordAll ys := List.foldl_append

theorem window_recordAll (h : History) (events : List Event) :
    (h.recordAll events).window = events.foldl Window.push h.window := by
  induction events generalizing h with
  | nil => rfl
  | cons event events ih =>
    -- counting an event leaves the window alone
    have hWindow : (h.record event).window = h.window.push event := by cases event <;> rfl
    rw [recordAll, List.foldl_cons, List.foldl_cons, ← hWindow]
    exact ih (h.record event)

/-- Of all events the last ones are kept, as many as the limit allows. -/
theorem latest_recordAll (limit : Nat) (events : List Event) :
    ((empty limit).recordAll events).events = events.rtake (max limit 1) := by
  have hShows := (Window.shows_empty limit).pushAll events
  rw [History.events, window_recordAll]
  exact hShows.latest

/-- A history with room for everything keeps everything. -/
theorem events_recordAll {limit : Nat} {events : List Event} (hRoom : events.length ≤ limit) :
    ((empty limit).recordAll events).events = events := by
  rw [latest_recordAll, List.rtake, Nat.sub_eq_zero_of_le (by omega), List.drop_zero]

/-- Events that every history records alike are the same. -/
theorem recordAll_inj {xs ys : List Event} (h : ∀ h : History, h.recordAll xs = h.recordAll ys) :
    xs = ys := by
  -- a history that has room for both
  have hSame := congrArg History.events (h (empty (max xs.length ys.length)))
  rwa [events_recordAll (Nat.le_max_left _ _), events_recordAll (Nat.le_max_right _ _)] at hSame

end History

end FactorMachine
