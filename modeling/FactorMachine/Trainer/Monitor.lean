import FactorMachine.Config.Basic
import FactorMachine.Ratio

/-!
# FactorMachine — how well attempts go

A monitor counts attempts and successes, and how many attempts each success took. The two totals
are counted in 64 bits, which no run exhausts. The attempts that one success takes are counted in
32 bits, and this count begins again at zero after the greatest number that it can hold.
-/

namespace FactorMachine

/-- One more than a count of attempts, which stays below `streakBound`. -/
def nextCount (n : Nat) : Nat := (n + 1) % streakBound

structure Monitor where
  attempts : Nat
  successes : Nat
  /-- The count of the attempts that each success took, the latest first. -/
  attemptsPerSuccess : List Nat
  /-- The count of the attempts since the latest success. -/
  openAttempts : Nat
  deriving DecidableEq, Repr

namespace Monitor

def empty : Monitor := ⟨0, 0, [], 0⟩

def record (m : Monitor) (success : Bool) : Monitor :=
  if success then
    { attempts := m.attempts + 1
      successes := m.successes + 1
      attemptsPerSuccess := nextCount m.openAttempts :: m.attemptsPerSuccess
      openAttempts := 0 }
  else { m with attempts := m.attempts + 1, openAttempts := nextCount m.openAttempts }

/-- The targets that were tried: one for each success, and one more if attempts are open. -/
def targetsSeen (m : Monitor) : Nat :=
  m.attemptsPerSuccess.length + (if 0 < m.openAttempts then 1 else 0)

/-- Successes per target that was tried. -/
def successRate (m : Monitor) : Float := ratio m.successes m.targetsSeen

/-- The sum of several counts, which is no wider than they are. -/
def total (counts : List Nat) : Nat := counts.foldr (· + ·) 0 % streakBound

/-- Attempts per success. -/
def averageAttempts (m : Monitor) : Float :=
  ratio (total m.attemptsPerSuccess) m.attemptsPerSuccess.length

/-- How many successes the trend looks at. -/
def trendWindow : Nat := 3

/-- Positive when the latest successes took fewer attempts than the average; zero while there
are too few of them. -/
def trend (m : Monitor) : Float :=
  if m.attemptsPerSuccess.length < trendWindow then 0
  else m.averageAttempts - ratio (total (m.attemptsPerSuccess.take trendWindow)) trendWindow

end Monitor

end FactorMachine
