/-!
# FactorMachine — tiers of difficulty
-/

namespace FactorMachine

inductive Tier where
  | easy
  | medium
  | hard
  deriving DecidableEq, Repr

namespace Tier

/-- All tiers, ascending. -/
def all : List Tier := [easy, medium, hard]

/-- The next harder tier, if there is one. -/
def up : Tier → Tier
  | easy => medium
  | medium | hard => hard

/-- The next easier tier, if there is one. -/
def down : Tier → Tier
  | hard => medium
  | medium | easy => easy

/-- The name in running text. -/
def name : Tier → String
  | easy => "Easy"
  | medium => "Medium"
  | hard => "Hard"

/-- The name in data. -/
def key : Tier → String
  | easy => "EASY"
  | medium => "MEDIUM"
  | hard => "HARD"

def ofKey? (key : String) : Option Tier := all.find? (·.key == key)

end Tier

end FactorMachine
