/-!
# FactorMachine — ratios

Rates and averages are quotients of two counts, rounded once to the nearest double. Where
there is nothing to divide by, the rate is zero.
-/

namespace FactorMachine

/-- The double nearest to `part / whole`. -/
def ratio (part whole : Nat) : Float :=
  if whole = 0 then 0 else Float.ofNat part / Float.ofNat whole

end FactorMachine
