import FactorMachine.Text.Numeral
import Mathlib.Tactic.Common

/-!
# FactorMachine — numerals read back

What is printed as a number is read as that number, and different numbers are printed
differently. What else is read as a number is a `Numeral`: digits, which may begin with zeros, and
perhaps a plus sign before them.

## Results

* `natural?_eq_some_iff` — what a reader with a bound accepts.
* `digits?_toDigits`   — the digits of a number are read as the number.
* `natural?_toDigits`  — so are they by a reader with a bound above it.
* `integer?_toString`  — so is the text of a word, if it is within the bound.
-/

namespace FactorMachine.Text

/-- A decimal digit stands for its distance from zero. -/
theorem digit?_of_isDigit {c : Char} (h : c.isDigit = true) :
    digit? c = some (c.toNat - '0'.toNat) := by
  rw [Char.isDigit, Bool.and_eq_true, decide_eq_true_eq, decide_eq_true_eq] at h
  unfold digit?
  rw [if_pos ⟨h.1, h.2⟩]

theorem digitsFrom_eq {cs : List Char} {value : Nat} (h : ∀ c ∈ cs, c.isDigit = true) :
    digitsFrom value cs = some (Nat.ofDigitChars 10 cs value) := by
  induction cs generalizing value with
  | nil => rfl
  | cons c rest ih =>
    obtain ⟨hDigit, hRest⟩ := List.forall_mem_cons.mp h
    unfold digitsFrom
    rw [digit?_of_isDigit hDigit, Nat.ofDigitChars_cons]
    exact ih hRest

/-- What is read as a digit is one. -/
theorem isDigit_of_digit? {c : Char} {d : Nat} (h : digit? c = some d) : c.isDigit = true := by
  unfold digit? at h
  split at h
  · rename_i hRange
    rw [Char.isDigit, Bool.and_eq_true, decide_eq_true_eq, decide_eq_true_eq]
    exact hRange
  · cases h

/-- Only digits are read, and they are read to the base ten. -/
theorem digitsFrom_eq_some_iff {cs : List Char} {value result : Nat} :
    digitsFrom value cs = some result ↔
      (∀ c ∈ cs, c.isDigit = true) ∧ Nat.ofDigitChars 10 cs value = result := by
  constructor
  · intro h
    have hDigits : ∀ c ∈ cs, c.isDigit = true := by
      induction cs generalizing value with
      | nil => exact nofun
      | cons c rest ih =>
        unfold digitsFrom at h
        split at h
        · rename_i d hDigit
          exact List.forall_mem_cons.mpr ⟨isDigit_of_digit? hDigit, ih h⟩
        · cases h
    rw [digitsFrom_eq hDigits, Option.some.injEq] at h
    exact ⟨hDigits, h⟩
  · rintro ⟨hDigits, rfl⟩
    exact digitsFrom_eq hDigits

theorem digits?_eq_some_iff {cs : List Char} {value : Nat} : digits? cs = some value ↔
    cs ≠ [] ∧ (∀ c ∈ cs, c.isDigit = true) ∧ Nat.ofDigitChars 10 cs 0 = value := by
  cases cs with
  | nil => exact ⟨nofun, fun h => absurd rfl h.1⟩
  | cons c rest =>
    exact digitsFrom_eq_some_iff.trans ⟨fun h => ⟨List.cons_ne_nil c rest, h⟩, And.right⟩

/-- One or more digits, perhaps with a plus sign before them, and their value. -/
def Numeral (cs : List Char) (value : Nat) : Prop :=
  ∃ digits, (cs = digits ∨ cs = '+' :: digits) ∧ digits ≠ [] ∧ (∀ c ∈ digits, c.isDigit = true) ∧
    Nat.ofDigitChars 10 digits 0 = value

/-- A numeral begins with a digit or a plus sign. -/
theorem Numeral.exists_eq_cons {cs : List Char} {value : Nat} (h : Numeral cs value) :
    ∃ c rest, cs = c :: rest ∧ (c.isDigit = true ∨ c = '+') := by
  obtain ⟨digits, rfl | rfl, hSome, hDigits, -⟩ := h
  · obtain ⟨c, rest, rfl⟩ := List.exists_cons_of_ne_nil hSome
    exact ⟨c, rest, rfl, .inl (hDigits c List.mem_cons_self)⟩
  · exact ⟨'+', digits, rfl, .inr rfl⟩

/-- A reader with a bound accepts the numerals whose value is below it. -/
theorem natural?_eq_some_iff {bound value : Nat} {cs : List Char} :
    natural? bound cs = some value ↔ Numeral cs value ∧ value < bound := by
  unfold natural?
  rw [Option.filter_eq_some_iff, decide_eq_true_eq]
  refine and_congr_left fun _ => ?_
  constructor
  · intro h
    split at h
    · rename_i rest
      exact ⟨rest, .inr rfl, digits?_eq_some_iff.mp h⟩
    · exact ⟨cs, .inl rfl, digits?_eq_some_iff.mp h⟩
  · rintro ⟨digits, hSign, hNumeral⟩
    have hRead := digits?_eq_some_iff.mpr hNumeral
    rcases hSign with rfl | rfl
    · -- digits do not begin with a sign
      split
      · obtain ⟨-, hDigits, -⟩ := hNumeral
        exact absurd (hDigits '+' List.mem_cons_self) (by decide)
      · exact hRead
    · exact hRead

theorem isDigit_toDigits (n : Nat) : ∀ c ∈ Nat.toDigits 10 n, c.isDigit = true :=
  fun _ => Nat.isDigit_of_mem_toDigits (by decide) (Nat.le_refl 10)

/-- The digits of a number are read as the number. -/
theorem digits?_toDigits (n : Nat) : digits? (Nat.toDigits 10 n) = some n := by
  have hRead : digitsFrom 0 (Nat.toDigits 10 n) =
      some (Nat.ofDigitChars 10 (Nat.toDigits 10 n) 0) := digitsFrom_eq (isDigit_toDigits n)
  rw [Nat.ofDigitChars_toDigits (by decide) (Nat.le_refl 10)] at hRead
  cases hDigits : Nat.toDigits 10 n with
  | nil => exact absurd hDigits Nat.toDigits_ne_nil
  | cons c rest =>
    rw [hDigits] at hRead
    exact hRead

/-- The text of a number begins with a digit, hence with no sign. -/
theorem exists_toDigits_eq_cons (n : Nat) :
    ∃ c rest, Nat.toDigits 10 n = c :: rest ∧ c.isDigit = true := by
  cases hDigits : Nat.toDigits 10 n with
  | nil => exact absurd hDigits Nat.toDigits_ne_nil
  | cons c rest =>
    refine ⟨c, rest, rfl, isDigit_toDigits n c ?_⟩
    rw [hDigits]
    exact List.mem_cons_self

/-- The digits of a number below the bound are read as the number. -/
theorem natural?_toDigits {bound n : Nat} (h : n < bound) :
    natural? bound (Nat.toDigits 10 n) = some n := by
  have hRead := digits?_toDigits n
  have hKept : (some n).filter (· < bound) = some n := by
    rw [Option.filter_some, if_pos (decide_eq_true h)]
  obtain ⟨c, rest, hDigits, hDigit⟩ := exists_toDigits_eq_cons n
  rw [hDigits] at hRead ⊢
  unfold natural?
  split
  · rename_i hPlus
    rw [(List.cons.inj hPlus).1] at hDigit
    cases hDigit
  · rw [hRead]
    exact hKept

/-- The text of a word that is no less than zero is read as the word. -/
theorem integer?_toString {bound n : Nat} (h : n < bound) :
    integer? bound (toString (n : Int)).toList = some (n : Int) := by
  have hText : (toString (n : Int)).toList = Nat.toDigits 10 n := Nat.toList_repr
  have hRead := digits?_toDigits n
  have hKept :
      (some (n : Int)).filter (fun v => -(bound : Int) ≤ v ∧ v < bound) = some (n : Int) := by
    rw [Option.filter_some, if_pos (decide_eq_true (by omega))]
  obtain ⟨c, rest, hDigits, hDigit⟩ := exists_toDigits_eq_cons n
  rw [hText]
  rw [hDigits] at hRead ⊢
  unfold integer?
  split
  · rename_i hPlus
    rw [(List.cons.inj hPlus).1] at hDigit
    cases hDigit
  · rename_i hMinus
    rw [(List.cons.inj hMinus).1] at hDigit
    cases hDigit
  · rw [hRead]
    exact hKept

/-- Different numbers have different texts. -/
theorem toString_ne {m n : Nat} (h : m ≠ n) : toString m ≠ toString n := by
  intro hSame
  have hDigits : Nat.toDigits 10 m = Nat.toDigits 10 n := by
    have hTexts : (toString m).toList = (toString n).toList := congrArg String.toList hSame
    rwa [Nat.toString_eq_repr, Nat.toString_eq_repr, Nat.toList_repr, Nat.toList_repr] at hTexts
  have hRead := digits?_toDigits m
  rw [hDigits, digits?_toDigits n, Option.some.injEq] at hRead
  exact h hRead.symm

end FactorMachine.Text
