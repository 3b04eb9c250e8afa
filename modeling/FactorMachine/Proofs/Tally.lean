import FactorMachine.Tally
import Mathlib.Algebra.GroupWithZero.Nat
import Mathlib.Data.List.Nodup

/-!
# FactorMachine — what a tally counts

A tally grows by one meeting at a time: the entry of a key is raised if there is one, and is made
if there is none. So it never has two entries for one key, and none for a key that was not met. It
`Counts` a list if it has just the entries that the list calls for, and then it tells of every key
how often it occurs there.

## Results

* `Counts.bump`, `counts_ofList` — one meeting more, and a whole list.
* `Counts.mem_iff`     — the entries of a tally.
* `sum_bump`           — the counts of all keys together.
-/

namespace FactorMachine.Tally

variable {κ : Type} [DecidableEq κ]

/-- Counts a row of keys. -/
def bumpAll (t : Tally κ) (keys : List κ) : Tally κ :=
  keys.foldl (fun tally key => bump key tally) t

/-- A tally that has counted these keys: each has one entry, and no entry is for nothing. -/
structure Counts (t : Tally κ) (keys : List κ) : Prop where
  distinct : (t.map Prod.fst).Nodup
  positive : ∀ entry ∈ t, 0 < entry.2
  met : ∀ key, t.count key = keys.countP (· = key)

theorem counts_nil : Counts ([] : Tally κ) [] := ⟨List.nodup_nil, nofun, fun _ => rfl⟩

-- ---------------------------------------------------------------------------
-- One meeting
-- ---------------------------------------------------------------------------

theorem count_bump (met key : κ) (t : Tally κ) :
    (t.bump met).count key = t.count key + if met = key then 1 else 0 := by
  induction t with
  | nil => simp [bump, Tally.count]
  | cons entry rest ih =>
    obtain ⟨k, n⟩ := entry
    unfold bump
    by_cases hMet : k = met
    · subst hMet
      rw [if_pos rfl, Tally.count, Tally.count]
      split <;> rfl
    · rw [if_neg hMet, Tally.count, Tally.count, ih]
      by_cases hKey : k = key
      · rw [if_pos hKey, if_pos hKey, if_neg fun hSame => hMet (hKey.trans hSame.symm)]
        rfl
      · rw [if_neg hKey, if_neg hKey]

/-- The keys of a tally are the earlier ones, and at the end the key that was met if it is new. -/
theorem keys_bump (met : κ) (t : Tally κ) : (t.bump met).map Prod.fst =
    if met ∈ t.map Prod.fst then t.map Prod.fst else t.map Prod.fst ++ [met] := by
  induction t with
  | nil => rfl
  | cons entry rest ih =>
    obtain ⟨k, n⟩ := entry
    unfold bump
    by_cases hMet : k = met
    · subst hMet
      rw [if_pos rfl]
      exact (if_pos List.mem_cons_self).symm
    · have hSame : met ∈ ((k, n) :: rest).map Prod.fst ↔ met ∈ rest.map Prod.fst := by
        rw [List.map_cons, List.mem_cons]
        exact or_iff_right fun hKey => hMet hKey.symm
      rw [if_neg hMet, List.map_cons, ih, if_congr hSame rfl rfl]
      split <;> rfl

theorem positive_bump {t : Tally κ} (h : ∀ entry ∈ t, 0 < entry.2) (met : κ) :
    ∀ entry ∈ t.bump met, 0 < entry.2 := by
  induction t with
  | nil => exact List.forall_mem_singleton.mpr Nat.one_pos
  | cons entry rest ih =>
    obtain ⟨hFirst, hRest⟩ := List.forall_mem_cons.mp h
    obtain ⟨k, n⟩ := entry
    unfold bump
    split
    · exact List.forall_mem_cons.mpr ⟨Nat.succ_pos n, hRest⟩
    · exact List.forall_mem_cons.mpr ⟨hFirst, ih hRest⟩

/-- The counts of all keys go up by one. -/
theorem sum_bump (met : κ) (t : Tally κ) :
    ((t.bump met).map Prod.snd).sum = (t.map Prod.snd).sum + 1 := by
  induction t with
  | nil => rfl
  | cons entry rest ih =>
    obtain ⟨k, n⟩ := entry
    unfold bump
    split
    · rw [List.map_cons, List.map_cons, List.sum_cons, List.sum_cons]
      omega
    · rw [List.map_cons, List.map_cons, List.sum_cons, List.sum_cons, ih, Nat.add_assoc]

-- ---------------------------------------------------------------------------
-- Meetings in a row
-- ---------------------------------------------------------------------------

namespace Counts

variable {t : Tally κ} {keys : List κ}

theorem bump (h : t.Counts keys) (met : κ) : (t.bump met).Counts (keys ++ [met]) where
  distinct := by
    rw [keys_bump]
    split
    · exact h.distinct
    · rename_i hNew
      exact List.nodup_append.mpr ⟨h.distinct, List.nodup_singleton met, fun a ha b hb => by
        rw [List.mem_singleton.mp hb]
        exact fun hSame => hNew (hSame ▸ ha)⟩
  positive := positive_bump h.positive met
  met key := by
    rw [count_bump, h.met, List.countP_append, List.countP_singleton]
    simp only [decide_eq_true_eq]

theorem bumpAll (h : t.Counts keys) (more : List κ) :
    (t.bumpAll more).Counts (keys ++ more) := by
  induction more generalizing t keys with
  | nil => rwa [List.append_nil]
  | cons met more ih =>
    rw [List.append_cons]
    exact ih (h.bump met)

/-- A tally tells how often a key occurs. -/
theorem count_eq [BEq κ] [LawfulBEq κ] (h : t.Counts keys) (key : κ) :
    t.count key = keys.count key := by
  rw [h.met, List.count_eq_countP]
  exact List.countP_congr fun k _ => by rw [decide_eq_true_eq, beq_iff_eq]

/-- An entry tells how often its key was met, and there is one for every key that was. -/
theorem mem_iff [BEq κ] [LawfulBEq κ] (h : t.Counts keys) {key : κ} {n : Nat} :
    (key, n) ∈ t ↔ n = keys.count key ∧ 0 < n := by
  rw [← h.count_eq key]
  obtain ⟨hDistinct, hPositive, -⟩ := h
  induction t with
  | nil =>
    refine ⟨nofun, ?_⟩
    rintro ⟨rfl, hMet⟩
    cases hMet
  | cons entry rest ih =>
    obtain ⟨k, m⟩ := entry
    obtain ⟨hNew, hRest⟩ := List.nodup_cons.mp hDistinct
    obtain ⟨hFirst, hOthers⟩ := List.forall_mem_cons.mp hPositive
    rw [List.mem_cons, Tally.count, ih hRest hOthers]
    by_cases hKey : k = key
    · subst hKey
      have hElse : ¬ (n = Tally.count k rest ∧ 0 < n) := by
        rw [← ih hRest hOthers]
        intro hMem
        exact hNew (List.mem_map.mpr ⟨(k, n), hMem, rfl⟩)
      rw [if_pos rfl, or_iff_left hElse, Prod.mk.injEq]
      constructor
      · rintro ⟨-, rfl⟩
        exact ⟨rfl, hFirst⟩
      · rintro ⟨rfl, -⟩
        exact ⟨rfl, rfl⟩
    · rw [if_neg hKey, or_iff_right fun hSame => hKey (Prod.mk.inj hSame).1.symm]

end Counts

theorem counts_ofList (keys : List κ) : (ofList keys).Counts keys := by
  have hCounts := counts_nil.bumpAll keys
  rwa [List.nil_append] at hCounts

end FactorMachine.Tally
