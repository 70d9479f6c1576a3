import Mathlib.Combinatorics.Enumerative.DyckWord

/-!
# Balanced brackets

The brackets of a text are the steps of a Dyck word if they are balanced.
-/
namespace Ucorf.Brackets

open DyckStep

/-- No prefix closes more than it opens, and the whole text closes all that it opens. -/
structure Balanced {α : Type} [DecidableEq α] (opening closing : α) (t : List α) : Prop where
  prefixes : ∀ p, p <+: t → p.count closing ≤ p.count opening
  total : t.count opening = t.count closing

section Steps

variable {α : Type} [DecidableEq α] (opening closing : α)

def step (x : α) : Option DyckStep :=
  if x = opening then some U else if x = closing then some D else none

/-- The brackets of a text. -/
def steps (t : List α) : List DyckStep := t.filterMap (step opening closing)

/-- The brackets of a text come in its order. -/
@[simp] theorem steps_append (s t : List α) :
    steps opening closing (s ++ t) = steps opening closing s ++ steps opening closing t :=
  List.filterMap_append

variable {opening closing}

theorem steps_of_free {t : List α} (ho : opening ∉ t) (hc : closing ∉ t) :
    steps opening closing t = [] := by
  rw [steps, List.filterMap_eq_nil_iff]
  intro x hx
  have hopening : x ≠ opening := fun h => ho (h ▸ hx)
  have hclosing : x ≠ closing := fun h => hc (h ▸ hx)
  rw [step, if_neg hopening, if_neg hclosing]

theorem count_U (t : List α) : (steps opening closing t).count U = t.count opening := by
  rw [steps, List.count_filterMap, List.count]
  congr 1
  funext x
  by_cases hx : x = opening
  · simp [step, hx]
  · by_cases hc : x = closing
    · subst hc
      simp [step, hx]
    · simp [step, hx, hc]

theorem count_D (hne : opening ≠ closing) (t : List α) :
    (steps opening closing t).count D = t.count closing := by
  rw [steps, List.count_filterMap, List.count]
  congr 1
  funext x
  by_cases hx : x = opening
  · simp [step, hx, hne]
  · by_cases hc : x = closing
    · simp [step, hc, hne.symm]
    · simp [step, hx, hc]

/-- The list is a Dyck word. -/
def IsDyck (l : List DyckStep) : Prop := ∃ w : DyckWord, w.toList = l

/-- Counting prefixes says the same as a Dyck word. -/
theorem balanced_iff (hne : opening ≠ closing) {t : List α} :
    Balanced opening closing t ↔ IsDyck (steps opening closing t) := by
  constructor
  · intro h
    refine ⟨⟨steps opening closing t, ?_, fun i => ?_⟩, rfl⟩
    · rw [count_U, count_D hne, h.total]
    · obtain ⟨p, hp, htake⟩ := List.prefix_filterMap_iff.mp
        (List.take_prefix i (steps opening closing t))
      have hle := h.prefixes p hp
      rw [htake]
      change (steps opening closing p).count D ≤ (steps opening closing p).count U
      rwa [count_U, count_D hne]
  · rintro ⟨w, hw⟩
    constructor
    · intro p hp
      obtain ⟨r, rfl⟩ := hp
      have hle := w.count_D_le_count_U (steps opening closing p).length
      rwa [hw, steps_append, List.take_left, count_U, count_D hne] at hle
    · have htotal := w.count_U_eq_count_D
      rwa [hw, count_U, count_D hne] at htotal

end Steps

section Words

variable {s t : List DyckStep}

theorem isDyck_nil : IsDyck [] := ⟨0, rfl⟩

/-- Two Dyck words after each other are one. -/
theorem IsDyck.append (hs : IsDyck s) (ht : IsDyck t) : IsDyck (s ++ t) := by
  obtain ⟨v, rfl⟩ := hs
  obtain ⟨w, rfl⟩ := ht
  exact ⟨v + w, rfl⟩

/-- A Dyck word in a pair of brackets is one. -/
theorem IsDyck.nest (h : IsDyck t) : IsDyck (U :: (t ++ [D])) := by
  obtain ⟨w, rfl⟩ := h
  exact ⟨w.nest, rfl⟩

theorem IsDyck.flatMap {β : Type} {f : β → List DyckStep} {xs : List β}
    (h : ∀ x ∈ xs, IsDyck (f x)) : IsDyck (xs.flatMap f) := by
  induction xs with
  | nil => exact isDyck_nil
  | cons x xs ih =>
    rw [List.flatMap_cons]
    exact (h x List.mem_cons_self).append (ih fun y hy => h y (List.mem_cons_of_mem _ hy))

/-- In front of a Dyck word there is nothing to close. -/
theorem isDyck_append_iff (ht : IsDyck t) : IsDyck (s ++ t) ↔ IsDyck s := by
  constructor
  · rintro ⟨w, hw⟩
    obtain ⟨v, rfl⟩ := ht
    have htotal := w.count_U_eq_count_D
    rw [hw, List.count_append, List.count_append, v.count_U_eq_count_D] at htotal
    have htake : w.toList.take s.length = s := by rw [hw, List.take_left]
    have hfront : (w.toList.take s.length).count U = (w.toList.take s.length).count D := by
      rw [htake]
      omega
    exact ⟨w.take s.length hfront, htake⟩
  · intro hs
    exact hs.append ht

/-- A bracket that is opened before a Dyck word is not closed. -/
theorem not_isDyck_open (ht : IsDyck t) : ¬ IsDyck (s ++ U :: t) := by
  rintro ⟨w, hw⟩
  obtain ⟨v, rfl⟩ := ht
  have htotal := w.count_U_eq_count_D
  have hle := w.count_D_le_count_U s.length
  rw [hw, List.take_left] at hle
  rw [hw, List.count_append, List.count_append, List.count_cons_self,
    List.count_cons_of_ne (by decide), v.count_U_eq_count_D] at htotal
  omega

end Words

end Ucorf.Brackets
