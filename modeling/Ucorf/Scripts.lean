import Mathlib.Data.List.Basic
import Mathlib.Tactic.Common

/-!
# Programs with an outside

A script is a program over a state that gets answers from outside: it takes them off
a list, one for each question, and has no result when it asks for more than there are.
So a list of answers describes what the outside does during one execution, and a loop
that never ends has no list.
-/
namespace Ucorf.Scripts

variable {σ ρ α β : Type}

abbrev Script (σ ρ : Type) := StateT (σ × List ρ) Option

def ask : Script σ ρ ρ := fun p =>
  match p.2 with
  | [] => none
  | r :: rest => some (r, (p.1, rest))

def view (f : σ → α) : Script σ ρ α := fun p => some (f p.1, p)

def update (f : σ → σ) : Script σ ρ Unit := fun p => some ((), (f p.1, p.2))

/-- Execute a script on exactly the answers that it asks for. -/
def exec (x : Script σ ρ α) (s : σ) (answers : List ρ) : Option (α × σ) :=
  match x (s, answers) with
  | some (a, (s', [])) => some (a, s')
  | _ => none

/-- An execution uses up its answers. -/
theorem exec_eq_some {x : Script σ ρ α} {s s' : σ} {answers : List ρ} {a : α} :
    exec x s answers = some (a, s') ↔ x (s, answers) = some (a, (s', [])) := by
  unfold exec
  constructor
  · intro h
    split at h
    · cases h
      assumption
    · cases h
  · intro h
    rw [h]

theorem pure_eq_some {a b : α} {p q : σ × List ρ} :
    (pure a : Script σ ρ α) p = some (b, q) ↔ a = b ∧ p = q := by
  constructor
  · intro h
    cases h
    exact ⟨rfl, rfl⟩
  · rintro ⟨rfl, rfl⟩
    rfl

/-- Take the first step off a script. -/
theorem bind_eq_some {x : Script σ ρ α} {f : α → Script σ ρ β} {p : σ × List ρ}
    {r : β × (σ × List ρ)} :
    (x >>= f) p = some r ↔ ∃ a q, x p = some (a, q) ∧ f a q = some r := by
  simp [bind, StateT.bind, Option.bind_eq_some_iff]

/-- A call takes the next answer and leaves the state. -/
theorem ask_eq_some {r : ρ} {p q : σ × List ρ} :
    (ask : Script σ ρ ρ) p = some (r, q) ↔ p.1 = q.1 ∧ p.2 = r :: q.2 := by
  unfold ask
  split
  · simp [*]
  · rename_i b rest hp
    simp only [Option.some.injEq, hp, List.cons.injEq, Prod.ext_iff]
    tauto

theorem view_eq_some {f : σ → α} {a : α} {p q : σ × List ρ} :
    (view f : Script σ ρ α) p = some (a, q) ↔ f p.1 = a ∧ p = q := by
  simp [view]

/-- An update takes no answer. -/
theorem update_eq_some {f : σ → σ} {u : Unit} {p q : σ × List ρ} :
    (update f : Script σ ρ Unit) p = some (u, q) ↔ q = (f p.1, p.2) := by
  simp [update, eq_comm]

/-- Every execution relates the states before and after it. -/
def Respects (R : σ → σ → Prop) (x : Script σ ρ α) : Prop := ∀ p a q, x p = some (a, q) → R p.1 q.1

/-- A relation that a script respects holds between the ends of an execution. -/
theorem Respects.exec {R : σ → σ → Prop} {x : Script σ ρ α} (h : Respects R x) {s s' : σ}
    {answers : List ρ} {a : α}
    (he : Scripts.exec x s answers = some (a, s')) : R s s' :=
  h _ _ _ (exec_eq_some.mp he)

section Rules

variable {R : σ → σ → Prop}

theorem respects_pure (hrefl : ∀ s, R s s) (a : α) : Respects R (pure a : Script σ ρ α) := by
  intro p b q h
  obtain ⟨-, rfl⟩ := pure_eq_some.mp h
  exact hrefl p.1

theorem respects_ask (hrefl : ∀ s, R s s) : Respects R (ask : Script σ ρ ρ) := by
  intro p b q h
  rw [(ask_eq_some.mp h).1]
  exact hrefl q.1

theorem respects_view (hrefl : ∀ s, R s s) (f : σ → α) : Respects R (view f : Script σ ρ α) := by
  intro p b q h
  obtain ⟨-, rfl⟩ := view_eq_some.mp h
  exact hrefl p.1

theorem respects_update {f : σ → σ} (h : ∀ s, R s (f s)) :
    Respects R (update f : Script σ ρ Unit) := by
  intro p b q hp
  rw [update_eq_some.mp hp]
  exact h p.1

/-- Scripts one after the other respect what each of them does. -/
theorem Respects.bind (htrans : ∀ s t u, R s t → R t u → R s u) {x : Script σ ρ α}
    {f : α → Script σ ρ β}
    (hx : Respects R x) (hf : ∀ a, Respects R (f a)) : Respects R (x >>= f) := by
  intro p b q h
  obtain ⟨a, m, hm, hq⟩ := bind_eq_some.mp h
  exact htrans _ _ _ (hx p a m hm) (hf a m b q hq)

/-- A branch may use the condition that it was taken under. -/
theorem respects_ite {c : Prop} [Decidable c] {x y : Script σ ρ α} (hx : c → Respects R x)
    (hy : ¬ c → Respects R y) :
    Respects R (if c then x else y) := by
  split
  · exact hx (by assumption)
  · exact hy (by assumption)

end Rules

/-- No execution gives answers back. -/
def Shrinks (x : Script σ ρ α) : Prop := ∀ p a q, x p = some (a, q) → q.2.length ≤ p.2.length

section Answers

theorem shrinks_pure (a : α) : Shrinks (pure a : Script σ ρ α) := by
  intro p b q h
  obtain ⟨-, rfl⟩ := pure_eq_some.mp h
  exact Nat.le_refl _

/-- A call uses up one answer. -/
theorem shrinks_ask : Shrinks (ask : Script σ ρ ρ) := by
  intro p r q h
  rw [(ask_eq_some.mp h).2]
  exact Nat.le_succ _

theorem shrinks_view (f : σ → α) : Shrinks (view f : Script σ ρ α) := by
  intro p b q h
  obtain ⟨-, rfl⟩ := view_eq_some.mp h
  exact Nat.le_refl _

theorem shrinks_update (f : σ → σ) : Shrinks (update f : Script σ ρ Unit) := by
  intro p b q h
  obtain rfl := update_eq_some.mp h
  exact Nat.le_refl _

/-- Scripts one after the other leave a rest of the rest. -/
theorem Shrinks.bind {x : Script σ ρ α} {f : α → Script σ ρ β} (hx : Shrinks x)
    (hf : ∀ a, Shrinks (f a)) :
    Shrinks (x >>= f) := by
  intro p b q h
  obtain ⟨a, m, hm, hq⟩ := bind_eq_some.mp h
  exact Nat.le_trans (hf a m b q hq) (hx p a m hm)

theorem shrinks_ite {c : Prop} [Decidable c] {x y : Script σ ρ α} (hx : Shrinks x)
    (hy : Shrinks y) :
    Shrinks (if c then x else y) := by
  split
  · exact hx
  · exact hy

/-- Two scripts with one first step need to agree only where that step leads. -/
theorem bind_agree {x : Script σ ρ α} {f g : α → Script σ ρ β} {p : σ × List ρ}
    (h : ∀ a q, x p = some (a, q) → f a q = g a q) : (x >>= f) p = (x >>= g) p := by
  simp only [bind, StateT.bind]
  cases hx : x p with
  | none => rfl
  | some r => exact h r.1 r.2 hx

end Answers

end Ucorf.Scripts
