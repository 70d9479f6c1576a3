import Mathlib.Data.List.Induction
import Mathlib.Tactic.Common

/-!
# Runs and interleaved threads

A run executes a list of actions of a partial step function. A threaded program
runs any number of threads over one shared state: an action starts a thread or
lets one thread execute its next atomic section, which may start further
threads. The schedule is the list of actions, so the order of two sections is
the order of their labels in it.
-/
namespace Ucorf.Threads

section Runs

variable {S A : Type*}

def run (step : S → A → Option S) (s : S) (acts : List A) : Option S := acts.foldlM step s

variable {step : S → A → Option S} {s s' t : S} {a : A} {acts bcts : List A}

@[simp] theorem run_nil : run step s [] = some s := rfl

@[simp] theorem run_cons : run step s (a :: acts) = (step s a).bind fun m => run step m acts := by
  simp [run, List.foldlM_cons, Option.bind_eq_bind]

theorem run_append :
    run step s (acts ++ bcts) = (run step s acts).bind fun m => run step m bcts := by
  simp [run, List.foldlM_append, Option.bind_eq_bind]

/-- Join two runs. -/
theorem run_join (h : run step s acts = some s') (h' : run step s' bcts = some t) :
    run step s (acts ++ bcts) = some t := by
  rw [run_append, h, Option.bind_some, h']

theorem run_snoc (h : run step s (acts ++ [a]) = some t) :
    ∃ m, run step s acts = some m ∧ step m a = some t := by
  rw [run_append, Option.bind_eq_some_iff] at h
  obtain ⟨m, hm, ha⟩ := h
  exact ⟨m, hm, by simpa using ha⟩

/-- What holds at first with the empty schedule, and after each step with the
schedule so far, holds at the end of the run. -/
theorem trace_invariant {I : List A → S → Prop} (h₀ : I [] s)
    (hstep : ∀ acts m a m', run step s acts = some m → I acts m →
      step m a = some m' → I (acts ++ [a]) m')
    (h : run step s acts = some t) : I acts t := by
  induction acts using List.reverseRecOn generalizing t with
  | nil =>
    cases h
    exact h₀
  | append_singleton acts a ih =>
    obtain ⟨m, hm, ha⟩ := run_snoc h
    exact hstep acts m a t hm (ih hm) ha

/-- The invariant rule. -/
theorem run_invariant {I : S → Prop} (h₀ : I s) (hstep : ∀ m a m', I m → step m a = some m' → I m')
    (h : run step s acts = some t) : I t :=
  trace_invariant (I := fun _ => I) h₀ (fun _ m a m' _ hm ha => hstep m a m' hm ha) h

/-- What each step gives back, a run gives back. -/
theorem run_back {I : S → Prop} (hstep : ∀ m a m', I m' → step m a = some m' → I m)
    (h : run step s acts = some t) (ht : I t) : I s := by
  induction acts generalizing s with
  | nil =>
    cases h
    exact ht
  | cons a acts ih =>
    rw [run_cons, Option.bind_eq_some_iff] at h
    obtain ⟨m, hm, hrest⟩ := h
    exact hstep s a m (ih hrest) hm

/-- What the steps of a run come to. -/
def tally (step : S → A → Option S) (f : S → A → Nat) : S → List A → Nat
  | _, [] => 0
  | s, a :: acts => f s a + ((step s a).map fun m => tally step f m acts).getD 0

/-- Each step adds its share to the measure. -/
theorem run_tally {I : S → Prop} {g : S → Nat} {f : S → A → Nat} (h₀ : I s)
    (hstep : ∀ m a m', I m → step m a = some m' → I m' ∧ g m' = g m + f m a)
    (h : run step s acts = some t) :
    g t = g s + tally step f s acts := by
  induction acts generalizing s with
  | nil =>
    cases h
    rfl
  | cons a acts ih =>
    rw [run_cons, Option.bind_eq_some_iff] at h
    obtain ⟨m, hm, hrest⟩ := h
    obtain ⟨hI, hg⟩ := hstep s a m h₀ hm
    rw [ih hI hrest, hg, tally, hm, Option.map_some, Option.getD_some, Nat.add_assoc]

/-- An action that brings the state closer to `done` can be repeated until it is. -/
theorem run_until {I done : S → Prop} {size : S → Nat} (a : A)
    (hstep : ∀ s, I s → ¬ done s → ∃ s', step s a = some s' ∧ I s' ∧ size s' < size s) (h : I s) :
    ∃ n t, run step s (List.replicate n a) = some t ∧ I t ∧ done t := by
  induction hn : size s using Nat.strongRecOn generalizing s with
  | _ n ih =>
    by_cases hdone : done s
    · exact ⟨0, s, rfl, h, hdone⟩
    · obtain ⟨s', ha, hI, hlt⟩ := hstep s h hdone
      obtain ⟨k, t, hrun, ht⟩ := ih (size s') (hn ▸ hlt) hI rfl
      exact ⟨k + 1, t, by rw [List.replicate_succ, run_cons, ha, Option.bind_some, hrun], ht⟩

/-- A run can be evaluated: what the state it ends in satisfies is decided there. -/
theorem run_exists (step : S → A → Option S) (s : S) (acts : List A) (p : S → Bool)
    (h : (run step s acts).any p = true) :
    ∃ t, run step s acts = some t ∧ p t = true := by
  cases hr : run step s acts with
  | none =>
    rw [hr] at h
    cases h
  | some t => exact ⟨t, rfl, by simpa [hr] using h⟩

/-- Every step of the run satisfies `C` in the state it starts from. -/
def Guarded (step : S → A → Option S) (C : S → A → Prop) (s : S) (acts : List A) : Prop :=
  ∀ pre a post m, acts = pre ++ a :: post → run step s pre = some m → C m a

theorem guarded_nil {C : S → A → Prop} : Guarded step C s [] := by
  intro pre b post m h
  simp at h

theorem guarded_cons {C : S → A → Prop} :
    Guarded step C s (a :: acts) ↔ C s a ∧ ∀ m, step s a = some m → Guarded step C m acts := by
  constructor
  · intro h
    constructor
    · exact h [] a acts s rfl rfl
    · intro m hm pre b post k he hk
      exact h (a :: pre) b post k (by rw [he]; rfl) (by rw [run_cons, hm, Option.bind_some, hk])
  · rintro ⟨hc, h⟩ pre b post m he hm
    cases pre with
    | nil =>
      cases he
      cases hm
      exact hc
    | cons x pre =>
      cases he
      rw [run_cons, Option.bind_eq_some_iff] at hm
      obtain ⟨k, hk, hm⟩ := hm
      exact h k hk pre b post m rfl hm

theorem Guarded.left {C : S → A → Prop} (h : Guarded step C s (acts ++ bcts)) :
    Guarded step C s acts := by
  intro pre a post m he hm
  exact h pre a (post ++ bcts) m (by rw [he, List.append_assoc, List.cons_append]) hm

instance decidableGuarded {C : S → A → Prop} [∀ s a, Decidable (C s a)] :
    (s : S) → (acts : List A) → Decidable (Guarded step C s acts)
  | _, [] => .isTrue guarded_nil
  | s, a :: acts =>
    match h : step s a with
    | none => decidable_of_iff (C s a) (by simp [guarded_cons, h])
    | some m =>
      have := decidableGuarded (C := C) m acts
      decidable_of_iff (C s a ∧ Guarded step C m acts) (by simp [guarded_cons, h])

/-- The invariant rule for runs whose steps all satisfy a condition, with the schedule. -/
theorem guarded_trace_invariant {C : S → A → Prop} {I : List A → S → Prop} (h₀ : I [] s)
    (hstep : ∀ acts m a m', run step s acts = some m → I acts m → C m a →
      step m a = some m' → I (acts ++ [a]) m')
    (hc : Guarded step C s acts) (h : run step s acts = some t) : I acts t := by
  induction acts using List.reverseRecOn generalizing t with
  | nil =>
    cases h
    exact h₀
  | append_singleton acts a ih =>
    obtain ⟨m, hm, ha⟩ := run_snoc h
    exact hstep acts m a t hm (ih hc.left hm) (hc acts a [] m rfl hm) ha

/-- The invariant rule for runs whose steps all satisfy a condition. -/
theorem guarded_invariant {C : S → A → Prop} {I : S → Prop} (h₀ : I s)
    (hstep : ∀ m a m', I m → C m a → step m a = some m' → I m')
    (hc : Guarded step C s acts) (h : run step s acts = some t) : I t :=
  guarded_trace_invariant (I := fun _ => I) h₀
    (fun _ m a m' _ hm hca ha => hstep m a m' hm hca ha) hc h

/-- Every state that the run reaches satisfies `I`. -/
def Always (step : S → A → Option S) (I : S → Prop) (s : S) (acts : List A) : Prop :=
  ∀ pre post m, acts = pre ++ post → run step s pre = some m → I m

theorem always_nil {I : S → Prop} : Always step I s [] ↔ I s := by
  constructor
  · intro h
    exact h [] [] s rfl rfl
  · intro hs pre post m he hm
    obtain ⟨rfl, rfl⟩ := List.append_eq_nil_iff.mp he.symm
    cases hm
    exact hs

theorem always_cons {I : S → Prop} (ha : step s a = some s') :
    Always step I s (a :: acts) ↔ I s ∧ Always step I s' acts := by
  constructor
  · intro h
    constructor
    · exact h [] (a :: acts) s rfl rfl
    · intro pre post m he hm
      exact h (a :: pre) post m (by rw [he]; rfl) (by rw [run_cons, ha, Option.bind_some, hm])
  · rintro ⟨hs, h⟩ pre post m he hm
    cases pre with
    | nil =>
      cases hm
      exact hs
    | cons x pre =>
      cases he
      rw [run_cons, ha, Option.bind_some] at hm
      exact h pre post m rfl hm

/-- Where, under an invariant `J`, a condition is exactly what a step needs to keep `I`, a run
keeps `I` exactly when all its steps satisfy the condition. -/
theorem always_iff_guarded {C : S → A → Prop} {I J : S → Prop} (hJ : J s)
    (hJstep : ∀ m a m', J m → step m a = some m' → J m') (h₀ : I s)
    (hstep : ∀ m a m', J m → I m → step m a = some m' → (I m' ↔ C m a))
    (h : run step s acts = some t) :
    Always step I s acts ↔ Guarded step C s acts := by
  induction acts generalizing s with
  | nil => exact ⟨fun _ => guarded_nil, fun _ => always_nil.mpr h₀⟩
  | cons a acts ih =>
    rw [run_cons, Option.bind_eq_some_iff] at h
    obtain ⟨m, hm, hrest⟩ := h
    have hJm := hJstep s a m hJ hm
    rw [always_cons hm, guarded_cons]
    constructor
    · rintro ⟨-, halways⟩
      have hIm : I m := halways [] acts m rfl rfl
      refine ⟨(hstep s a m hJ h₀ hm).mp hIm, fun m' hm' => ?_⟩
      rw [hm] at hm'
      cases hm'
      exact (ih hJm hIm hrest).mp halways
    · rintro ⟨hc, hguarded⟩
      have hIm := (hstep s a m hJ h₀ hm).mpr hc
      exact ⟨h₀, (ih hJm hIm hrest).mpr (hguarded m hm)⟩

/-- The run takes the action `a` once between two states that `R` relates. -/
def Occurs (step : S → A → Option S) (s : S) (acts : List A) (a : A) (R : S → S → Prop) : Prop :=
  ∃ pre post m m', acts = pre ++ a :: post ∧ run step s pre = some m ∧ step m a = some m' ∧ R m m'

theorem Occurs.mem {R : S → S → Prop} (h : Occurs step s acts a R) : a ∈ acts := by
  obtain ⟨pre, post, m, m', rfl, -⟩ := h
  simp

theorem Occurs.snoc {R : S → S → Prop} (h : Occurs step s acts a R) (b : A) :
    Occurs step s (acts ++ [b]) a R := by
  obtain ⟨pre, post, m, m', rfl, hm, hstep, hr⟩ := h
  exact ⟨pre, post ++ [b], m, m', by simp, hm, hstep, hr⟩

theorem occurs_last {R : S → S → Prop} (h : run step s acts = some s') (hstep : step s' a = some t)
    (hr : R s' t) :
    Occurs step s (acts ++ [a]) a R :=
  ⟨acts, [], s', t, rfl, h, hstep, hr⟩

/-- `x` happens before `y` in the schedule. -/
def Before (acts : List A) (x y : A) : Prop := [x, y].Sublist acts

instance [DecidableEq A] (acts : List A) (x y : A) : Decidable (Before acts x y) :=
  inferInstanceAs (Decidable (List.Sublist _ _))

theorem before_snoc {x y : A} : Before (acts ++ [a]) x y ↔ Before acts x y ∨
    (a = y ∧ x ∈ acts) := by
  constructor
  · intro h
    obtain ⟨l, l', he, hl, hl'⟩ := List.sublist_append_iff.mp h
    rcases List.sublist_cons_iff.mp hl' with hnil | ⟨r, rfl, hr⟩
    · rw [List.sublist_nil] at hnil
      subst hnil
      left
      simpa [Before, he] using hl
    · rw [List.sublist_nil] at hr
      subst hr
      have hsplit : [x] ++ [y] = l ++ [a] := he
      obtain ⟨hx, hy⟩ := List.append_inj' hsplit rfl
      cases hx
      cases hy
      exact .inr ⟨rfl, List.singleton_sublist.mp hl⟩
  · rintro (h | ⟨rfl, hx⟩)
    · exact h.trans (List.sublist_append_left _ _)
    · exact (List.singleton_sublist.mpr hx).append (List.Sublist.refl [a])

theorem Before.mem_left {x y : A} (h : Before acts x y) : x ∈ acts := h.subset (by simp)

theorem Before.mem_right {x y : A} (h : Before acts x y) : y ∈ acts := h.subset (by simp)

end Runs

section Merges

variable {ι X R : Type*} [DecidableEq ι]

/-- The items of one thread in a merge of several. -/
def part (i : ι) (l : List (ι × X)) : List X := l.filterMap fun p =>
    if p.1 = i then some p.2 else none

@[simp] theorem part_nil (i : ι) : part i ([] : List (ι × X)) = [] := rfl

@[simp] theorem part_cons_same (i : ι) (x : X) (l : List (ι × X)) :
    part i ((i, x) :: l) = x :: part i l := by
  simp [part]

theorem part_cons_other {i j : ι} (hne : j ≠ i) (x : X) (l : List (ι × X)) :
    part i ((j, x) :: l) = part i l := by
  simp [part, hne]

theorem part_map (f : R → X) (i : ι) (l : List (ι × R)) :
    part i (l.map fun p => (p.1, f p.2)) = (part i l).map f := by
  induction l with
  | nil => rfl
  | cons p l ih =>
    obtain ⟨j, r⟩ := p
    by_cases hj : j = i
    · subst hj
      simp [ih]
    · rw [List.map_cons, part_cons_other hj, part_cons_other hj, ih]

/-- A merge of images is the image of a merge. -/
theorem merge_of_prefix {f : R → X} {l : List (ι × X)} {rs : ι → List R}
    (h : ∀ i, part i l <+: (rs i).map f) :
    ∃ order : List (ι × R), order.map (fun p => (p.1, f p.2)) = l ∧ ∀ i, part i order <+: rs i := by
  induction l generalizing rs with
  | nil => exact ⟨[], rfl, fun i => List.nil_prefix⟩
  | cons p l ih =>
    obtain ⟨j, x⟩ := p
    have hj := h j
    rw [part_cons_same] at hj
    cases hrs : rs j with
    | nil =>
      rw [hrs] at hj
      exact absurd (List.prefix_nil.mp hj) (List.cons_ne_nil _ _)
    | cons r rest =>
      rw [hrs, List.map_cons, List.cons_prefix_cons] at hj
      obtain ⟨rfl, hrest⟩ := hj
      have hothers : ∀ i, part i l <+: ((fun i => if i = j then rest else rs i) i).map f := by
        intro i
        by_cases hi : i = j
        · subst hi
          simpa using hrest
        · have hi' := h i
          rw [part_cons_other (Ne.symm hi)] at hi'
          simpa [hi] using hi'
      obtain ⟨order, hmap, hparts⟩ := ih hothers
      refine ⟨(j, r) :: order, by rw [List.map_cons, hmap], ?_⟩
      intro i
      by_cases hi : i = j
      · subst hi
        have hi' := hparts i
        rw [if_pos rfl] at hi'
        rw [part_cons_same, hrs, List.cons_prefix_cons]
        exact ⟨rfl, hi'⟩
      · have hi' := hparts i
        rw [if_neg hi] at hi'
        rwa [part_cons_other (Ne.symm hi)]

end Merges

/-- A threaded program: the threads that the environment may start, and the next
atomic section of thread number `i`, with the threads that it starts. -/
structure Program (σ τ α : Type*) where
  start : τ → Bool
  next : σ → Nat → τ → α → Option (σ × τ × List τ)

structure System (σ τ : Type*) where
  shared : σ
  threads : List τ

inductive Action (τ α : Type*) where
  | spawn : τ → Action τ α
  | run : Nat → α → Action τ α
  deriving DecidableEq, Repr

/-- The label of a section. -/
def Action.label {τ α : Type*} : Action τ α → Option α
  | .spawn _ => none
  | .run _ a => some a

section Steps

variable {σ τ α : Type*}

def Program.step (P : Program σ τ α) (s : System σ τ) : Action τ α → Option (System σ τ)
  | .spawn t => if P.start t then some ⟨s.shared, s.threads ++ [t]⟩ else none
  | .run i a =>
    match s.threads[i]? with
    | none => none
    | some t =>
      match P.next s.shared i t a with
      | none => none
      | some (shared, t', new) => some ⟨shared, s.threads.set i t' ++ new⟩

variable {P : Program σ τ α} {s s' : System σ τ} {i j : Nat} {a : α} {t : τ}

theorem step_spawn (h : P.step s (.spawn t) = some s') :
    P.start t = true ∧ s' = ⟨s.shared, s.threads ++ [t]⟩ := by
  simp only [Program.step] at h
  split at h
  · cases h
    exact ⟨by assumption, rfl⟩
  · cases h

/-- What a section can do: one thread is replaced and new ones are appended. -/
theorem step_run (h : P.step s (.run i a) = some s') :
    ∃ t shared t' new, s.threads[i]? = some t ∧ P.next s.shared i t a = some (shared, t', new) ∧
      s' = ⟨shared, s.threads.set i t' ++ new⟩ := by
  simp only [Program.step] at h
  split at h
  · cases h
  · rename_i t ht
    split at h
    · cases h
    · rename_i shared t' new hn
      cases h
      exact ⟨t, shared, t', new, ht, hn, rfl⟩

/-- After a section a thread is the one that ran, a new one or one of the others. -/
theorem mem_after {threads new : List τ} {u u' : τ} {i : Nat} (hi : threads[i]? = some u)
    (ht : t ∈ threads.set i u' ++ new) : t = u' ∨ t ∈ new ∨ ∃ j, j ≠ i ∧ threads[j]? = some t := by
  rcases List.mem_append.mp ht with ht | ht
  · obtain ⟨j, hj⟩ := List.mem_iff_getElem?.mp ht
    by_cases hji : i = j
    · subst hji
      obtain ⟨hlt, -⟩ := List.getElem?_eq_some_iff.mp hi
      rw [List.getElem?_set_self hlt] at hj
      exact .inl (Option.some.inj hj).symm
    · rw [List.getElem?_set_ne hji] at hj
      exact .inr (.inr ⟨j, Ne.symm hji, hj⟩)
  · exact .inr (.inl ht)

/-- A thread is only ever changed by its own sections. -/
theorem thread_step {act : Action τ α} (h : P.step s act = some s') (hj : s.threads[j]? = some t) :
    (s'.threads[j]? = some t ∧ ∀ a, act ≠ .run j a) ∨
      ∃ a t' new, act = .run j a ∧ P.next s.shared j t a = some (s'.shared, t', new) ∧
        s'.threads[j]? = some t' := by
  obtain ⟨hlt, -⟩ := List.getElem?_eq_some_iff.mp hj
  cases act with
  | spawn u =>
    obtain ⟨-, rfl⟩ := step_spawn h
    exact .inl ⟨by rw [List.getElem?_append_left hlt, hj], by simp⟩
  | run i a =>
    obtain ⟨u, shared, u', new, hu, hn, rfl⟩ := step_run h
    have hset : (s.threads.set i u' ++ new)[j]? = (s.threads.set i u')[j]? :=
      List.getElem?_append_left (by simpa using hlt)
    by_cases hij : i = j
    · subst hij
      obtain rfl : t = u := Option.some.inj (hj.symm.trans hu)
      exact .inr ⟨a, u', new, rfl, hn, by rw [hset, List.getElem?_set_self hlt]⟩
    · exact .inl ⟨by rw [hset, List.getElem?_set_ne hij, hj], by simp [hij]⟩

/-- Where a thread of the next state comes from. -/
theorem thread_step_back {act : Action τ α} (h : P.step s act = some s')
    (hj : s'.threads[j]? = some t) :
    (s.threads[j]? = some t ∧ ∀ a, act ≠ .run j a) ∨
      (∃ a u new, act = .run j a ∧ s.threads[j]? = some u ∧
        P.next s.shared j u a = some (s'.shared, t, new)) ∨
      (s.threads.length ≤ j ∧ act = .spawn t ∧ P.start t = true) ∨
      (s.threads.length ≤ j ∧ ∃ i a u u' new, act = .run i a ∧ s.threads[i]? = some u ∧
        P.next s.shared i u a = some (s'.shared, u', new) ∧ t ∈ new) := by
  by_cases hlt : j < s.threads.length
  · obtain ⟨u, hu⟩ : ∃ u, s.threads[j]? = some u := ⟨_, List.getElem?_eq_getElem hlt⟩
    rcases thread_step h hu with ⟨hsame, hact⟩ | ⟨a, u', new, rfl, hn, hu'⟩
    · rw [hj] at hsame
      cases hsame
      exact .inl ⟨hu, hact⟩
    · rw [hj] at hu'
      cases hu'
      exact .inr (.inl ⟨a, u, new, rfl, hu, hn⟩)
  · have hle := Nat.le_of_not_lt hlt
    cases act with
    | spawn u =>
      obtain ⟨hstart, rfl⟩ := step_spawn h
      simp only [List.getElem?_append_right hle] at hj
      have hmem := List.mem_of_getElem? hj
      rw [List.mem_singleton] at hmem
      subst hmem
      exact .inr (.inr (.inl ⟨hle, rfl, hstart⟩))
    | run i a =>
      obtain ⟨u, shared, u', new, hu, hn, rfl⟩ := step_run h
      rw [List.getElem?_append_right (by simpa using hle)] at hj
      exact .inr (.inr (.inr ⟨hle, i, a, u, u', new, rfl, hu, hn, List.mem_of_getElem? hj⟩))

/-- The invariant rule for what each thread satisfies by itself. -/
theorem threads_invariant {Q : τ → Prop} {acts : List (Action τ α)} (h₀ : ∀ t ∈ s.threads, Q t)
    (hstart : ∀ t, P.start t = true → Q t)
    (hnext : ∀ shared i t a shared' t' new, Q t → P.next shared i t a = some (shared', t', new) →
      Q t' ∧ ∀ u ∈ new, Q u)
    (h : run P.step s acts = some s') : ∀ t ∈ s'.threads, Q t := by
  refine run_invariant (I := fun s => ∀ t ∈ s.threads, Q t) h₀ ?_ h
  intro m act m' hm hstep t ht
  obtain ⟨j, hj⟩ := List.mem_iff_getElem?.mp ht
  rcases thread_step_back hstep hj with ⟨hsame, -⟩ | ⟨a, u, new, -, hu, hn⟩ | ⟨-, -, hs⟩ |
    ⟨-, i, a, u, u', new, -, hu, hn, hnew⟩
  · exact hm t (List.mem_of_getElem? hsame)
  · exact (hnext _ _ _ _ _ _ _ (hm u (List.mem_of_getElem? hu)) hn).1
  · exact hstart t hs
  · exact (hnext _ _ _ _ _ _ _ (hm u (List.mem_of_getElem? hu)) hn).2 t hnew

/-- What the section `a` makes true of its thread and no section gives up holds of
every thread that the schedule let execute `a`. -/
theorem after_label {Q : τ → Prop} {acts : List (Action τ α)}
    (hmake : ∀ shared i t shared' t' new, P.next shared i t a = some (shared', t', new) → Q t')
    (hkeep : ∀ shared i t b shared' t' new, Q t →
      P.next shared i t b = some (shared', t', new) → Q t')
    (h : run P.step s acts = some s') (hi : .run i a ∈ acts) :
    ∃ t, s'.threads[i]? = some t ∧ Q t := by
  refine trace_invariant (I := fun acts s => Action.run i a ∈ acts → ∃ t,
    s.threads[i]? = some t ∧ Q t)
    (by simp) ?_ h hi
  intro pre m act m' _ hm hstep hmem
  rcases List.mem_append.mp hmem with hold | hlast
  · obtain ⟨t, ht, hq⟩ := hm hold
    rcases thread_step hstep ht with ⟨hsame, -⟩ | ⟨b, t', new, -, hn, ht'⟩
    · exact ⟨t, hsame, hq⟩
    · exact ⟨t', ht', hkeep _ _ _ _ _ _ _ hq hn⟩
  · rw [List.mem_singleton] at hlast
    subst hlast
    obtain ⟨u, shared, u', new, hu, hn, rfl⟩ := step_run hstep
    obtain ⟨hlt, -⟩ := List.getElem?_eq_some_iff.mp hu
    refine ⟨u', ?_, hmake _ _ _ _ _ _ hn⟩
    rw [List.getElem?_append_left (by simpa using hlt), List.getElem?_set_self hlt]

/-- What only the section `a` makes true of a thread shows that the thread executed it. -/
theorem label_of {Q : τ → Prop} {acts : List (Action τ α)} (h₀ : ∀ t ∈ s.threads, ¬ Q t)
    (hstart : ∀ t, P.start t = true → ¬ Q t)
    (hback : ∀ shared i t b shared' t' new, P.next shared i t b = some (shared', t', new) →
      (Q t' → Q t ∨ b = a) ∧ ∀ u ∈ new, ¬ Q u)
    (h : run P.step s acts = some s') (ht : s'.threads[i]? = some t) (hq : Q t) :
    .run i a ∈ acts := by
  refine trace_invariant (I := fun acts s => ∀ t, s.threads[i]? = some t →
    Q t → Action.run i a ∈ acts)
    ?_ ?_ h t ht hq
  · intro t ht hq
    exact absurd hq (h₀ t (List.mem_of_getElem? ht))
  · intro pre m act m' _ hm hstep t ht hq
    rcases thread_step_back hstep ht with ⟨hsame, -⟩ | ⟨b, u, new, rfl, hu, hn⟩ | ⟨-, -, hs⟩ |
      ⟨-, j, b, u, u', new, -, -, hn, hnew⟩
    · exact List.mem_append_left _ (hm t hsame hq)
    · rcases (hback _ _ _ _ _ _ _ hn).1 hq with hqu | rfl
      · exact List.mem_append_left _ (hm u hu hqu)
      · simp
    · exact absurd hq (hstart t hs)
    · exact absurd hq ((hback _ _ _ _ _ _ _ hn).2 t hnew)

/-- Counting threads after a section that starts no other. -/
theorem countP_run (p : τ → Bool) (t' : τ) (ht : s.threads[i]? = some t) :
    (s.threads.set i t').countP p + (if p t then 1 else 0) =
      s.threads.countP p + (if p t' then 1 else 0) := by
  obtain ⟨hlt, he⟩ := List.getElem?_eq_some_iff.mp ht
  rw [List.countP_set hlt, he]
  have hpos : p t = true → 0 < s.threads.countP p := by
    intro hp
    exact List.countP_pos_iff.mpr ⟨t, List.mem_of_getElem? ht, hp⟩
  cases hpt : p t
  · simp
  · have := hpos hpt
    simp only [if_true]
    omega

theorem countP_run_le {p : τ → Bool} {t' : τ} (ht : s.threads[i]? = some t)
    (hp : p t' = true → p t = true) :
    (s.threads.set i t').countP p ≤ s.threads.countP p := by
  have hcount := countP_run p t' ht
  cases hpt : p t' with
  | true =>
    simp only [hpt, hp hpt, if_true] at hcount
    omega
  | false =>
    simp only [hpt, Bool.false_eq_true, if_false] at hcount
    omega

theorem two_le_countP {l : List τ} {p : τ → Bool} {u : τ} (hi : l[i]? = some t)
    (hj : l[j]? = some u) (ht : p t = true)
    (hu : p u = true) (hij : i < j) : 2 ≤ l.countP p := by
  have hleft : 0 < (l.take (i + 1)).countP p := by
    have hti : (l.take (i + 1))[i]? = some t := by
      rw [List.getElem?_take_of_lt (Nat.lt_succ_self i), hi]
    exact List.countP_pos_iff.mpr ⟨t, List.mem_of_getElem? hti, ht⟩
  have hright : 0 < (l.drop (i + 1)).countP p := by
    have huj : (l.drop (i + 1))[j - (i + 1)]? = some u := by
      rw [List.getElem?_drop, show i + 1 + (j - (i + 1)) = j by omega, hj]
    exact List.countP_pos_iff.mpr ⟨u, List.mem_of_getElem? huj, hu⟩
  rw [← List.take_append_drop (i + 1) l, List.countP_append]
  omega

/-- A stretch of sections of thread `i` that start no other thread. -/
def Program.solo (P : Program σ τ α) (i : Nat) (st : σ × τ) (a : α) : Option (σ × τ) :=
  match P.next st.1 i st.2 a with
  | some (shared, t, []) => some (shared, t)
  | _ => none

theorem run_solo {labels : List α} {shared shared' : σ} {threads : List τ} {t' : τ}
    (ht : threads[i]? = some t)
    (h : run (P.solo i) (shared, t) labels = some (shared', t')) :
    run P.step ⟨shared, threads⟩ (labels.map (.run i)) = some ⟨shared', threads.set i t'⟩ := by
  induction labels generalizing shared threads t with
  | nil =>
    cases h
    obtain ⟨hlt, he⟩ := List.getElem?_eq_some_iff.mp ht
    rw [List.map_nil, run_nil, ← he, List.set_getElem_self]
  | cons a labels ih =>
    rw [run_cons, Option.bind_eq_some_iff] at h
    obtain ⟨⟨sh, u⟩, hsolo, hrest⟩ := h
    have hnext : P.next shared i t a = some (sh, u, []) := by
      unfold Program.solo at hsolo
      split at hsolo <;> cases hsolo
      assumption
    obtain ⟨hlt, -⟩ := List.getElem?_eq_some_iff.mp ht
    have hstep : P.step ⟨shared, threads⟩ (.run i a) = some ⟨sh, threads.set i u⟩ := by
      simp [Program.step, ht, hnext]
    rw [List.map_cons, run_cons, hstep, Option.bind_some, ih (List.getElem?_set_self hlt) hrest,
      List.set_set]

/-- Where no section starts a thread, a stretch of one thread's sections is a solo run. -/
theorem solo_of_run (hnew : ∀ {shared i t a shared' t' new},
    P.next shared i t a = some (shared', t', new) → new = [])
    {labels : List α} {shared : σ} {threads : List τ} {s' : System σ τ} (ht : threads[i]? = some t)
    (h : run P.step ⟨shared, threads⟩ (labels.map (.run i)) = some s') :
    ∃ t', run (P.solo i) (shared, t) labels = some (s'.shared, t') ∧
    s'.threads = threads.set i t' := by
  induction labels generalizing shared threads t with
  | nil =>
    cases h
    obtain ⟨hlt, he⟩ := List.getElem?_eq_some_iff.mp ht
    exact ⟨t, rfl, by rw [← he, List.set_getElem_self]⟩
  | cons a labels ih =>
    rw [List.map_cons, run_cons, Option.bind_eq_some_iff] at h
    obtain ⟨m, hstep, hrest⟩ := h
    obtain ⟨u, shared₁, u', new, hu, hn, rfl⟩ := step_run hstep
    obtain rfl : t = u := Option.some.inj (ht.symm.trans hu)
    obtain rfl := hnew hn
    obtain ⟨hlt, -⟩ := List.getElem?_eq_some_iff.mp ht
    rw [List.append_nil] at hrest
    obtain ⟨t', hsolo, hset⟩ := ih (List.getElem?_set_self hlt) hrest
    refine ⟨t', ?_, by rw [hset, List.set_set]⟩
    have hfirst : P.solo i (shared, t) a = some (shared₁, u') := by simp only [Program.solo, hn]
    rw [run_cons, hfirst, Option.bind_some, hsolo]

/-- A thread is spawned and runs alone. -/
theorem run_spawned {labels : List α} {shared shared' : σ} {threads : List τ} {t t' : τ}
    (hs : P.start t = true)
    (h : run (P.solo threads.length) (shared, t) labels = some (shared', t')) :
    run P.step ⟨shared, threads⟩ (.spawn t :: labels.map (.run threads.length)) =
      some ⟨shared', threads ++ [t']⟩ := by
  have hspawn : P.step ⟨shared, threads⟩ (.spawn t) = some ⟨shared, threads ++ [t]⟩ := by
    simp only [Program.step, hs, if_true]
  have hset : (threads ++ [t]).set threads.length t' = threads ++ [t'] := by
    simp
  rw [run_cons, hspawn, Option.bind_some, ← hset]
  exact run_solo List.getElem?_concat_length h

end Steps

end Ucorf.Threads
