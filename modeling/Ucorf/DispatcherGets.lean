import Ucorf.Dispatcher
import Ucorf.Threads

/-!
# Concurrent gets of a round-robin dispatcher

`Get` holds the reader lock only, so calls of it meet at `robin_idx_`. The index is read
again after it was reduced, and an increment that comes in between may have moved it past
the end of the list.
-/
namespace Ucorf.DispatcherGets

open Ucorf.Message
open Ucorf.Threads
open Ucorf.Dispatcher

/-- Where a call of `Get` stands; it returns with the index that it has used, if any. -/
inductive Thread where
  | entered
  | increment
  | reduce
  | access
  | returned : Option Nat → Thread
  deriving DecidableEq, Repr

variable {T : Type}

/-- The index is a `size_t`. -/
def incremented (idx : Nat) : Nat := (idx + 1) % 2 ^ 64

/-- The next atomic step of a call. -/
def next (d : RobinDispatcher T) (_ : Nat) (t : Thread) (_ : Unit) :
    Option (RobinDispatcher T × Thread × List Thread) :=
  match t with
  | .entered => if d.tpList = [] then some (d, .returned none, []) else some (d, .increment, [])
  | .increment => some ({ d with robinIdx := incremented d.robinIdx }, .reduce, [])
  | .reduce => some ({ d with robinIdx := d.robinIdx % d.tpList.length }, .access, [])
  | .access => some (d, .returned (some d.robinIdx), [])
  | .returned _ => none

/-- Any number of calls; the lock keeps `Add` and `Del` out. -/
def program : Program (RobinDispatcher T) Thread Unit := ⟨fun t => t = .entered, next⟩

abbrev Gets (T : Type) := System (RobinDispatcher T) Thread

/-- A call that is about to access the list does so in range. -/
def InRange (s : Gets T) : Prop := .access ∈ s.threads → s.shared.robinIdx < s.shared.tpList.length

/-- An increment does not take the index to the end of the list while another call is
between its reduction and its access. -/
def Harmless (s : Gets T) : Action Thread Unit → Prop
  | .spawn _ => True
  | .run i _ => s.threads[i]? = some .increment → .access ∈ s.threads →
      incremented s.shared.robinIdx < s.shared.tpList.length

instance (s : Gets T) (act : Action Thread Unit) : Decidable (Harmless s act) :=
  match act with
  | .spawn _ => .isTrue trivial
  | .run _ _ => inferInstanceAs (Decidable (_ → _ → _))

section Steps

variable {s s' : Gets T} {act : Action Thread Unit} {i j : Nat}

/-- Alone, the steps of a call are those of `Get`. -/
theorem solo_get (d : RobinDispatcher T) (hne : d.tpList ≠ [])
    (hidx : d.robinIdx + 1 < 2 ^ 64) (i : Nat)
    (service method request : Bytes) :
    run (program.solo i) (d, .entered) [(), (), (), ()] =
      some ((d.get service method request).2,
        .returned (some (d.get service method request).2.robinIdx)) := by
  have hinc : incremented d.robinIdx = d.robinIdx + 1 := Nat.mod_eq_of_lt hidx
  simp [Program.solo, program, next, RobinDispatcher.get, hne, hinc]

/-- A step starts no other call and leaves the list. -/
theorem next_frame {d d' : RobinDispatcher T} {t t' : Thread} {new : List Thread}
    (h : next d i t () = some (d', t', new)) : new = [] ∧ d'.tpList = d.tpList := by
  cases t with
  | entered =>
    simp only [next] at h
    split at h <;> cases h <;> exact ⟨rfl, rfl⟩
  | increment =>
    cases h
    exact ⟨rfl, rfl⟩
  | reduce =>
    cases h
    exact ⟨rfl, rfl⟩
  | access =>
    cases h
    exact ⟨rfl, rfl⟩
  | returned _ => cases h

theorem next_returned {d d' : RobinDispatcher T} {t : Thread} {idx : Nat} {new : List Thread}
    (h : next d i t () = some (d', .returned (some idx), new)) :
    t = .access ∧ idx = d.robinIdx := by
  cases t with
  | entered =>
    simp only [next] at h
    split at h <;> cases h
  | increment => cases h
  | reduce => cases h
  | access =>
    cases h
    exact ⟨rfl, rfl⟩
  | returned _ => cases h

/-- What one action does: a call enters, or the call `i` takes its next step. -/
theorem step_cases (h : program.step s act = some s') :
    (act = .spawn .entered ∧ s' = ⟨s.shared, s.threads ++ [.entered]⟩) ∨
    ∃ i t d t', act = .run i () ∧ s.threads[i]? = some t ∧ next s.shared i t () = some (d, t', []) ∧
      s' = ⟨d, s.threads.set i t'⟩ := by
  cases act with
  | spawn t =>
    obtain ⟨hstart, rfl⟩ := step_spawn h
    have ht : t = .entered := of_decide_eq_true hstart
    subst ht
    exact .inl ⟨rfl, rfl⟩
  | run i a =>
    obtain ⟨t, d, t', new, ht, hn, rfl⟩ := step_run h
    obtain ⟨rfl, -⟩ := next_frame (i := i) hn
    exact .inr ⟨i, t, d, t', rfl, ht, hn, by rw [List.append_nil]⟩

theorem tpList_step (h : program.step s act = some s') : s'.shared.tpList = s.shared.tpList := by
  obtain ⟨-, rfl⟩ | ⟨i, t, d, t', -, -, hn, rfl⟩ := step_cases h
  · rfl
  · exact (next_frame hn).2

theorem harmless_of_ne {t : Thread} (ht : s.threads[i]? = some t) (hne : t ≠ .increment) :
    Harmless s (.run i ()) := by
  intro hinc
  rw [ht] at hinc
  exact absurd (Option.some.inj hinc) hne

/-- A call at its access has been there before, unless its own step has led it there. -/
theorem access_of_set {threads : List Thread} {t' : Thread} (ht' : t' ≠ .access)
    (h : .access ∈ threads.set i t') : .access ∈ threads :=
  (List.mem_or_eq_of_mem_set h).resolve_right ht'.symm

theorem access_set {threads : List Thread} {t t' : Thread} (ht : threads[i]? = some t)
    (hne : t ≠ .access)
    (h : .access ∈ threads) : .access ∈ threads.set i t' := by
  obtain ⟨j, hj⟩ := List.mem_iff_getElem?.mp h
  have hij : i ≠ j := by
    rintro rfl
    rw [ht] at hj
    exact hne (Option.some.inj hj)
  apply List.mem_of_getElem? (i := j)
  rw [List.getElem?_set_ne hij, hj]

/-- Only an increment can take a call that is at its access out of range. -/
theorem inRange_step (hne : s.shared.tpList ≠ []) (hrange : InRange s)
    (h : program.step s act = some s') :
    InRange s' ↔ Harmless s act := by
  obtain ⟨rfl, rfl⟩ | ⟨i, t, d, t', rfl, ht, hn, rfl⟩ := step_cases h
  · have happend : InRange ⟨s.shared, s.threads ++ [.entered]⟩ := by
      intro hmem
      simp only [List.mem_append, List.mem_singleton, reduceCtorEq, or_false] at hmem
      exact hrange hmem
    exact iff_of_true happend trivial
  · have hkeep : d = s.shared → t' ≠ .access → InRange ⟨d, s.threads.set i t'⟩ := by
      rintro rfl ht' hmem
      exact hrange (access_of_set ht' hmem)
    cases t with
    | entered =>
      have hset : InRange ⟨d, s.threads.set i t'⟩ := by
        simp only [next] at hn
        split at hn <;> cases hn <;> exact hkeep rfl (by simp)
      exact iff_of_true hset (harmless_of_ne ht (by simp))
    | increment =>
      cases hn
      constructor
      · intro hafter _ hmem
        exact hafter (access_set ht (by simp) hmem)
      · intro hharm hmem
        exact hharm ht (access_of_set (by simp) hmem)
    | reduce =>
      cases hn
      have hlt := Nat.mod_lt s.shared.robinIdx (List.length_pos_iff.mpr hne)
      exact iff_of_true (fun _ => hlt) (harmless_of_ne ht (by simp))
    | access =>
      cases hn
      exact iff_of_true (hkeep rfl (by simp)) (harmless_of_ne ht (by simp))
    | returned _ => cases hn

/-- The index that a call has used was in range at its access. -/
def UsedInRange (s : Gets T) : Prop :=
  ∀ i idx : Nat, s.threads[i]? = some (Thread.returned (some idx)) → idx < s.shared.tpList.length

theorem used_step (hused : UsedInRange s) (hrange : InRange s) (h : program.step s act = some s') :
    UsedInRange s' := by
  intro j idx hj
  rw [tpList_step h]
  obtain ⟨hsame, -⟩ | ⟨a, u, new, -, hu, hn⟩ | ⟨-, -, hstart⟩ |
    ⟨-, k, a, u, u', new, -, -, hn, hnew⟩ := thread_step_back h hj
  · exact hused j idx hsame
  · obtain ⟨rfl, rfl⟩ := next_returned (i := j) hn
    exact hrange (List.mem_of_getElem? hu)
  · cases hstart
  · obtain ⟨rfl, -⟩ := next_frame (i := k) hn
    cases hnew

end Steps

section Runs

variable {d : RobinDispatcher T} {acts : List (Action Thread Unit)} {t : Gets T}

theorem inRange_start (d : RobinDispatcher T) : InRange ⟨d, []⟩ := by
  intro hmem
  cases hmem

/-- In every interleaving the calls are in range at their accesses exactly when each increment
is harmless, and then every index that was used is in range. -/
theorem gets_inRange_iff (hne : d.tpList ≠ []) (hrun : run program.step ⟨d, []⟩ acts = some t) :
    (Always program.step InRange ⟨d, []⟩ acts ↔ Guarded program.step Harmless ⟨d, []⟩ acts) ∧
    (Guarded program.step Harmless ⟨d, []⟩ acts →
      ∀ i idx : Nat, t.threads[i]? = some (Thread.returned (some idx)) →
      idx < d.tpList.length) := by
  constructor
  · refine always_iff_guarded (J := fun s => s.shared.tpList ≠ []) hne ?_ (inRange_start d) ?_ hrun
    · intro m a m' hm hstep
      rwa [tpList_step hstep]
    · intro m a m' hm hrange hstep
      exact inRange_step hm hrange hstep
  · intro hguarded i idx hi
    have hinv : t.shared.tpList = d.tpList ∧ InRange t ∧ UsedInRange t := by
      refine guarded_invariant (I := fun s => s.shared.tpList = d.tpList ∧
        InRange s ∧ UsedInRange s)
        ⟨rfl, inRange_start d, ?_⟩ ?_ hguarded hrun
      · intro i idx hi
        cases hi
      · rintro m a m' ⟨hlist, hrange, hused⟩ hharm hstep
        exact ⟨(tpList_step hstep).trans hlist, (inRange_step (hlist ▸ hne) hrange hstep).mpr hharm,
          used_step hused hrange hstep⟩
    rw [← hinv.1]
    exact hinv.2.2 i idx hi

/-- The second call increments while the first one is at its access. -/
def overlapping : List (Action Thread Unit) :=
  [.spawn .entered, .run 0 (), .run 0 (), .spawn .entered, .run 1 (), .run 0 (), .run 1 (),
    .run 0 (), .run 1 (), .run 1 ()]

/-- On a list of three the index stays in it, and both calls use the same one. -/
theorem gets_inRange_overlapping :
    ∃ t : Gets Nat, run program.step ⟨⟨[7, 8, 9], 0⟩, []⟩ overlapping = some t ∧
    t.threads = [.returned (some 2), .returned (some 2)] ∧
    Always program.step InRange (⟨⟨[7, 8, 9], 0⟩, []⟩ : Gets Nat) overlapping ∧
    ∀ i idx : Nat, t.threads[i]? = some (Thread.returned (some idx)) → idx < 3 := by
  obtain ⟨t, hrun, hthreads⟩ :=
    run_exists program.step (⟨⟨[7, 8, 9], 0⟩, []⟩ : Gets Nat) overlapping
    (fun t => t.threads = [.returned (some 2), .returned (some 2)]) (by decide)
  have hguarded : Guarded program.step Harmless (⟨⟨[7, 8, 9], 0⟩, []⟩ : Gets Nat) overlapping := by
    decide
  obtain ⟨hiff, hused⟩ := gets_inRange_iff (List.cons_ne_nil 7 [8, 9]) hrun
  exact ⟨t, hrun, of_decide_eq_true hthreads, hiff.mpr hguarded, hused hguarded⟩

/-- The second call increments between the reduction and the access of the first one. -/
def overtaken : List (Action Thread Unit) :=
  [.spawn .entered, .spawn .entered, .run 0 (), .run 0 (), .run 0 (),
    .run 1 (), .run 1 (), .run 0 ()]

/-- The first call uses the index 1 of a list of one. -/
theorem overtaken_past_end :
    (∃ t : Gets Nat, run program.step ⟨⟨[7], 0⟩, []⟩ overtaken = some t ∧
      t.threads[0]? = some (.returned (some 1))) ∧
    ¬ ∀ (d : RobinDispatcher Nat) (acts : List (Action Thread Unit)) (t : Gets Nat), d.tpList ≠ [] →
      run program.step ⟨d, []⟩ acts = some t →
      ∀ i idx : Nat, t.threads[i]? = some (Thread.returned (some idx)) → idx < d.tpList.length := by
  refine ⟨⟨_, rfl, rfl⟩, fun hall => ?_⟩
  have hlt := hall ⟨[7], 0⟩ overtaken _ (List.cons_ne_nil 7 []) rfl 0 1 rfl
  exact absurd hlt (by decide)

end Runs

end Ucorf.DispatcherGets
