import Ucorf.Threads

/-!
# Leases

Keys are claimed by owners. A claim that is granted lasts until the key is released or the
lease of its owner ends, and an owner whose lease has ended is granted nothing any more.
-/
namespace Ucorf.Leases

open Ucorf.Threads

variable {K O : Type*} [DecidableEq K] [DecidableEq O]

inductive Event (K O : Type*) where
  | claim : K → O → Event K O
  | release : K → Event K O
  | expire : O → Event K O
  deriving DecidableEq, Repr

/-- The owners of the keys, and those whose leases have ended. -/
structure Book (K O : Type*) where
  owner : K → Option O
  ended : List O

namespace Book

def init : Book K O := ⟨fun _ => none, []⟩

def set (s : Book K O) (k : K) (o : Option O) : Book K O :=
  { s with owner := fun j => if j = k then o else s.owner j }

omit [DecidableEq O] in
@[simp] theorem set_same (s : Book K O) (k : K) (o : Option O) : (s.set k o).owner k = o := by
  simp [set]

omit [DecidableEq O] in
theorem set_other (s : Book K O) {j k : K} (o : Option O) (hne : j ≠ k) :
    (s.set k o).owner j = s.owner j := by
  simp [set, hne]

def expire (s : Book K O) (o : O) : Book K O :=
  ⟨fun k => if s.owner k = some o then none else s.owner k, o :: s.ended⟩

/-- A key that is taken is claimed by nobody else. -/
def step (s : Book K O) : Event K O → Option (Book K O)
  | .claim k o => if s.owner k = none ∧ o ∉ s.ended then some (s.set k (some o)) else none
  | .release k => some (s.set k none)
  | .expire o => some (s.expire o)

variable {s s' : Book K O} {e : Event K O} {events : List (Event K O)} {k : K} {o : O}

/-- What a step does to one key. -/
inductive Turned (s s' : Book K O) (k : K) (e : Event K O) : Prop where
  | kept : s'.owner k = s.owner k → (∀ o, e = .expire o → s.owner k ≠ some o) → Turned s s' k e
  | claimed {o : O} : e = .claim k o → s.owner k = none → o ∉ s.ended →
      s'.owner k = some o → Turned s s' k e
  | released : e = .release k → s'.owner k = none → Turned s s' k e
  | expired {o : O} : e = .expire o → s.owner k = some o → s'.owner k = none → Turned s s' k e

theorem step_turned (h : step s e = some s') (k : K) : Turned s s' k e := by
  cases e with
  | claim j o =>
    simp only [step] at h
    split at h
    · rename_i hfree
      cases h
      by_cases hk : k = j
      · subst hk
        exact .claimed rfl hfree.1 hfree.2 (set_same s k _)
      · exact .kept (set_other s _ hk) nofun
    · cases h
  | release j =>
    cases h
    by_cases hk : k = j
    · subst hk
      exact .released rfl (set_same s k none)
    · exact .kept (set_other s _ hk) nofun
  | expire o =>
    cases h
    by_cases ho : s.owner k = some o
    · exact .expired rfl ho (if_pos ho)
    · refine .kept (if_neg ho) ?_
      rintro o' ⟨⟩
      exact ho

/-- Only an end ends a lease, and for good. -/
theorem step_ended (h : step s e = some s') : s'.ended = s.ended ∨ ∃ o, e = .expire o ∧
    s'.ended = o :: s.ended := by
  cases e with
  | claim j o =>
    simp only [step] at h
    split at h
    · cases h
      exact .inl rfl
    · cases h
  | release j =>
    cases h
    exact .inl rfl
  | expire o =>
    cases h
    exact .inr ⟨o, rfl, rfl⟩

theorem not_ended_back (h : step s e = some s') (ho : o ∉ s'.ended) : o ∉ s.ended := by
  rcases step_ended h with hsame | ⟨o', -, hended⟩
  · rw [← hsame]
    exact ho
  · rw [hended] at ho
    exact fun hmem => ho (List.mem_cons_of_mem o' hmem)

/-- An owner has claimed its key, and its lease has not ended. -/
theorem claimed_of_owner (h : run step init events = some s) (hk : s.owner k = some o) :
    .claim k o ∈ events ∧ o ∉ s.ended := by
  refine trace_invariant (I := fun events s => ∀ k o, s.owner k = some o → .claim k o ∈ events ∧
    o ∉ s.ended) ?_ ?_ h k o hk
  · rintro k o ⟨⟩
  · intro events s e s' _ hs hstep k o hk
    have hended {o : O} (hold : o ∉ s.ended) (hlast : e ≠ .expire o) : o ∉ s'.ended := by
      rcases step_ended hstep with hsame | ⟨o', rfl, hcons⟩
      · rw [hsame]
        exact hold
      · rw [hcons, List.mem_cons, not_or]
        exact ⟨fun ho => hlast (by rw [ho]), hold⟩
    cases step_turned hstep k with
    | kept hsame hnot =>
      rw [hsame] at hk
      obtain ⟨hmem, hold⟩ := hs k o hk
      exact ⟨List.mem_append_left _ hmem, hended hold fun he => hnot o he hk⟩
    | claimed he _ hold hnew =>
      obtain rfl := Option.some.inj (hnew.symm.trans hk)
      subst he
      exact ⟨List.mem_append_right _ List.mem_cons_self, hended hold nofun⟩
    | released _ hnone =>
      rw [hnone] at hk
      cases hk
    | expired _ _ hnone =>
      rw [hnone] at hk
      cases hk

/-- What was claimed is kept until it is released or the lease ends. -/
theorem owner_of_claimed (h : run step init events = some s) (hclaim : .claim k o ∈ events)
    (hkept : .release k ∉ events) (hlasts : o ∉ s.ended) : s.owner k = some o := by
  refine trace_invariant (I := fun events s => ∀ k o, .claim k o ∈ events →
    .release k ∉ events → o ∉ s.ended →
    s.owner k = some o) ?_ ?_ h k o hclaim hkept hlasts
  · intro k o hmem
    cases hmem
  · intro events s e s' _ hs hstep k o hclaim hkept hlasts
    rw [List.mem_append, not_or] at hkept
    have hturned := step_turned hstep k
    rcases List.mem_append.mp hclaim with hold | hlast
    · have howner := hs k o hold hkept.1 (not_ended_back hstep hlasts)
      cases hturned with
      | kept hsame _ => exact hsame.trans howner
      | claimed _ hfree _ _ =>
        rw [hfree] at howner
        cases howner
      | released he _ => exact absurd (List.mem_singleton.mpr he.symm) hkept.2
      | @expired o' he hheld _ =>
        obtain rfl := Option.some.inj (hheld.symm.trans howner)
        rcases step_ended hstep with hsame | ⟨o'', he', hcons⟩
        · subst he
          cases hstep
          exact absurd List.mem_cons_self hlasts
        · rw [he] at he'
          cases he'
          rw [hcons] at hlasts
          exact absurd List.mem_cons_self hlasts
    · obtain rfl := List.mem_singleton.mp hlast
      simp only [step] at hstep
      split at hstep
      · cases hstep
        exact set_same s k _
      · cases hstep

end Book

end Ucorf.Leases
