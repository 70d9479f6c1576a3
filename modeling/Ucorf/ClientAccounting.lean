import Ucorf.ClientInvariant

/-!
# In-flight accounting of the client

As long as no call leaves through its receive timeout, `wnd_size_` counts the
calls that wait for a response and every key of a map belongs to a call in
progress. The timeout exit returns before it takes its count and its key back.
-/
namespace Ucorf.ClientAccounting

open Ucorf.Message
open Ucorf.Dispatcher
open Ucorf.Threads
open Ucorf.Client
open Ucorf.ClientSections
open Ucorf.ClientInvariant

section Counting

variable {T : Type}

/-- A call between `++wnd_size_` and `--wnd_size_`. -/
def inWindow : Thread T → Bool
  | .call _ (.waiting _) => true
  | .call _ (.popped _ _) => true
  | _ => false

def inProgress : Thread T → Bool
  | .call _ pc => !pc.isReturned
  | _ => false

theorem inProgress_of_inWindow (t : Thread T) (h : inWindow t = true) : inProgress t = true := by
  unfold inWindow at h
  split at h
  · rfl
  · rfl
  · cases h

theorem inWindow_of_group {args : CallArgs} {pc : CallPc T} (h : pc.group = none) :
    inWindow (.call args pc) = false := by
  cases pc <;> first | rfl | cases h

theorem countP_window_le (l : List (Thread T)) : l.countP inWindow ≤ l.countP inProgress :=
  List.countP_mono_left fun t _ => inProgress_of_inWindow t

variable {D : Type}

/-- `wnd_size_` counts the calls in the window, without wrapping. -/
def Counted (s : State D T) : Prop :=
  s.shared.wndSize = s.threads.countP inWindow ∧ s.threads.countP inWindow < 2 ^ 64

/-- Every entry is the registration of a call that has not returned. -/
def EntriesLive (s : State D T) : Prop :=
  ∀ g id ch, Entry s.shared g id ch → ∃ (i : Nat) (args : CallArgs) (pc : CallPc T) (r : Reg T),
    s.threads[i]? = some (.call args pc) ∧ pc.live = some r ∧ r.grp = g ∧ r.msgId = id ∧ r.chan = ch

/-- What the callers of a client rely on: the window bounds the calls in progress,
and calls leave nothing behind. -/
structure Accounted (s : State D T) : Prop where
  window : s.shared.wndSize = s.threads.countP inWindow
  bounded : s.shared.wndSize ≤ s.threads.countP inProgress
  noWrap : ∀ (i : Nat) args r rsp, s.threads[i]? = some (.call args (.popped r rsp)) →
    0 < s.shared.wndSize
  keys : ∀ tp g grp k id, s.shared.channels tp = some g →
    s.shared.groups[g]? = some grp → id ∈ grp.maps k →
    ∃ (i : Nat) (args : CallArgs) (pc : CallPc T), s.threads[i]? = some (.call args pc) ∧
      pc.isReturned = false ∧ pc.number = some id
  quiet : s.threads.countP inProgress = 0 → s.shared.wndSize = 0 ∧
    ∀ tp g grp k, s.shared.channels tp = some g → s.shared.groups[g]? = some grp → grp.maps k = ∅

theorem accounted_of_counted {s : State D T} (hc : Counted s) (hl : EntriesLive s) (hw : Wired s) :
    Accounted s := by
  have hkeys : ∀ tp g grp k id, s.shared.channels tp = some g →
      s.shared.groups[g]? = some grp → id ∈ grp.maps k →
        ∃ (i : Nat) (args : CallArgs) (pc : CallPc T), s.threads[i]? = some (.call args pc) ∧
          pc.isReturned = false ∧ pc.number = some id := by
    intro tp g grp k id _ hgrp hid
    obtain ⟨ch, hch⟩ := Option.isSome_iff_exists.mp (Std.ExtTreeMap.mem_iff_isSome_getElem?.mp hid)
    obtain rfl := hw.placed g grp k id hgrp hid
    obtain ⟨i, args, pc, r, hi, hlive, -, rfl, -⟩ := hl g id ch ⟨grp, hgrp, hch⟩
    have hnumber :=
      CallPc.number_of_group (CallPc.group_of_registration (CallPc.registration_of_live hlive))
    exact ⟨i, args, pc, hi, CallPc.isReturned_of_live hlive, hnumber⟩
  have hbounded : s.shared.wndSize ≤ s.threads.countP inProgress := by
    rw [hc.1]
    exact countP_window_le s.threads
  constructor
  · exact hc.1
  · exact hbounded
  · intro i args r rsp hi
    rw [hc.1]
    exact List.countP_pos_iff.mpr ⟨_, List.mem_of_getElem? hi, rfl⟩
  · exact hkeys
  · intro hnone
    constructor
    · omega
    · intro tp g grp k hg hgrp
      rw [Std.ExtTreeMap.eq_empty_iff_forall_not_mem]
      intro id hid
      obtain ⟨i, args, pc, hi, hret, -⟩ := hkeys tp g grp k id hg hgrp hid
      have hmem := List.countP_eq_zero.mp hnone _ (List.mem_of_getElem? hi)
      simp [inProgress, hret] at hmem

end Counting

variable {D T : Type} [DecidableEq T] [IDispatcher D T] {cfg : Config}

/-- No receive timeout, and no counter that is full already. -/
def KeepsCount (s : State D T) (act : Action (Thread T) Label) : Prop :=
  act.label ≠ some .timeout ∧ (act.label = some .grow → s.threads.countP inProgress < 2 ^ 64)

instance (s : State D T) (act : Action (Thread T) Label) : Decidable (KeepsCount s act) :=
  inferInstanceAs (Decidable (_ ∧ _))

/-- What a section does to the window counter. -/
theorem window_section {s s' : ClientImpl D T} {self : Nat} {t t' : Thread T} {a : Label}
    (h : Section cfg s self t a s' t') :
    (s'.wndSize = s.wndSize ∧ inWindow t' = inWindow t) ∨
      (a = .grow ∧ s'.wndSize = (s.wndSize + 1) % 2 ^ 64 ∧
        inProgress t = true ∧ inWindow t = false ∧
        inWindow t' = true) ∨
      (a = .shrink ∧ s'.wndSize = (s.wndSize + (2 ^ 64 - 1)) % 2 ^ 64 ∧
        inWindow t = true ∧ inWindow t' = false) ∨
      a = .timeout := by
  cases h with
  | call hc =>
    cases hc with
    | grow => exact .inr (.inl ⟨rfl, rfl, rfl, rfl, rfl⟩)
    | shrink => exact .inr (.inr (.inl ⟨rfl, rfl, rfl, rfl⟩))
    | timeout => exact .inr (.inr (.inr rfl))
    | early he => exact .inl ⟨rfl, by rw [inWindow_of_group he.group, inWindow_of_group he.group']⟩
    | number => exact .inl ⟨rfl, by split <;> rfl⟩
    | sendResult => exact .inl ⟨by split <;> rfl, rfl⟩
    | _ => exact .inl ⟨rfl, rfl⟩
  | close => exact .inl ⟨by rw [foldl_tryPush]; rfl, rfl⟩
  | _ => exact .inl ⟨rfl, rfl⟩

theorem counted_step (s : State D T) (act : Action (Thread T) Label) (s' : State D T)
    (hs : Counted s)
    (hk : KeepsCount s act) (h : (program cfg D T).step s act = some s') : Counted s' := by
  obtain ⟨hwnd, hlt⟩ := hs
  rcases step_cases h with ⟨u, rfl, hu, rfl⟩ | ⟨i, a, t, t', rfl, ht, hsec, hthreads⟩
  · have hout : inWindow u = false := by
      cases u with
      | call args pc =>
        cases start_call hu
        rfl
      | _ => rfl
    have hcount : (s.threads ++ [u]).countP inWindow = s.threads.countP inWindow := by simp [hout]
    exact ⟨by rw [hcount, hwnd], by rw [hcount]; exact hlt⟩
  · have hcount := countP_run inWindow t' ht
    unfold Counted
    rw [hthreads]
    rcases window_section hsec with ⟨hw, hin⟩ |
      ⟨rfl, hw, hprog, hin, hin'⟩ | ⟨rfl, hw, hin, hin'⟩ | rfl
    · rw [hin] at hcount
      omega
    · -- the call that enters is in progress and not counted yet
      have hfull := hk.2 rfl
      have hle := countP_window_le (s.threads.set i t')
      have hprogress := countP_run inProgress t' ht
      simp only [hprog, inProgress_of_inWindow t' hin', if_true] at hprogress
      simp only [hin, hin', if_true, Bool.false_eq_true, if_false] at hcount
      rw [hw, Nat.mod_eq_of_lt (by omega)]
      omega
    · simp only [hin, hin', if_true, Bool.false_eq_true, if_false] at hcount
      have hpos : s.shared.wndSize + (2 ^ 64 - 1) = 2 ^ 64 + (s.shared.wndSize - 1) := by omega
      rw [hw, hpos, Nat.add_mod_left, Nat.mod_eq_of_lt (by omega)]
      omega
    · exact absurd rfl hk.1

theorem entriesLive_step (s : State D T) (act : Action (Thread T) Label) (s' : State D T)
    (hs : EntriesLive s)
    (hk : KeepsCount s act) (h : (program cfg D T).step s act = some s') : EntriesLive s' := by
  intro g id ch he
  rcases step_cases h with ⟨u, rfl, hu, rfl⟩ | ⟨j, a, t, t', rfl, ht, hsec, hthreads⟩
  · obtain ⟨i, args, pc, r, hi, hrest⟩ := hs g id ch he
    obtain ⟨hlt, -⟩ := List.getElem?_eq_some_iff.mp hi
    exact ⟨i, args, pc, r, by rw [List.getElem?_append_left hlt, hi], hrest⟩
  · rcases entry_back hsec he with hold | ⟨args, r, rfl, rfl, rfl, hg, hid, hch, -⟩
    · obtain ⟨i, args, pc, r, hi, hlive, rfl, rfl, rfl⟩ := hs g id ch hold
      rcases thread_next h hi with ⟨hi', -⟩ | ⟨b, u, hact, hi', hsec'⟩
      · exact ⟨i, args, pc, r, hi', hlive, rfl, rfl, rfl⟩
      · cases hact
        cases hsec' with
        | @call _ _ pc' _ _ hc =>
          rcases live_kept hc hlive with hlive' | rfl | ⟨rfl, rsp, rfl⟩
          · exact ⟨j, args, pc', r, hi', hlive', rfl, rfl, rfl⟩
          · exact absurd rfl hk.1
          · exact absurd he (erase_absent hc)
    · obtain ⟨hlt, -⟩ := List.getElem?_eq_some_iff.mp ht
      exact ⟨j, args, _, r, by rw [hthreads, List.getElem?_set_self hlt], rfl, hg, hid, hch⟩

/-- Without receive timeouts the accounts are right in every reachable state. -/
theorem accounted_of_keepsCount (cfg : Config) (d : D) (acts : List (Action (Thread T) Label))
    (s : State D T)
    (hk : Guarded (program cfg D T).step KeepsCount (start d) acts)
    (h : run (program cfg D T).step (start d) acts = some s) : Accounted s := by
  have hcounted : Counted s := by
    refine guarded_invariant ?_ counted_step hk h
    simp [Counted, start, ClientImpl.init]
  have hlive : EntriesLive s := by
    refine guarded_invariant ?_ entriesLive_step hk h
    rintro g id ch ⟨grp, hgrp, -⟩
    simp [start, ClientImpl.init] at hgrp
  exact accounted_of_counted hcounted hlive (wired h)

section Leaks

/-- A call that left through its receive timeout. -/
def timedOut : Thread T → Bool
  | .call _ (.returned (.timedOut _) _) => true
  | _ => false

/-- A call whose `++wnd_size_` has not been taken back. -/
def holdsSlot (t : Thread T) : Bool := inWindow t || timedOut t

omit [DecidableEq T] [IDispatcher D T] in
theorem not_timedOut {t : Thread T} (h : inWindow t = true) : timedOut t = false := by
  unfold inWindow at h
  split at h
  · rfl
  · rfl
  · cases h

omit [DecidableEq T] [IDispatcher D T] in
theorem countP_holdsSlot (l : List (Thread T)) :
    l.countP holdsSlot = l.countP inWindow + l.countP timedOut := by
  induction l with
  | nil => rfl
  | cons t l ih =>
    rw [List.countP_cons, List.countP_cons, List.countP_cons, ih]
    cases hin : inWindow t with
    | true =>
      rw [holdsSlot, hin, not_timedOut hin]
      simp only [Bool.or_false, if_true, Bool.false_eq_true, if_false]
      omega
    | false =>
      rw [holdsSlot, hin, Bool.false_or]
      simp only [Bool.false_eq_true, if_false]
      omega

omit [DecidableEq T] [IDispatcher D T] in
theorem holdsSlot_of_group {args : CallArgs} {pc : CallPc T} (h : pc.group = none) :
    holdsSlot (.call args pc) = false := by
  cases pc with
  | returned e ec => cases e <;> first | rfl | cases h
  | _ => first | rfl | cases h

/-- What a section does to the slots of the window, timeouts and all. -/
theorem slot_section {s s' : ClientImpl D T} {self : Nat} {t t' : Thread T} {a : Label}
    (h : Section cfg s self t a s' t') :
    (s'.wndSize = s.wndSize ∧ holdsSlot t' = holdsSlot t) ∨
      (s'.wndSize = (s.wndSize + 1) % 2 ^ 64 ∧ holdsSlot t = false ∧ holdsSlot t' = true) ∨
      (s'.wndSize = (s.wndSize + (2 ^ 64 - 1)) % 2 ^ 64 ∧ holdsSlot t = true ∧
        holdsSlot t' = false) := by
  cases h with
  | call hc =>
    cases hc with
    | grow => exact .inr (.inl ⟨rfl, rfl, rfl⟩)
    | shrink => exact .inr (.inr ⟨rfl, rfl, rfl⟩)
    | early he =>
      exact .inl ⟨rfl, by rw [holdsSlot_of_group he.group, holdsSlot_of_group he.group']⟩
    | number => exact .inl ⟨rfl, by split <;> rfl⟩
    | sendResult => exact .inl ⟨by split <;> rfl, rfl⟩
    | _ => exact .inl ⟨rfl, rfl⟩
  | close => exact .inl ⟨by rw [foldl_tryPush]; rfl, rfl⟩
  | _ => exact .inl ⟨rfl, rfl⟩

theorem slots_step (s : State D T) (act : Action (Thread T) Label) (s' : State D T)
    (hs : s.shared.wndSize = s.threads.countP holdsSlot % 2 ^ 64)
    (h : (program cfg D T).step s act = some s') :
    s'.shared.wndSize = s'.threads.countP holdsSlot % 2 ^ 64 := by
  rcases step_cases h with ⟨u, rfl, hu, rfl⟩ | ⟨i, a, t, t', rfl, ht, hsec, hthreads⟩
  · have hout : holdsSlot u = false := by
      cases u with
      | call args pc =>
        cases start_call hu
        rfl
      | _ => rfl
    simpa [hout] using hs
  · have hcount := countP_run holdsSlot t' ht
    rw [hthreads]
    rcases slot_section hsec with ⟨hw, hin⟩ | ⟨hw, hin, hin'⟩ | ⟨hw, hin, hin'⟩
    · rw [hin] at hcount
      rw [hw, hs]
      omega
    · simp only [hin, hin', if_true, Bool.false_eq_true, if_false] at hcount
      rw [hw, hs]
      omega
    · simp only [hin, hin', if_true, Bool.false_eq_true, if_false] at hcount
      rw [hw, hs]
      omega

/-- A call that timed out stays where it is. -/
theorem timedOut_section {s s' : ClientImpl D T} {self : Nat} {t t' : Thread T} {a : Label}
    (h : Section cfg s self t a s' t') (ht : timedOut t = true) : timedOut t' = true := by
  cases h with
  | call hc =>
    cases hc with
    | early he =>
      have hreturned := he.isReturned
      unfold timedOut at ht
      split at ht
      · rename_i heq
        cases heq
        cases hreturned
      · cases ht
    | sendResult => exact ht
    | _ => cases ht
  | _ => cases ht

theorem timedOut_step {s s' : State D T} {act : Action (Thread T) Label}
    (h : (program cfg D T).step s act = some s') :
    s.threads.countP timedOut ≤ s'.threads.countP timedOut := by
  rcases step_cases h with ⟨u, rfl, hu, rfl⟩ | ⟨i, a, t, t', rfl, ht, hsec, hthreads⟩
  · rw [List.countP_append]
    exact Nat.le_add_right _ _
  · have hcount := countP_run timedOut t' ht
    rw [hthreads]
    cases hold : timedOut t with
    | true =>
      rw [hold, timedOut_section hsec hold] at hcount
      omega
    | false =>
      simp only [hold, Bool.false_eq_true, if_false] at hcount
      omega

/-- Every timeout takes one slot of the window for good: `wnd_size_` is the number of calls
that wait and of calls that have timed out. Once more than `request_wnd_size` have timed out,
every call from then on returns at once and changes nothing. -/
theorem window_leaks (cfg : Config) (d : D) (acts : List (Action (Thread T) Label)) (s : State D T)
    (h : run (program cfg D T).step (start d) acts = some s) :
    s.shared.wndSize = (s.threads.countP inWindow + s.threads.countP timedOut) % 2 ^ 64 ∧
    (cfg.opt.requestWndSize < s.threads.countP timedOut → ∀ later s',
      run (program cfg D T).step s later = some s' →
      s'.threads.length < 2 ^ 64 → ∀ (i : Nat) args a s'',
        s'.threads[i]? = some (.call args .entered) →
        (program cfg D T).step s' (.run i a) = some s'' →
          s'' = ⟨s'.shared,
            s'.threads.set i
              (.call args (.returned .early (makeUcorfErrorCode .ecReqWndFull)))⟩) := by
  have hslots {acts : List (Action (Thread T) Label)} {s : State D T}
      (h : run (program cfg D T).step (start d) acts = some s) :
      s.shared.wndSize = (s.threads.countP inWindow + s.threads.countP timedOut) % 2 ^ 64 := by
    rw [← countP_holdsSlot]
    exact run_invariant (I := fun s => s.shared.wndSize = s.threads.countP holdsSlot % 2 ^ 64)
      (by simp [start, ClientImpl.init]) slots_step h
  refine ⟨hslots h, ?_⟩
  intro hfull later s' hlater hfew i args a s'' hi hstep
  have hwnd := hslots (run_join h hlater)
  have hgrown : s.threads.countP timedOut ≤ s'.threads.countP timedOut :=
    run_invariant (I := fun m => s.threads.countP timedOut ≤ m.threads.countP timedOut)
      (Nat.le_refl _)
      (fun m act m' hm hact => Nat.le_trans hm (timedOut_step hact)) hlater
  have hbound : s'.threads.countP inWindow + s'.threads.countP timedOut ≤ s'.threads.length := by
    rw [← countP_holdsSlot]
    exact List.countP_le_length
  rw [Nat.mod_eq_of_lt (by omega)] at hwnd
  obtain ⟨t, shared, t', new, ht, hn, rfl⟩ := step_run hstep
  obtain rfl : t = .call args .entered := Option.some.inj (ht.symm.trans hi)
  have hrefused : s'.shared.wndSize > cfg.opt.requestWndSize := by omega
  cases a with
  | window =>
    simp only [program, threadNext, callNext, hrefused, if_true, Option.map_some,
      Option.some.injEq, Prod.mk.injEq] at hn
    obtain ⟨rfl, rfl, rfl⟩ := hn
    rw [List.append_nil]
  | _ => cases hn

/-- A client whose window has no room beside one call. -/
def narrowConfig : Config := { sampleConfig with opt := ⟨0, 100⟩ }

/-- The only call times out, and the next one is refused. -/
theorem window_leaks_narrow : ∃ s s' s'' : State (RobinDispatcher Nat) Nat,
    run (program narrowConfig (RobinDispatcher Nat) Nat).step (start .init)
      (waitingRun ++ [.run 1 .timeout]) = some s ∧
      run (program narrowConfig (RobinDispatcher Nat) Nat).step s
        [.spawn (.call twoway .entered)] = some s' ∧
      (program narrowConfig (RobinDispatcher Nat) Nat).step s' (.run 2 .window) = some s'' ∧
      s'' = ⟨s'.shared,
        s'.threads.set 2 (.call twoway (.returned .early (makeUcorfErrorCode .ecReqWndFull)))⟩ := by
  obtain ⟨s, h, hs⟩ :=
    run_exists (program narrowConfig (RobinDispatcher Nat) Nat).step (start .init)
    (waitingRun ++ [.run 1 .timeout])
    (fun s => s.threads.countP timedOut = 1 ∧
      (run (program narrowConfig (RobinDispatcher Nat) Nat).step s
      [.spawn (.call twoway .entered)]).any (fun s' => s'.threads.length = 3 ∧
        s'.threads[2]? = some (.call twoway .entered) ∧
        ((program narrowConfig (RobinDispatcher Nat) Nat).step s' (.run 2 .window)).isSome))
          (by decide +kernel)
  obtain ⟨hone, hlater⟩ := of_decide_eq_true hs
  obtain ⟨s', h', hs'⟩ := run_exists _ _ _ _ hlater
  obtain ⟨hlength, hcall, hwindow⟩ := of_decide_eq_true hs'
  obtain ⟨s'', h''⟩ := Option.isSome_iff_exists.mp hwindow
  have hfull : narrowConfig.opt.requestWndSize < s.threads.countP timedOut := by
    rw [hone]
    decide
  exact ⟨s, s', s'', h, h', h'',
    (window_leaks narrowConfig RobinDispatcher.init _ s h).2 hfull _ s' h'
    (by rw [hlength]; decide) 2 twoway .window s'' hcall h''⟩

end Leaks

section Runs

theorem accounted_answered : ∃ s : State (RobinDispatcher Nat) Nat,
    run (program sampleConfig (RobinDispatcher Nat) Nat).step (start .init) answeredRun = some s ∧
    Accounted s := by
  obtain ⟨s, hs, -⟩ :=
    run_exists (program sampleConfig (RobinDispatcher Nat) Nat).step (start .init)
    answeredRun
    (fun _ => true) (by decide +kernel)
  exact ⟨s, hs, accounted_of_keepsCount sampleConfig RobinDispatcher.init
    answeredRun s (by decide +kernel) hs⟩

theorem timeout_not_accounted :
    ¬ ∀ s : State (RobinDispatcher Nat) Nat,
      run (program sampleConfig (RobinDispatcher Nat) Nat).step (start .init)
        (waitingRun ++ [.run 1 .timeout]) =
        some s → Accounted s := by
  intro hall
  obtain ⟨s, hs, hleak⟩ :=
    run_exists (program sampleConfig (RobinDispatcher Nat) Nat).step (start .init)
    (waitingRun ++ [.run 1 .timeout])
    (fun s => s.threads.countP inProgress = 0 ∧ s.shared.wndSize = 1) (by decide +kernel)
  obtain ⟨hnone, hone⟩ := of_decide_eq_true hleak
  have hquiet := (hall s hs).quiet hnone
  omega

end Runs

end Ucorf.ClientAccounting
