import Ucorf.ClientInvariant

/-!
# The request window

`Call` looks at `wnd_size_` when it enters and counts itself only after `Send`, and it lets
a full window pass. Whatever the run, the check turns a call away exactly when the counter
is above the window. It bounds the calls that are out as long as each call that it lets pass
finds room among the calls in progress; a counter that receive timeouts have left too high
turns the others away.
-/
namespace Ucorf.ClientWindow

open Ucorf.Message
open Ucorf.Dispatcher
open Ucorf.Threads
open Ucorf.Client
open Ucorf.ClientSections
open Ucorf.ClientInvariant

section Counting

variable {D T : Type}

/-- A two-way call that handed its request to `Send` and has not returned. -/
def outstanding : Thread T → Bool
  | .call _ pc => pc.sentReg.isSome && !pc.isReturned
  | _ => false

/-- A two-way call in progress: past its check of the window and not returned. -/
def admitted : Thread T → Bool
  | .call args pc =>
    match pc with
    | .entered => false
    | .dispatching => args.response.isSome
    | .reconnecting => args.response.isSome
    | .redispatching => args.response.isSome
    | .picked _ => args.response.isSome
    | .posted => false
    | .returned _ _ => false
    | _ => true
  | _ => false

/-- What is out is in progress. -/
theorem admitted_of_outstanding (t : Thread T) (h : outstanding t = true) : admitted t = true := by
  cases t with
  | call args pc => cases pc with
    | returned e ec => cases e <;> cases h
    | sent => rfl
    | waiting => rfl
    | popped => rfl
    | shrunk => rfl
    | _ => cases h
  | _ => cases h

theorem countP_outstanding_le (l : List (Thread T)) : l.countP outstanding ≤ l.countP admitted :=
  List.countP_mono_left fun t _ => admitted_of_outstanding t

/-- A two-way call before its check. -/
def entering : Thread T → Bool
  | .call args .entered => args.response.isSome
  | _ => false

/-- A two-way call that passes the check finds fewer two-way calls in progress than the
window has places. -/
def LeavesRoom (cfg : Config) (s : State D T) (act : Action (Thread T) Label) : Prop :=
  ∀ i < s.threads.length, act = .run i .window → s.threads[i]?.any entering = true →
    s.shared.wndSize ≤ cfg.opt.requestWndSize → s.threads.countP admitted < cfg.opt.requestWndSize

instance [DecidableEq T] (cfg : Config) (s : State D T) (act : Action (Thread T) Label) :
    Decidable (LeavesRoom cfg s act) := inferInstanceAs (Decidable (∀ i < s.threads.length, _))

/-- The call returns `ec_req_wnd_full`, and nothing else happens. -/
def TurnedAway (s s' : State D T) (i : Nat) (args : CallArgs) : Prop :=
  s'.shared = s.shared ∧
    s'.threads = s.threads.set i (.call args (.returned .early (makeUcorfErrorCode .ecReqWndFull)))

theorem any_entering {s : State D T} {i : Nat} {args : CallArgs}
    (hi : s.threads[i]? = some (.call args .entered)) (htwo : args.response.isSome = true) :
    i < s.threads.length ∧ s.threads[i]?.any entering = true := by
  obtain ⟨hlt, -⟩ := List.getElem?_eq_some_iff.mp hi
  refine ⟨hlt, ?_⟩
  rw [hi]
  exact htwo

end Counting

section Steps

variable {D T : Type} [DecidableEq T] [IDispatcher D T] {cfg : Config} {d : D}

omit [DecidableEq T] [IDispatcher D T] in
/-- The sections before the group is found let no call in, the check apart. -/
theorem admitted_early {args : CallArgs} {pc pc' : CallPc T} {a : Label} (he : Early pc a pc')
    (hne : pc ≠ .entered) (hpc' : admitted (.call args pc') = true) :
    admitted (.call args pc) = true := by
  have hgroup := he.group
  have hdrawn := he.drawn
  have hreturned := he.isReturned
  have hgroup' := he.group'
  have hnumber' := he.number'
  cases pc' with
  | dispatching => cases pc <;> simp_all [admitted, CallPc.drawn, CallPc.group, CallPc.isReturned]
  | reconnecting => cases pc <;> simp_all [admitted, CallPc.drawn, CallPc.group, CallPc.isReturned]
  | redispatching => cases pc <;> simp_all [admitted, CallPc.drawn, CallPc.group, CallPc.isReturned]
  | picked => cases pc <;> simp_all [admitted, CallPc.drawn, CallPc.group, CallPc.isReturned]
  | numbered => cases hnumber'
  | entered => cases hpc'
  | posted => cases hpc'
  | returned => cases hpc'
  | _ => cases hgroup'

/-- No section but the check lets a call in. -/
theorem admitted_section {s s' : ClientImpl D T} {self : Nat} {t t' : Thread T} {a : Label}
    (h : Section cfg s self t a s' t') (hne : ∀ args, t ≠ .call args .entered)
    (ht' : admitted t' = true) : admitted t = true := by
  cases h with
  | @call args pc _ _ _ hc =>
    cases hc with
    | early he =>
      have hpc : pc ≠ .entered := by
        rintro rfl
        exact hne args rfl
      exact admitted_early he hpc ht'
    | number =>
      split at ht'
      · rename_i htwo
        exact htwo
      · cases ht'
    | sendResult => exact ht'
    | refuse => cases ht'
    | timeout => cases ht'
    | erase => cases ht'
    | _ => rfl
  | _ => cases ht'

/-- The check itself. -/
theorem check_section {s s' : ClientImpl D T} {self : Nat} {args : CallArgs}
    {t' : Thread T} {a : Label} {new : List (Thread T)}
    (h : (program cfg D T).next s self (.call args .entered) a = some (s', t', new)) :
    a = .window ∧ s' = s ∧ new = [] ∧
      ((s.wndSize > cfg.opt.requestWndSize ∧
        t' = .call args (.returned .early (makeUcorfErrorCode .ecReqWndFull))) ∨
      (s.wndSize ≤ cfg.opt.requestWndSize ∧ t' = .call args .dispatching)) := by
  obtain ⟨⟨sh, pc'⟩, hnext, hmk⟩ := Option.map_eq_some_iff.mp h
  cases hmk
  cases a with
  | window =>
    simp only [callNext] at hnext
    split at hnext
    · cases hnext
      exact ⟨rfl, rfl, rfl, .inl ⟨‹_›, rfl⟩⟩
    · cases hnext
      exact ⟨rfl, rfl, rfl, .inr ⟨Nat.le_of_not_lt ‹_›, rfl⟩⟩
  | _ => cases hnext

/-- The check turns a call away exactly when the counter is above the window. -/
theorem turnedAway_iff {s s' : State D T} {i : Nat} {args : CallArgs}
    (hi : s.threads[i]? = some (.call args .entered))
    (h : (program cfg D T).step s (.run i .window) = some s') :
    TurnedAway s s' i args ↔ cfg.opt.requestWndSize < s.shared.wndSize := by
  obtain ⟨hlt, -⟩ := List.getElem?_eq_some_iff.mp hi
  obtain ⟨u, shared, u', new, hu, hn, rfl⟩ := step_run h
  obtain rfl : Thread.call args .entered = u := Option.some.inj (hi.symm.trans hu)
  obtain ⟨-, rfl, rfl, ⟨hfull, rfl⟩ | ⟨hle, rfl⟩⟩ := check_section hn
  · exact iff_of_true ⟨rfl, List.append_nil _⟩ hfull
  · refine iff_of_false ?_ (Nat.not_lt.mpr hle)
    rintro ⟨-, hthreads⟩
    dsimp only at hthreads
    have hat := congrArg (fun l : List (Thread T) => l[i]?) hthreads
    rw [List.append_nil, List.getElem?_set_self hlt, List.getElem?_set_self hlt] at hat
    cases hat

theorem room_check {s s' : State D T} {i : Nat} {a : Label} {args : CallArgs}
    (hs : s.threads.countP admitted ≤ cfg.opt.requestWndSize) (hroom : LeavesRoom cfg s (.run i a))
    (ht : s.threads[i]? = some (.call args .entered))
    (h : (program cfg D T).step s (.run i a) = some s') :
    s'.threads.countP admitted ≤ cfg.opt.requestWndSize := by
  obtain ⟨v, shared, v', new, hv, hn, rfl⟩ := step_run h
  obtain rfl : Thread.call args .entered = v := Option.some.inj (ht.symm.trans hv)
  have hcount := countP_run admitted v' ht
  have hbefore : admitted (Thread.call (T := T) args .entered) = false := rfl
  obtain ⟨rfl, rfl, rfl, ⟨-, rfl⟩ | ⟨hle, rfl⟩⟩ := check_section hn
  · rw [List.append_nil]
    have hafter : admitted (Thread.call (T := T) args
      (.returned .early (makeUcorfErrorCode .ecReqWndFull))) = false := rfl
    simp only [hbefore, hafter, Bool.false_eq_true, if_false, Nat.add_zero] at hcount
    rwa [hcount]
  · rw [List.append_nil]
    simp only [hbefore, Bool.false_eq_true, if_false, Nat.add_zero] at hcount
    rw [hcount]
    by_cases htwo : admitted (Thread.call (T := T) args .dispatching) = true
    · rw [if_pos htwo]
      obtain ⟨hlt, hany⟩ := any_entering ht htwo
      exact hroom i hlt rfl hany hle
    · rwa [if_neg htwo]

/-- A step that leaves room keeps the calls in progress within the window. -/
theorem room_step (s : State D T) (act : Action (Thread T) Label) (s' : State D T)
    (hs : s.threads.countP admitted ≤ cfg.opt.requestWndSize) (hroom : LeavesRoom cfg s act)
    (h : (program cfg D T).step s act = some s') :
    s'.threads.countP admitted ≤ cfg.opt.requestWndSize := by
  obtain ⟨u, rfl, hu, rfl⟩ | ⟨i, a, t, t', rfl, ht, hsec, hthreads⟩ := step_cases h
  · have hout : admitted u = false := by
      cases u with
      | call args pc =>
        cases start_call hu
        rfl
      | _ => rfl
    simpa [hout] using hs
  · by_cases hentered : ∃ args, t = .call args .entered
    · obtain ⟨args, rfl⟩ := hentered
      exact room_check hs hroom ht h
    · have hfewer := countP_run_le ht (admitted_section hsec fun args he => hentered ⟨args, he⟩)
      rw [hthreads]
      exact Nat.le_trans hfewer hs

theorem room_run {acts : List (Action (Thread T) Label)} {s : State D T}
    (hroom : Guarded (program cfg D T).step (LeavesRoom cfg) (start d) acts)
    (h : run (program cfg D T).step (start d) acts = some s) :
    s.threads.countP admitted ≤ cfg.opt.requestWndSize :=
  guarded_invariant (I := fun s : State D T => s.threads.countP admitted ≤ cfg.opt.requestWndSize)
    (Nat.zero_le _) room_step hroom h

omit [DecidableEq T] in
/-- A call that handed its request to `Send` remains one that did. -/
theorem sentReg_kept {args : CallArgs} {s s' : ClientImpl D T}
    {pc pc' : CallPc T} {a : Label} {r : Reg T}
    (h : CallStep cfg args s pc a s' pc') (hr : pc.sentReg = some r) : pc'.sentReg = some r := by
  cases h with
  | early he =>
    have hgroup := CallPc.group_of_registration (CallPc.registration_of_sentReg hr)
    exact absurd (he.group.symm.trans hgroup) (by simp)
  | sendResult => exact hr
  | _ => simp_all [CallPc.sentReg, CallPc.registration]

/-- `Send` is called for a registered call. -/
theorem send_section {s s' : ClientImpl D T} {self : Nat} {args : CallArgs} {pc pc' : CallPc T}
    {new : List (Thread T)}
    (h : (program cfg D T).next s self (.call args pc) .send = some (s', .call args pc', new)) :
    pc'.sentReg.isSome = true := by
  obtain ⟨⟨sh, pc₁⟩, hnext, hmk⟩ := Option.map_eq_some_iff.mp h
  cases hmk
  cases pc with
  | registered r =>
    cases hnext
    rfl
  | picked tp => cases tp <;> cases hnext
  | _ => cases hnext

/-- A call that left early sent nothing. -/
theorem early_not_sent {acts : List (Action (Thread T) Label)} {s : State D T}
    (h : run (program cfg D T).step (start d) acts = some s) {i : Nat}
    {args : CallArgs} {ec : BoostEc}
    (hi : s.threads[i]? = some (.call args (.returned .early ec))) : .run i .send ∉ acts := by
  intro hmem
  suffices hdone : ∃ t, s.threads[i]? = some t ∧ ∀ args pc, t = .call args pc →
      pc.sentReg.isSome = true by
    obtain ⟨t, ht, hq⟩ := hdone
    cases hq args _ (Option.some.inj (ht.symm.trans hi))
  refine after_label ?_ ?_ h hmem
  · intro sh j t sh' t' new hn args pc' he
    subst he
    obtain ⟨pc, rfl, hc⟩ := call_section (next_section hn).1
    exact send_section hn
  · intro sh j t b sh' t' new hq hn args pc' he
    subst he
    obtain ⟨pc, rfl, hc⟩ := call_section (next_section hn).1
    obtain ⟨r, hr⟩ := Option.isSome_iff_exists.mp (hq args pc rfl)
    rw [sentReg_kept hc hr]
    rfl

end Steps

section Runs

/-- A client with a window of one call. -/
def narrowConfig : Config := ⟨⟨1, 100⟩, 1, Nat.one_pos, fun _ data => data.length⟩

/-- A call runs into its timeout and leaves the counter at one, a second one is out, and a
third one enters. -/
def leakRun : List (Action (Thread Nat) Label) :=
  waitingRun ++ [.run 1 .timeout] ++ callRun 2 ++ [.spawn (.call twoway .entered)]

/-- A client whose window is empty. -/
def closedConfig : Config := ⟨⟨0, 100⟩, 1, Nat.one_pos, fun _ data => data.length⟩

end Runs

end Ucorf.ClientWindow
