import Ucorf.ClientInvariant

/-!
# Delivery of responses

Every value in a channel is an error or the body of a frame that was found under
the key of the call that owns the channel. So a call that succeeds got the body of
a frame on its own transport with its own id, and a frame completes one call. The
frame may have arrived before the call registered: `OnResponse` looks for the group
and for the channel under different mutexes.
-/
namespace Ucorf.ClientDelivery

open Ucorf.Message
open Ucorf.Dispatcher
open Ucorf.Threads
open Ucorf.Client
open Ucorf.ClientSections
open Ucorf.ClientInvariant

section Values

variable {D T : Type}

/-- An error, or what frame `header` carries to channel `ch`. -/
def Genuine (s : State D T) (ch : Nat) (rsp : ResponseData) : Prop :=
  (rsp.header = none ∧ rsp.data = []) ∨ ∃ (j : Nat) (f : Frame T), rsp.header = some j ∧
    s.threads[j]? = some (.frame f (.delivered ch)) ∧ rsp.data = f.data

structure Delivering (s : State D T) : Prop where
  queued : ∀ (ch : Nat) c rsp, s.shared.chans[ch]? = some c → c.queue = some rsp → Genuine s ch rsp
  popped : ∀ (i : Nat) args pc r rsp, s.threads[i]? = some (.call args pc) →
    pc.answer = some (r, rsp) →
    Genuine s r.chan rsp

/-- Frame `j` carried the response that `r` waited for. -/
structure CompletedBy (cfg : Config) (s : State D T) (args : CallArgs)
    (r : Reg T) (j : Nat) (f : Frame T) : Prop where
  delivered : s.threads[j]? = some (.frame f (.delivered r.chan))
  transport : f.tp = r.tp
  number : f.id = r.msgId
  parsed : f.data ≠ [] ∧ cfg.parse (args.response.getD 0) f.data ≠ 0

end Values

variable {D T : Type} [DecidableEq T] [IDispatcher D T] {cfg : Config}
variable {s s' : State D T} {act : Action (Thread T) Label}

/-- A value that has a source keeps it. -/
theorem genuine_step (h : (program cfg D T).step s act = some s') {ch : Nat} {rsp : ResponseData}
    (hg : Genuine s ch rsp) : Genuine s' ch rsp := by
  rcases hg with herr | ⟨j, f, hj, ht, hdata⟩
  · exact .inl herr
  · rcases thread_next h ht with ⟨ht', -⟩ | ⟨a, t', -, ht', hs⟩
    · exact .inr ⟨j, f, hj, ht', hdata⟩
    · exact absurd hs delivered_section

/-- A queue holds values that have a source. -/
theorem queued_step (h : (program cfg D T).step s act = some s') (hd : Delivering s) (ch : Nat)
    (c' : RspChan)
    (rsp : ResponseData) (hc : s'.shared.chans[ch]? = some c') (hq : c'.queue = some rsp) :
    Genuine s' ch rsp := by
  rcases step_cases h with ⟨u, rfl, hu, rfl⟩ | ⟨i, a, t, t', rfl, ht, hs, hthreads⟩
  · exact genuine_step h (hd.queued ch c' rsp hc hq)
  · rcases chan_section_back hs hc with rfl | ⟨c, hold, rfl | rfl | ⟨x, chs, hchange, rfl⟩⟩
    · cases hq
    · exact genuine_step h (hd.queued ch _ rsp hold hq)
    · cases hq
    · rcases queue_pushed hq with hq' | ⟨rfl, hmem⟩
      · exact genuine_step h (hd.queued ch c rsp hold hq')
      · cases hchange with
        | sendResult => exact .inl ⟨rfl, rfl⟩
        | close => exact .inl ⟨rfl, rfl⟩
        | @push f b =>
          obtain ⟨hlt, -⟩ := List.getElem?_eq_some_iff.mp ht
          rw [List.mem_singleton] at hmem
          subst hmem
          exact .inr ⟨i, f, rfl, by rw [hthreads, List.getElem?_set_self hlt], rfl⟩

/-- So a value that was taken has one. -/
theorem popped_step (h : (program cfg D T).step s act = some s') (hd : Delivering s) (i : Nat)
    (args : CallArgs)
    (pc : CallPc T) (r : Reg T) (rsp : ResponseData) (ht : s'.threads[i]? = some (.call args pc))
    (ha : pc.answer = some (r, rsp)) : Genuine s' r.chan rsp := by
  rcases thread_back h ht with ⟨hold, -⟩ | ⟨a, t, rfl, hold, hs⟩ | ⟨-, hstart, -⟩
  · exact genuine_step h (hd.popped i args pc r rsp hold ha)
  · obtain ⟨pc₀, rfl, hc⟩ := call_section hs
    rcases answer_back hc ha with ha' | ⟨c, rfl, hc, hq⟩
    · exact genuine_step h (hd.popped i args pc₀ r rsp hold ha')
    · exact genuine_step h (hd.queued r.chan c rsp hc hq)
  · cases start_call hstart
    cases ha

/-- In every run whatever was given or taken has a source. -/
theorem delivering {d : D} {acts : List (Action (Thread T) Label)}
    (h : run (program cfg D T).step (start d) acts = some s) : Delivering s := by
  refine run_invariant ?_ (fun m a m' hm ha => ⟨queued_step ha hm, popped_step ha hm⟩) h
  constructor
  · simp [start, ClientImpl.init]
  · simp [start]

/-- Registrations and searches, in the order of the schedule. -/
structure Ordered (acts : List (Action (Thread T) Label)) (s : State D T) : Prop where
  registered : ∀ i r, Registered s i r → .run i .register ∈ acts
  searched : ∀ (j : Nat) f pc i r, s.threads[j]? = some (.frame f pc) →
    pc = .delivering r.chan ∨ pc = .delivered r.chan → Registered s i r →
    Before acts (.run i .register) (.run j .search)

/-- A step adds to the end of the order. -/
theorem ordered_step {d : D} {acts : List (Action (Thread T) Label)}
    (hrun : run (program cfg D T).step (start d) acts = some s) (ho : Ordered acts s)
    (h : (program cfg D T).step s act = some s') : Ordered (acts ++ [act]) s' where
  registered := by
    have hrun' : run (program cfg D T).step (start d) (acts ++ [act]) = some s' :=
      run_join hrun (by simp only [run_cons, h, Option.bind_some, run_nil])
    exact fun i r hr => register_mem hrun' hr
  searched := by
    intro j f pc i r ht hpc hr
    have hw := wired hrun
    have hw' := wired_step s act s' hw h
    -- whoever owns the channel had registered it before the frame found it
    have hearlier {pc₀ : FramePc} (hold : s.threads[j]? = some (.frame f pc₀))
        (hpc₀ : pc₀ = .delivering r.chan ∨ pc₀ = .delivered r.chan) :
        Before (acts ++ [act]) (.run i .register) (.run j .search) := by
      obtain ⟨i', r', hr', -, -, hch⟩ := hw.delivery j f pc₀ r.chan hold hpc₀
      obtain rfl : i' = i := hw'.distinct _ _ _ _ (registered_kept h hr').hasGroup hr.hasGroup hch
      obtain rfl : r' = r := (registered_kept h hr').hasGroup.unique hr.hasGroup
      exact before_snoc.mpr (.inl (ho.searched j f pc₀ i' r' hold hpc₀ hr'))
    rcases thread_back h ht with ⟨hold, -⟩ | ⟨a, t, rfl, hold, hs⟩ | ⟨-, hstart, -⟩
    · exact hearlier hold hpc
    · rcases frame_section hs with rfl | ⟨g, -, -, -, rfl⟩ |
        ⟨g, grp, c, rfl, rfl, hg, hch, rfl⟩ | ⟨c, rfl, -, rfl⟩
      · rcases hpc with hpc | hpc <;> cases hpc
      · rcases hpc with hpc | hpc <;> cases hpc
      · refine before_snoc.mpr (.inr ⟨rfl, ho.registered i r ?_⟩)
        rcases registered_back h hr with hold' | ⟨hact, -⟩
        · exact hold'
        · cases hact
      · exact hearlier hold (by simpa using hpc)
    · rcases hpc with rfl | rfl <;> cases hstart

/-- In every run a frame that was found a call has searched after the call registered. -/
theorem ordered {d : D} {acts : List (Action (Thread T) Label)}
    (h : run (program cfg D T).step (start d) acts = some s) : Ordered acts s := by
  refine trace_invariant ?_ (fun pre m a m' hrun hm ha => ordered_step hrun hm ha) h
  constructor
  · rintro i r ⟨args, pc, ht, -⟩
    simp [start] at ht
  · simp [start]

section Results

/-- What a call returns on each of its exits. -/
def Sane (cfg : Config) : Thread T → Prop
  | .call args .posted => args.response = none
  | .call args (.returned .early ec) => args.response.isSome = true → ec.failed = true
  | .call args (.returned (.answered _ rsp) ec) =>
      ec = callResult (cfg.parse (args.response.getD 0)) rsp
  | .call _ (.returned _ ec) => ec.failed = true
  | _ => True

omit [DecidableEq T] in
/-- The exit that a call takes decides what it returns. -/
theorem sane_step {args : CallArgs} {sh sh' : ClientImpl D T} {pc pc' : CallPc T} {a : Label}
    (h : CallStep cfg args sh pc a sh' pc') (hq : Sane cfg (.call args pc)) :
    Sane cfg (.call args pc') := by
  cases h with
  | early he =>
    cases pc' with
    | posted => exact absurd rfl he.posted'
    | returned e ec =>
      cases e with
      | early =>
        intro hsome
        rcases he.returned' .early ec rfl with rfl | hfailed
        · rw [show args.response = none from hq] at hsome
          cases hsome
        · exact hfailed
      | _ => cases he.group'
    | _ => trivial
  | number =>
    by_cases hsome : args.response.isSome = true
    · rw [if_pos hsome]
      trivial
    · rw [if_neg hsome]
      simpa [Sane] using hsome
  | refuse => exact rfl
  | timeout => exact rfl
  | erase => exact rfl
  | sendResult => exact hq
  | _ => trivial

theorem sane {d : D} {acts : List (Action (Thread T) Label)}
    (h : run (program cfg D T).step (start d) acts = some s) : ∀ t ∈ s.threads, Sane cfg t := by
  refine threads_invariant (by simp [start]) ?_ ?_ h
  · intro t ht
    cases t with
    | call args pc =>
      cases start_call ht
      trivial
    | _ => trivial
  · intro shared i t a shared' t' new hq hn
    obtain ⟨hs, rfl⟩ := next_section hn
    refine ⟨?_, by simp⟩
    cases hs with
    | call hc => exact sane_step hc hq
    | _ => trivial

/-- A call succeeds on data that was parsed. -/
theorem callResult_ok {parse : Bytes → Nat} {rsp : ResponseData}
    (h : (callResult parse rsp).failed = false) :
    rsp.data ≠ [] ∧ parse rsp.data ≠ 0 := by
  unfold callResult at h
  split at h
  · rename_i hec
    rw [hec] at h
    cases h
  · split at h
    · cases h
    · rename_i hparse
      exact not_or.mp hparse

/-- A call that succeeds took the body of a frame from its channel. -/
theorem completedBy_of_success {d : D} {acts : List (Action (Thread T) Label)}
    (h : run (program cfg D T).step (start d) acts = some s) {i : Nat} {args : CallArgs} {r : Reg T}
    {rsp : ResponseData} {ec : BoostEc}
    (ht : s.threads[i]? = some (.call args (.returned (.answered r rsp) ec)))
    (hec : ec.failed = false) : ∃ j f, rsp.header = some j ∧ CompletedBy cfg s args r j f := by
  have hresult : ec = callResult (cfg.parse (args.response.getD 0)) rsp :=
    sane h _ (List.mem_of_getElem? ht)
  obtain ⟨hdata, hparse⟩ := callResult_ok (by rw [← hresult, hec])
  rcases (delivering h).popped i args _ r rsp ht rfl with ⟨-, herr⟩ | ⟨j, f, hj, hf, hfdata⟩
  · exact absurd herr hdata
  · obtain ⟨i', r', hr', htp, hid, hch⟩ := (wired h).delivery j f _ r.chan hf (.inr rfl)
    have hr : Registered s i r := ⟨args, _, ht, rfl⟩
    obtain rfl : i' = i := (wired h).distinct _ _ _ _ hr'.hasGroup hr.hasGroup hch
    obtain rfl : r' = r := hr'.hasGroup.unique hr.hasGroup
    exact ⟨j, f, hj, hf, htp.symm, hid.symm, by rw [← hfdata]; exact ⟨hdata, hparse⟩⟩

/-- A frame that a call took from its channel was pushed there. -/
theorem delivered_of_answer {d : D} {acts : List (Action (Thread T) Label)}
    (h : run (program cfg D T).step (start d) acts = some s) {i j : Nat} {args : CallArgs}
    {pc : CallPc T}
    {r : Reg T} {rsp : ResponseData} (ht : s.threads[i]? = some (.call args pc))
    (ha : pc.answer = some (r, rsp))
    (hj : rsp.header = some j) : ∃ f, s.threads[j]? = some (.frame f (.delivered r.chan)) := by
  rcases (delivering h).popped i args pc r rsp ht ha with ⟨hnone, -⟩ | ⟨k, f, hk, hf, -⟩
  · rw [hj] at hnone
    cases hnone
  · obtain rfl : j = k := Option.some.inj (hj.symm.trans hk)
    exact ⟨f, hf⟩

/-- A call that succeeds was completed by a frame that was found after it had
registered, and no two calls take the same frame. -/
theorem success_completedBy (cfg : Config) (d : D) (acts : List (Action (Thread T) Label))
    (s : State D T)
    (h : run (program cfg D T).step (start d) acts = some s) :
    (∀ (i : Nat) args e ec, s.threads[i]? = some (.call args (.returned e ec)) →
      args.response.isSome = true →
      ec.failed = false → ∃ r rsp j f, e = .answered r rsp ∧ rsp.header = some j ∧
    CompletedBy cfg s args r j f ∧
        Before acts (.run i .register) (.run j .search)) ∧
    ∀ (i i' : Nat) args args' pc pc' r r' rsp rsp' j,
      s.threads[i]? = some (.call args pc) → pc.answer = some (r, rsp) → rsp.header = some j →
      s.threads[i']? = some (.call args' pc') → pc'.answer = some (r', rsp') →
    rsp'.header = some j → i = i' := by
  constructor
  · intro i args e ec ht hsome hec
    have hsane := sane h _ (List.mem_of_getElem? ht)
    cases e with
    | early => simp [hsane hsome] at hec
    | refused r => simp [show ec.failed = true from hsane] at hec
    | timedOut r => simp [show ec.failed = true from hsane] at hec
    | answered r rsp =>
      obtain ⟨j, f, hj, hby⟩ := completedBy_of_success h ht hec
      have hbefore := (ordered h).searched j f _ i r hby.delivered (.inr rfl) ⟨args, _, ht, rfl⟩
      exact ⟨r, rsp, j, f, rfl, hj, hby, hbefore⟩
  · intro i i' args args' pc pc' r r' rsp rsp' j ht ha hj ht' ha' hj'
    obtain ⟨f, hf⟩ := delivered_of_answer h ht ha hj
    obtain ⟨f', hf'⟩ := delivered_of_answer h ht' ha' hj'
    -- a frame is pushed on one channel, and one call owns it
    have hchan : r.chan = r'.chan := by
      have he := hf.symm.trans hf'
      simp only [Option.some.injEq, Thread.frame.injEq, FramePc.delivered.injEq] at he
      exact he.2
    have hr : Registered s i r := ⟨args, pc, ht, CallPc.registration_of_answer ha⟩
    have hr' : Registered s i' r' := ⟨args', pc', ht', CallPc.registration_of_answer ha'⟩
    exact (wired h).distinct i i' r r' hr.hasGroup hr'.hasGroup hchan

theorem success_completedBy_answered : ∃ s : State (RobinDispatcher Nat) Nat,
    run (program sampleConfig (RobinDispatcher Nat) Nat).step (start .init) answeredRun = some s ∧
      ∃ r rsp j f, s.threads[1]? = some (.call twoway (.returned (.answered r rsp) .ok)) ∧
        CompletedBy sampleConfig s twoway r j f ∧
        Before answeredRun (.run 1 .register) (.run j .search) := by
  obtain ⟨s, hs, hret⟩ :=
    run_exists (program sampleConfig (RobinDispatcher Nat) Nat).step (start .init)
    answeredRun
    (fun s => s.threads[1]? = some (.call twoway
      (.returned (.answered ⟨0, 1, 0, 0⟩ ⟨.ok, some 2, [5]⟩) .ok))) (by decide +kernel)
  have ht := of_decide_eq_true hret
  obtain ⟨r, rsp, j, f, he, -, hby, hbefore⟩ :=
    (success_completedBy sampleConfig RobinDispatcher.init answeredRun s hs).1 1 _ _ _ ht rfl rfl
  exact ⟨s, hs, r, rsp, j, f, by rw [ht, he], hby, hbefore⟩

/-- A frame that nobody asked for finds its group before the call registers and its
channel afterwards. -/
def earlyFrameRun : List (Action (Thread Nat) Label) :=
  connectRun ++ [.spawn (.call twoway .entered), .run 1 .window, .run 1 .get, .run 1 (.number true),
    .run 1 .findGroup, .spawn (.frame ⟨0, 1, [5]⟩ .received), .run 2 .lookup,
      .run 1 .register, .run 2 .search,
    .run 2 .push, .run 1 .send, .run 1 .grow, .run 1 .pop, .run 1 .shrink, .run 1 .erase]

theorem earlyFrame_completes :
    ¬ ∀ s : State (RobinDispatcher Nat) Nat,
      run (program sampleConfig (RobinDispatcher Nat) Nat).step
        (start .init) earlyFrameRun = some s →
      ∀ (i : Nat) args r rsp ec,
        s.threads[i]? = some (.call args (.returned (.answered r rsp) ec)) →
        ec.failed = false → ∃ j f, CompletedBy sampleConfig s args r j f ∧
          Before earlyFrameRun (.run i .register) (.spawn (.frame f .received)) := by
  intro hall
  obtain ⟨s, hs, hret⟩ :=
    run_exists (program sampleConfig (RobinDispatcher Nat) Nat).step (start .init)
    earlyFrameRun
    (fun s => s.threads[1]? = some (.call twoway
      (.returned (.answered ⟨0, 1, 0, 0⟩ ⟨.ok, some 2, [5]⟩) .ok))) (by decide +kernel)
  obtain ⟨j, f, -, hbefore⟩ := hall s hs 1 _ _ _ _ (of_decide_eq_true hret) rfl
  have hf : f = ⟨0, 1, [5]⟩ := by simpa [earlyFrameRun, connectRun] using hbefore.mem_right
  subst hf
  exact absurd hbefore (by decide)

end Results

end Ucorf.ClientDelivery
