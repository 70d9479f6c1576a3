import Ucorf.ClientDelivery

/-!
# A reply on its way to its call

One frame, from `OnResponse` to the return of the call that waits for it, while the
connection stays up and nothing else is pushed on the channel of the call. Whatever
else the client does in between, the call takes that frame.
-/
namespace Ucorf.ReplyDelivery

open Ucorf.Message
open Ucorf.Dispatcher
open Ucorf.Threads
open Ucorf.Client
open Ucorf.ClientSections
open Ucorf.ClientInvariant
open Ucorf.ClientDelivery

section Predicates

variable {D T : Type}

/-- The request is out and the call has not taken an answer. -/
def AwaitsReply (pc : CallPc T) (r : Reg T) : Prop := pc = .sent r ∨ pc = .waiting r

/-- The connection of the call is up, and its channel is empty. -/
structure Connected (s : ClientImpl D T) (r : Reg T) : Prop where
  installed : s.channels r.tp = some r.grp
  empty : ∃ c, s.chans[r.chan]? = some c ∧ c.queue = none

/-- The sections that are left of `Call`, once its channel holds a value. -/
def finish : CallPc T → List Label
  | .sent _ => [.grow, .pop, .shrink, .erase]
  | _ => [.pop, .shrink, .erase]

/-- What `OnResponse` pushes, as thread `n`. -/
def answerOf (n : Nat) (f : Frame T) : ResponseData := ⟨.ok, some n, f.data⟩

/-- A frame is handed to `OnResponse`. -/
def fed (s : State D T) (f : Frame T) : State D T := ⟨s.shared, s.threads ++ [.frame f .received]⟩

/-- The call's shortest way to its return: `OnResponse` on the frame, then what is left of
`Call`. -/
def feedRun (s : State D T) (i : Nat) (pc : CallPc T) : List (Action (Thread T) Label) :=
  [Label.lookup, .search, .push].map (.run s.threads.length) ++ (finish pc).map (.run i)

/-- Call `i` has returned without error, its response parsed from exactly `bytes`. -/
def ReturnedWith (s : State D T) (i : Nat) (args : CallArgs) (r : Reg T) (bytes : Bytes) : Prop :=
  ∃ rsp, s.threads[i]? = some (.call args (.returned (.answered r rsp) .ok)) ∧ rsp.data = bytes

theorem fed_call {s : State D T} {f : Frame T} {i : Nat} {args : CallArgs} {pc : CallPc T}
    (hi : s.threads[i]? = some (.call args pc)) : (fed s f).threads[i]? = some (.call args pc) := by
  obtain ⟨hlt, -⟩ := List.getElem?_eq_some_iff.mp hi
  rw [fed, List.getElem?_append_left hlt, hi]

variable [DecidableEq T] [IDispatcher D T]

/-- The assumptions on the surroundings of call `i` while thread `n` handles its reply:
no receive timeout, no failed send, and the other threads leave the connection, the key
and the channel of the call alone. -/
structure Undisturbed (cfg : Config) (i n : Nat) (r : Reg T) (s : State D T)
    (act : Action (Thread T) Label) : Prop where
  patient : act ≠ .run i .timeout
  sends : ∀ ec, act = .run i (.sendResult ec) → ec.failed = false
  others : ∀ s', (program cfg D T).step s act = some s' → (∀ a, act ≠ .run i a ∧ act ≠ .run n a) →
    s'.shared.channels r.tp = s.shared.channels r.tp ∧
    (Entry s.shared r.grp r.msgId r.chan → Entry s'.shared r.grp r.msgId r.chan) ∧
    s'.shared.chans[r.chan]? = s.shared.chans[r.chan]?

/-- Where the reply is. -/
inductive Phase (s : State D T) (i n : Nat) (args : CallArgs) (r : Reg T) (f : Frame T) : Prop where
  | coming (pc : CallPc T) (pcf : FramePc) (c : RspChan) :
      s.threads[i]? = some (.call args pc) → AwaitsReply pc r →
      s.threads[n]? = some (.frame f pcf) →
      pcf = .received ∨ pcf = .found r.grp ∨ pcf = .delivering r.chan →
      s.shared.channels r.tp = some r.grp → Entry s.shared r.grp r.msgId r.chan →
      s.shared.chans[r.chan]? = some c → c.queue = none → Phase s i n args r f
  | there (pc : CallPc T) (c : RspChan) :
      s.threads[i]? = some (.call args pc) → AwaitsReply pc r →
      s.threads[n]? = some (.frame f (.delivered r.chan)) →
      s.shared.chans[r.chan]? = some c → c.queue = some (answerOf n f) → Phase s i n args r f
  | taken (pc : CallPc T) :
      s.threads[i]? = some (.call args pc) → pc.answer = some (r, answerOf n f) →
      s.threads[n]? = some (.frame f (.delivered r.chan)) → Phase s i n args r f

end Predicates

section Phases

variable {D T : Type} [DecidableEq T] [IDispatcher D T] {cfg : Config} {s s' : State D T}
variable {act : Action (Thread T) Label} {i n : Nat} {args : CallArgs} {r : Reg T} {f : Frame T}

omit [DecidableEq T] in
/-- Before it has an answer the call grows the window or takes what is in its channel. -/
theorem awaits_section {sh sh' : ClientImpl D T} {pc pc' : CallPc T} {a : Label}
    (hpc : AwaitsReply pc r)
    (h : CallStep cfg args sh pc a sh' pc') (hpatient : a ≠ .timeout)
    (hsends : ∀ ec, a = .sendResult ec → ec.failed = false) :
    (AwaitsReply pc' r ∧ sh'.channels = sh.channels ∧ sh'.groups = sh.groups ∧
      sh'.chans = sh.chans) ∨
      ∃ c rsp, sh.chans[r.chan]? = some c ∧ c.queue = some rsp ∧ pc' = .popped r rsp := by
  rcases hpc with rfl | rfl
  · cases h with
    | early he => cases he.group
    | grow => exact .inl ⟨.inr rfl, rfl, rfl, rfl⟩
    | sendResult hr =>
      rw [hsends _ rfl]
      exact .inl ⟨.inl rfl, rfl, rfl, rfl⟩
  · cases h with
    | early he => cases he.group
    | pop hc hq => exact .inr ⟨_, _, hc, hq, rfl⟩
    | timeout => exact absurd rfl hpatient
    | sendResult hr =>
      rw [hsends _ rfl]
      exact .inl ⟨.inr rfl, rfl, rfl, rfl⟩

omit [DecidableEq T] [IDispatcher D T] in
/-- The sections of the frame's own thread find the group, find the channel, and push. -/
theorem coming_section {sh sh' : ClientImpl D T} {pcf pcf' : FramePc} {a : Label} {c : RspChan}
    (hf : f.tp = r.tp ∧ f.id = r.msgId)
    (hpcf : pcf = .received ∨ pcf = .found r.grp ∨ pcf = .delivering r.chan)
    (hch : sh.channels r.tp = some r.grp) (he : Entry sh r.grp r.msgId r.chan)
    (hc : sh.chans[r.chan]? = some c)
    (hq : c.queue = none) (h : frameNext n f sh pcf a = some (sh', pcf')) :
    (sh' = sh ∧ (pcf' = .found r.grp ∨ pcf' = .delivering r.chan)) ∨
      (pcf' = .delivered r.chan ∧ ∃ c', sh'.chans[r.chan]? = some c' ∧
        c'.queue = some (answerOf n f)) := by
  obtain ⟨grp, hgrp, hentry⟩ := he
  rw [← hf.1] at hch
  rw [← hf.2] at hentry
  unfold frameNext at h
  split at h
  · rw [hch] at h
    cases h
    exact .inl ⟨rfl, .inl rfl⟩
  · obtain hg | hg | hg := hpcf <;> cases hg
    rw [hgrp] at h
    dsimp only at h
    rw [hentry] at h
    cases h
    exact .inl ⟨rfl, .inr rfl⟩
  · obtain hg | hg | hg := hpcf <;> cases hg
    cases h
    refine .inr ⟨rfl, c.tryPush (answerOf n f), ?_, ?_⟩
    · simp [ClientImpl.tryPush, hc, answerOf]
    · simp [RspChan.tryPush, hq]
  · cases h

/-- One step moves the reply on or leaves it where it is. -/
theorem phase_step (hf : f.tp = r.tp ∧ f.id = r.msgId) (hp : Phase s i n args r f)
    (hu : Undisturbed cfg i n r s act) (h : (program cfg D T).step s act = some s') :
    Phase s' i n args r f := by
  cases hp with
  | coming pc pcf c hi hpc hn hpcf hch he hc hq =>
    obtain hi' | ⟨a, t', rfl, hi', hsec⟩ := thread_next h hi
    · obtain hn' | ⟨a, pcf', new, rfl, hsec, hn'⟩ := thread_step h hn
      · have hother := hu.others s' h fun a => ⟨hi'.2 a, hn'.2 a⟩
        exact .coming pc pcf c hi'.1 hpc hn'.1 hpcf (hother.1.trans hch)
          (hother.2.1 he) (hother.2.2.trans hc) hq
      · obtain ⟨⟨sh, pcf'⟩, hnext, hmk⟩ := Option.map_eq_some_iff.mp hsec
        cases hmk
        obtain ⟨hsame, hpcf'⟩ | ⟨hdone, c', hc', hq'⟩ := coming_section hf hpcf hch he hc hq hnext
        · rw [← hsame] at hch he hc
          exact .coming pc pcf' c hi'.1 hpc hn' (.inr hpcf') hch he hc hq
        · rw [hdone] at hn'
          exact .there pc c' hi'.1 hpc hn' hc' hq'
    · obtain ⟨hn', -⟩ | ⟨b, t'', hb, hn', hsec'⟩ := thread_next h hn
      · cases hsec with
        | call hcall =>
          obtain ⟨hpc', hchannels, hgroups, hchans⟩ | ⟨c', rsp, hc', hq', -⟩ :=
            awaits_section hpc hcall
            (fun ha => hu.patient (by rw [ha])) (fun ec ha => hu.sends ec (by rw [ha]))
          · refine .coming _ pcf c hi' hpc' hn' hpcf (by rw [hchannels, hch])
              ?_ (by rw [hchans, hc]) hq
            obtain ⟨grp, hgrp, hentry⟩ := he
            exact ⟨grp, by rw [hgroups, hgrp], hentry⟩
          · rw [hc] at hc'
            cases hc'
            rw [hq] at hq'
            cases hq'
      · cases hb
        rw [hi] at hn
        cases hn
  | there pc c hi hpc hn hc hq =>
    obtain ⟨hn', hne⟩ | ⟨b, t'', hb, hn', hsec'⟩ := thread_next h hn
    · obtain hi' | ⟨a, t', rfl, hi', hsec⟩ := thread_next h hi
      · have hother := hu.others s' h fun a => ⟨hi'.2 a, hne a⟩
        exact .there pc c hi'.1 hpc hn' (hother.2.2.trans hc) hq
      · cases hsec with
        | call hcall =>
          obtain ⟨hpc', -, -, hchans⟩ | ⟨c', rsp, hc', hq', hpc'⟩ := awaits_section hpc hcall
            (fun ha => hu.patient (by rw [ha])) (fun ec ha => hu.sends ec (by rw [ha]))
          · exact .there _ c hi' hpc' hn' (by rw [hchans, hc]) hq
          · rw [hc] at hc'
            cases hc'
            rw [hq] at hq'
            cases hq'
            rw [hpc'] at hi'
            exact .taken _ hi' rfl hn'
    · exact absurd hsec' delivered_section
  | taken pc hi ha hn =>
    obtain ⟨hn', -⟩ | ⟨b, t'', hb, hn', hsec'⟩ := thread_next h hn
    · obtain hi' | ⟨a, t', rfl, hi', hsec⟩ := thread_next h hi
      · exact .taken pc hi'.1 ha hn'
      · cases hsec with
        | call hcall => exact .taken _ hi' (answer_kept hcall ha) hn'
    · exact absurd hsec' delivered_section

end Phases

section Results

variable {D T : Type} [DecidableEq T] [IDispatcher D T]

/-- Once the frame is handed to `OnResponse`, the call returns with `bytes`: it can at
once, and it does in whatever other way it comes to return undisturbed. -/
def FeedReturns (cfg : Config) (s : State D T) (i : Nat) (args : CallArgs) (pc : CallPc T)
    (r : Reg T) (f : Frame T)
    (bytes : Bytes) : Prop :=
  (∃ t, run (program cfg D T).step (fed s f) (feedRun s i pc) = some t ∧
    ReturnedWith t i args r bytes) ∧
  ∀ rest t, Guarded (program cfg D T).step (Undisturbed cfg i s.threads.length r) (fed s f) rest →
    run (program cfg D T).step (fed s f) rest = some t →
    (∃ e ec, t.threads[i]? = some (.call args (.returned e ec))) → ReturnedWith t i args r bytes

variable {cfg : Config} {d : D} {acts : List (Action (Thread T) Label)} {s : State D T}
    {i : Nat} {args : CallArgs}
variable {pc : CallPc T} {r : Reg T} {f : Frame T}

theorem fed_step (s : State D T) (f : Frame T) :
    (program cfg D T).step s (.spawn (.frame f .received)) = some (fed s f) := rfl

omit [DecidableEq T] [IDispatcher D T] in
theorem phase_fed (hi : s.threads[i]? = some (.call args pc)) (hpc : AwaitsReply pc r)
    (hc : Connected s.shared r)
    (he : Entry s.shared r.grp r.msgId r.chan) : Phase (fed s f) i s.threads.length args r f := by
  obtain ⟨c, hchan, hq⟩ := hc.empty
  exact .coming pc .received c (fed_call hi) hpc List.getElem?_concat_length
    (.inl rfl) hc.installed he hchan hq

/-- However the call comes to return, it returns with what the frame carried. -/
theorem returned_fed (h : run (program cfg D T).step (start d) acts = some s)
    (hi : s.threads[i]? = some (.call args pc)) (hpc : AwaitsReply pc r) (hc : Connected s.shared r)
    (he : Entry s.shared r.grp r.msgId r.chan) (hf : f.tp = r.tp ∧ f.id = r.msgId)
    {rest : List (Action (Thread T) Label)} {t : State D T}
    (hguard : Guarded (program cfg D T).step (Undisturbed cfg i s.threads.length r) (fed s f) rest)
    (hrest : run (program cfg D T).step (fed s f) rest = some t) {e : Exit T} {ec : BoostEc}
    (ht : t.threads[i]? = some (.call args (.returned e ec))) :
    e = .answered r (answerOf s.threads.length f) ∧
      ec = callResult (cfg.parse (args.response.getD 0)) (answerOf s.threads.length f) := by
  have hphase :=
    guarded_invariant (I := fun s' => Phase s' i s.threads.length args r f) (phase_fed hi hpc hc he)
    (fun m a m' hm hu ha => phase_step hf hm hu ha) hguard hrest
  have hanswer : (CallPc.returned e ec).answer = some (r, answerOf s.threads.length f) := by
    cases hphase with
    | coming pc' _ _ hi' hpc' =>
      rw [ht] at hi'
      cases hi'
      obtain hpc' | hpc' := hpc' <;> cases hpc'
    | there pc' _ hi' hpc' =>
      rw [ht] at hi'
      cases hi'
      obtain hpc' | hpc' := hpc' <;> cases hpc'
    | taken pc' hi' ha =>
      rw [ht] at hi'
      cases hi'
      exact ha
  have hall : run (program cfg D T).step (start d)
      (acts ++ .spawn (.frame f .received) :: rest) = some t := by
    refine run_join h ?_
    rw [run_cons, fed_step, Option.bind_some, hrest]
  cases e with
  | answered r' rsp =>
    cases hanswer
    exact ⟨rfl, sane hall _ (List.mem_of_getElem? ht)⟩
  | _ => cases hanswer

variable (cfg) in
/-- The three sections of `OnResponse` on a frame whose key is the call's. -/
theorem frame_solo {sh : ClientImpl D T} (n : Nat) (hf : f.tp = r.tp ∧ f.id = r.msgId)
    (hch : sh.channels r.tp = some r.grp)
    (he : Entry sh r.grp r.msgId r.chan) :
    run ((program cfg D T).solo n) (sh, .frame f .received) [.lookup, .search, .push] =
      some (sh.tryPush (answerOf n f) r.chan, .frame f (.delivered r.chan)) := by
  obtain ⟨grp, hgrp, hentry⟩ := he
  rw [← hf.1] at hch
  rw [← hf.2] at hentry
  simp [Program.solo, program, threadNext, frameNext, hch, hgrp, hentry, answerOf]

theorem waiting_solo (sh : ClientImpl D T) {grp : RspChanGroup T} {c : RspChan} {rsp : ResponseData}
    (hgrp : sh.groups[r.grp]? = some grp) (hc : sh.chans[r.chan]? = some c)
    (hq : c.queue = some rsp) :
    ∃ sh', run ((program cfg D T).solo i) (sh, .call args (.waiting r)) [.pop, .shrink, .erase] =
      some (sh', .call args (.returned (.answered r rsp)
        (callResult (cfg.parse (args.response.getD 0)) rsp))) := by
  simp [Program.solo, program, threadNext, callNext, hgrp, hc, hq]

variable (cfg i args) in
/-- The rest of `Call`, on a full channel. -/
theorem call_solo {sh : ClientImpl D T} {grp : RspChanGroup T} {c : RspChan} {rsp : ResponseData}
    (hpc : AwaitsReply pc r) (hgrp : sh.groups[r.grp]? = some grp) (hc : sh.chans[r.chan]? = some c)
    (hq : c.queue = some rsp) :
    ∃ sh', run ((program cfg D T).solo i) (sh, .call args pc) (finish pc) =
      some (sh', .call args (.returned (.answered r rsp)
        (callResult (cfg.parse (args.response.getD 0)) rsp))) := by
  obtain rfl | rfl := hpc
  · exact waiting_solo { sh with wndSize := (sh.wndSize + 1) % 2 ^ 64 } hgrp hc hq
  · exact waiting_solo sh hgrp hc hq

variable (cfg) in
/-- The shortest way is there whatever other threads stand where they do. -/
theorem run_feedRun (hi : s.threads[i]? = some (.call args pc)) (hpc : AwaitsReply pc r)
    (hc : Connected s.shared r)
    (he : Entry s.shared r.grp r.msgId r.chan) (hf : f.tp = r.tp ∧ f.id = r.msgId) :
    ∃ t, run (program cfg D T).step (fed s f) (feedRun s i pc) = some t ∧
      t.threads[i]? = some (.call args (.returned (.answered r (answerOf s.threads.length f))
        (callResult (cfg.parse (args.response.getD 0)) (answerOf s.threads.length f)))) := by
  obtain ⟨c, hchan, hq⟩ := hc.empty
  obtain ⟨grp, hgrp, hentry⟩ := he
  obtain ⟨hlt, -⟩ := List.getElem?_eq_some_iff.mp hi
  have hframe := frame_solo cfg s.threads.length hf hc.installed ⟨grp, hgrp, hentry⟩
  have hnew : (s.threads ++ [Thread.frame f .received])[s.threads.length]? =
      some (.frame f .received) :=
    List.getElem?_concat_length
  have hdelivered := run_solo hnew hframe
  have hpushed : (s.shared.tryPush (answerOf s.threads.length f) r.chan).chans[r.chan]? =
      some (c.tryPush (answerOf s.threads.length f)) := by
    simp [ClientImpl.tryPush, hchan]
  have hfull : (c.tryPush (answerOf s.threads.length f)).queue =
      some (answerOf s.threads.length f) := by
    simp [RspChan.tryPush, hq]
  have hgrp' : (s.shared.tryPush (answerOf s.threads.length f) r.chan).groups[r.grp]? = some grp :=
    hgrp
  obtain ⟨sh', hcall⟩ := call_solo cfg i args hpc hgrp' hpushed hfull
  have hthread : ((s.threads ++ [Thread.frame f .received]).set s.threads.length
      (.frame f (.delivered r.chan)))[i]? =
        some (.call args pc) := by
    rw [List.getElem?_set_ne (Nat.ne_of_gt hlt)]
    exact fed_call hi
  refine ⟨_, run_join hdelivered (run_solo hthread hcall), ?_⟩
  have hlen : i < ((s.threads ++ [Thread.frame f .received]).set s.threads.length
      (.frame f (.delivered r.chan))).length := by
    simp only [List.length_set, List.length_append, List.length_singleton]
    omega
  exact List.getElem?_set_self hlen

/-- The pop is the first section of the rest, and it needs a value in the channel. -/
theorem full_of_pop (sh : ClientImpl D T) {st : ClientImpl D T × Thread T}
    (h : run ((program cfg D T).solo i) (sh, .call args (.waiting r))
      [.pop, .shrink, .erase] = some st) :
    ∃ c, sh.chans[r.chan]? = some c ∧ c.queue ≠ none := by
  rw [run_cons, Option.bind_eq_some_iff] at h
  obtain ⟨m, hpop, -⟩ := h
  simp only [Program.solo, program, threadNext, callNext] at hpop
  cases hget : sh.chans[r.chan]? with
  | none => simp [hget] at hpop
  | some c =>
    refine ⟨c, rfl, ?_⟩
    intro hnone
    simp [hget, hnone] at hpop

theorem full_of_solo {sh : ClientImpl D T} {st : ClientImpl D T × Thread T} (hpc : AwaitsReply pc r)
    (h : run ((program cfg D T).solo i) (sh, .call args pc) (finish pc) = some st) :
    ∃ c, sh.chans[r.chan]? = some c ∧ c.queue ≠ none := by
  obtain rfl | rfl := hpc
  · exact full_of_pop { sh with wndSize := (sh.wndSize + 1) % 2 ^ 64 } h
  · exact full_of_pop sh h

/-- A frame that ends on the shortest way was found under its own id. -/
theorem entry_of_feedRun (hi : s.threads[i]? = some (.call args pc)) (hpc : AwaitsReply pc r)
    (hc : Connected s.shared r)
    (hf : f.tp = r.tp) {t : State D T}
    (h : run (program cfg D T).step (fed s f) (feedRun s i pc) = some t) :
    Entry s.shared r.grp f.id r.chan := by
  obtain ⟨c, hchan, hq⟩ := hc.empty
  have hch := hc.installed
  rw [← hf] at hch
  rw [feedRun, run_append, Option.bind_eq_some_iff] at h
  obtain ⟨m, hframe, hcall⟩ := h
  have hnew : ∀ {shared i t a shared' t' new}, (program cfg D T).next shared i t a =
      some (shared', t', new) → new = [] :=
    fun hn => (next_section hn).2
  have hlast : (s.threads ++ [Thread.frame f .received])[s.threads.length]? =
      some (.frame f .received) :=
    List.getElem?_concat_length
  obtain ⟨tf, hsolo, hthreads⟩ := solo_of_run hnew hlast hframe
  have hmi : m.threads[i]? = some (.call args pc) := by
    obtain ⟨hlt, -⟩ := List.getElem?_eq_some_iff.mp hi
    rw [hthreads, List.getElem?_set_ne (Nat.ne_of_gt hlt)]
    exact fed_call hi
  obtain ⟨tc, hcalls, -⟩ := solo_of_run hnew hmi hcall
  -- the pop finds a value only if the push went to the call's channel
  obtain ⟨c', hc', hvalue⟩ := full_of_solo hpc hcalls
  cases hgrp : s.shared.groups[r.grp]? with
  | none => simp [Program.solo, program, threadNext, frameNext, hch, hgrp] at hsolo
  | some grp =>
    cases hentry : (grp.maps (slot f.id))[f.id]? with
    | none => simp [Program.solo, program, threadNext, frameNext, hch, hgrp, hentry] at hsolo
    | some ch =>
      refine ⟨grp, hgrp, ?_⟩
      rw [hentry]
      by_contra hne
      have hother : ch ≠ r.chan := fun he => hne (by rw [he])
      have hpushed : m.shared = s.shared.tryPush (answerOf s.threads.length f) ch := by
        simp [Program.solo, program, threadNext, frameNext, hch, hgrp, hentry] at hsolo
        exact hsolo.1.symm
      have hsame : m.shared.chans[r.chan]? = some c := by
        rw [hpushed, ← hchan]
        simp [ClientImpl.tryPush, hother]
      rw [hsame] at hc'
      cases hc'
      exact hvalue hq

/-- The reply reaches its call and is returned exactly when its id is the key that the
call still owns and its body passes the end of `Call`. -/
theorem feedReturns_iff (h : run (program cfg D T).step (start d) acts = some s)
    (hi : s.threads[i]? = some (.call args pc)) (hpc : AwaitsReply pc r) (hc : Connected s.shared r)
    (hf : f.tp = r.tp) :
    FeedReturns cfg s i args pc r f f.data ↔
      f.id = r.msgId ∧ Entry s.shared r.grp r.msgId r.chan ∧ f.data ≠ [] ∧
    cfg.parse (args.response.getD 0) f.data ≠ 0 := by
  have hreg : Registered s i r := by
    obtain rfl | rfl := hpc
    · exact ⟨args, _, hi, rfl⟩
    · exact ⟨args, _, hi, rfl⟩
  have hresult : callResult (cfg.parse (args.response.getD 0)) (answerOf s.threads.length f) = .ok ↔
      f.data ≠ [] ∧ cfg.parse (args.response.getD 0) f.data ≠ 0 := by
    have hok : (answerOf s.threads.length f).ec.failed = false := rfl
    have hdata : (answerOf s.threads.length f).data = f.data := rfl
    rw [callResult, hok, if_neg (by decide), hdata, ← not_or]
    split
    · rename_i hbad
      simp [hbad, makeUcorfErrorCode, BoostEc.ok]
    · rename_i hgood
      exact ⟨fun _ => hgood, fun _ => rfl⟩
  constructor
  · rintro ⟨⟨t, hrun, hreturned⟩, hall⟩
    have hentry := entry_of_feedRun hi hpc hc hf hrun
    obtain ⟨k, r', hr', hgrp, hid, hchan⟩ := (wired h).entry r.grp f.id r.chan hentry
    obtain rfl := (wired h).distinct k i r' r hr'.hasGroup hreg.hasGroup hchan
    obtain rfl := hr'.hasGroup.unique hreg.hasGroup
    rw [← hid] at hentry
    obtain ⟨t', hrun', ht'⟩ := run_feedRun cfg hi hpc hc hentry ⟨hf, hid.symm⟩
    rw [hrun] at hrun'
    cases hrun'
    obtain ⟨rsp, ht, -⟩ := hreturned
    rw [ht'] at ht
    injection ht with ht
    injection ht with _ ht
    injection ht with _ hok
    exact ⟨hid.symm, hentry, hresult.mp hok⟩
  · rintro ⟨hid, hentry, hbody⟩
    constructor
    · obtain ⟨t, hrun, ht⟩ := run_feedRun cfg hi hpc hc hentry ⟨hf, hid⟩
      rw [hresult.mpr hbody] at ht
      exact ⟨t, hrun, _, ht, rfl⟩
    · rintro rest t hguard hrest ⟨e, ec, ht⟩
      obtain ⟨rfl, rfl⟩ := returned_fed h hi hpc hc hentry ⟨hf, hid⟩ hguard hrest ht
      rw [hresult.mpr hbody] at ht
      exact ⟨_, ht, rfl⟩

end Results

end Ucorf.ReplyDelivery
