import Ucorf.ClientDelivery
import Ucorf.ClientDisconnect

/-!
# Where the answer of a call comes from

Three kinds of threads push values on the channel of a call: the frame that was found
under its key, the callback of its own `Send`, and the handler of a disconnect of its own
transport. The channel holds one value, so the call returns the first of all that were
ever pushed for it, whatever comes later.
-/
namespace Ucorf.ClientProvenance

open Ucorf.Message
open Ucorf.Dispatcher
open Ucorf.Threads
open Ucorf.Client
open Ucorf.ClientSections
open Ucorf.ClientInvariant
open Ucorf.ClientDelivery

section Predicates

variable {D T : Type}

/-- The handler has taken group `g` out of `channels_` and notifies its slots, or has done so. -/
def NotifiesGroup (g : Nat) (pc : DiscPc) : Prop := (∃ k, pc = .closing g k) ∨ pc = .done (some g)

/-- Who pushed the value for call `i`, which registered as `r`, and when. -/
inductive Source (acts : List (Action (Thread T) Label)) (s : State D T) (i : Nat) (r : Reg T) :
    ResponseData → Prop where
  | frame {j : Nat} {f : Frame T} :
      s.threads[j]? = some (.frame f (.delivered r.chan)) → f.tp = r.tp →
      f.id = r.msgId → Before acts (.run i .register) (.run j .search) →
      Source acts s i r ⟨.ok, some j, f.data⟩
  | sendResult {ec : BoostEc} :
      ec.failed = true → Before acts (.run i .send) (.run i (.sendResult ec)) →
      Source acts s i r (.ofEc ec)
  | disconnect {j : Nat} {ec : BoostEc} {pc : DiscPc} : s.threads[j]? = some (.disc r.tp ec pc) →
      NotifiesGroup r.grp pc → Before acts (.run i .register) (.run j .close) →
      Source acts s i r (.ofEc ec)

/-- A channel whose owner has taken `answer` from it, if anything. -/
def First (c : RspChan) : Option ResponseData → Prop
  | none => c.queue = c.tried.getLast?
  | some rsp => c.tried.getLast? = some rsp

structure Provenance (acts : List (Action (Thread T) Label)) (s : State D T) : Prop where
  pushed : ∀ (ch : Nat) c v, s.shared.chans[ch]? = some c → v ∈ c.tried →
    ∃ i r, Registered s i r ∧ r.chan = ch ∧ Source acts s i r v
  first : ∀ (i : Nat) args pc r c, s.threads[i]? = some (.call args pc) → pc.group = some r →
    s.shared.chans[r.chan]? = some c → First c (pc.answer.map Prod.snd)

end Predicates

variable {D T : Type} [DecidableEq T] [IDispatcher D T] {cfg : Config}
variable {d : D} {s s' : State D T} {act : Action (Thread T) Label}
    {acts : List (Action (Thread T) Label)}

section Sources

theorem NotifiesGroup.next {g : Nat} {pc pc' : DiscPc} {tp : T} {ec : BoostEc}
    {sh sh' : ClientImpl D T} {self : Nat} {a : Label} (hn : NotifiesGroup g pc)
    (h : Section cfg sh self (.disc tp ec pc) a sh' (.disc tp ec pc')) : NotifiesGroup g pc' := by
  rcases hn with ⟨k, rfl⟩ | rfl
  · rcases disc_section h with ⟨ht, -⟩ | ⟨ht, -⟩ | ⟨g', ht, -⟩ | ⟨g', k', grp, ht, -, -, -, hpc⟩ <;>
      cases ht
    rcases hpc with ⟨rfl, -⟩ | ⟨rfl, -⟩
    · exact .inl ⟨_, rfl⟩
    · exact .inr rfl
  · rcases disc_section h with ⟨ht, -⟩ | ⟨ht, -⟩ | ⟨g', ht, -⟩ | ⟨g', k', grp, ht, -⟩ <;> cases ht

/-- A handler stays the handler of its transport. -/
theorem disc_kept {sh sh' : ClientImpl D T} {self : Nat} {t' : Thread T} {tp : T}
    {ec : BoostEc} {pc : DiscPc} {a : Label} (h : Section cfg sh self (.disc tp ec pc) a sh' t') :
    ∃ pc', t' = .disc tp ec pc' := by
  cases h <;> exact ⟨_, rfl⟩

theorem Source.step {i : Nat} {r : Reg T} {v : ResponseData} (hv : Source acts s i r v)
    (h : (program cfg D T).step s act = some s') : Source (acts ++ [act]) s' i r v := by
  cases hv with
  | @frame j f ht htp hid hbefore =>
    rcases thread_next h ht with ⟨ht', -⟩ | ⟨a, t', -, -, hs⟩
    · exact .frame ht' htp hid (before_snoc.mpr (.inl hbefore))
    · exact absurd hs delivered_section
  | sendResult hfailed hbefore => exact .sendResult hfailed (before_snoc.mpr (.inl hbefore))
  | @disconnect j ec pc ht hn hbefore =>
    rcases thread_next h ht with ⟨ht', -⟩ | ⟨a, t', -, ht', hs⟩
    · exact .disconnect ht' hn (before_snoc.mpr (.inl hbefore))
    · obtain ⟨pc', rfl⟩ := disc_kept hs
      exact .disconnect ht' (hn.next hs) (before_snoc.mpr (.inl hbefore))

omit [DecidableEq T] in
theorem sentReg_back {args : CallArgs} {sh sh' : ClientImpl D T}
    {pc pc' : CallPc T} {a : Label} {r : Reg T}
    (h : CallStep cfg args sh pc a sh' pc') (hr : pc'.sentReg = some r) :
    pc.sentReg = some r ∨ a = .send := by
  cases h with
  | early he =>
    have hgroup := CallPc.group_of_registration (CallPc.registration_of_sentReg hr)
    exact absurd (he.group'.symm.trans hgroup) (by simp)
  | number => split at hr <;> cases hr
  | _ => simp_all [CallPc.sentReg, CallPc.registration]

/-- A call past its `Send` executed it. -/
theorem send_mem (h : run (program cfg D T).step (start d) acts = some s) {i : Nat}
    {args : CallArgs} {pc : CallPc T}
    {r : Reg T} (ht : s.threads[i]? = some (.call args pc)) (hr : pc.sentReg = some r) :
    .run i .send ∈ acts := by
  refine label_of (Q := fun t => ∃ args pc r, t = .call args pc ∧ pc.sentReg = some r) ?_ ?_ ?_ h ht
    ⟨args, pc, r, rfl, hr⟩
  · simp [start]
  · rintro t ht ⟨args, pc, r, rfl, hpc⟩
    cases start_call ht
    cases hpc
  · intro sh j t b sh' t' new hn
    obtain ⟨hs, rfl⟩ := next_section hn
    refine ⟨?_, by simp⟩
    rintro ⟨args, pc', r, rfl, hpc'⟩
    obtain ⟨pc, rfl, hc⟩ := call_section hs
    rcases sentReg_back hc hpc' with hold | rfl
    · exact .inl ⟨args, pc, r, rfl, hold⟩
    · exact .inr rfl

omit [DecidableEq T] [IDispatcher D T] in
/-- An entry that a loop over a map meets. -/
theorem entry_of_chans {g : Nat} {grp : RspChanGroup T} {k : Fin 16} {ch : Nat} (hw : Wired s)
    (hg : s.shared.groups[g]? = some grp) (hch : ch ∈ RspChanMap.chans (grp.maps k)) :
    ∃ id, slot id = k ∧ Entry s.shared g id ch := by
  obtain ⟨⟨id, ch'⟩, hmem, rfl⟩ := List.mem_map.mp hch
  have hget : (grp.maps k)[id]? = some ch' := Std.ExtTreeMap.mem_toList_iff_getElem?_eq_some.mp hmem
  have hid : id ∈ grp.maps k := by
    rw [Std.ExtTreeMap.mem_iff_isSome_getElem?, hget]
    rfl
  obtain rfl := hw.placed g grp k id hg hid
  exact ⟨id, rfl, grp, hg, hget⟩

/-- Whatever is pushed on a channel is pushed for the call that owns it. -/
theorem source_of_push (hrun : run (program cfg D T).step (start d) acts = some s) {j : Nat}
    {a : Label} {t t' : Thread T} (ht : s.threads[j]? = some t) (ht' : s'.threads[j]? = some t')
    (hs : Section cfg s.shared j t a s'.shared t')
    {v : ResponseData} {chs : List Nat} (hp : PushChange s.shared j t a t' v chs)
    {ch : Nat} (hch : ch ∈ chs) :
    ∃ i r, Registered s i r ∧ r.chan = ch ∧ Source (acts ++ [.run j a]) s' i r v := by
  have hw := wired hrun
  cases hp with
  | @sendResult args pc r ec hr hfailed =>
    rw [List.mem_singleton] at hch
    subst hch
    exact ⟨j, r, ⟨args, pc, ht, CallPc.registration_of_sentReg hr⟩, rfl,
      .sendResult hfailed (before_snoc.mpr (.inr ⟨rfl, send_mem hrun ht hr⟩))⟩
  | @close tp ec g k grp pc hg =>
    obtain ⟨id, rfl, hentry⟩ := entry_of_chans hw hg hch
    obtain ⟨i, r, hr, rfl, rfl, rfl⟩ := hw.entry g id ch hentry
    -- the group was made for one transport, that of the call and of the handler
    obtain ⟨grp₁, hg₁, htp₁⟩ := (hw.held i r hr.hasGroup).1
    obtain ⟨grp₂, hg₂, htp₂⟩ := (hw.closing j tp ec r.grp _ ht).1
    rw [hg₁] at hg₂
    cases hg₂
    obtain rfl := htp₁.symm.trans htp₂
    exact ⟨i, r, hr, rfl, .disconnect ht' (NotifiesGroup.next (.inl ⟨_, rfl⟩) hs)
      (before_snoc.mpr (.inr ⟨rfl, register_mem hrun hr⟩))⟩
  | @push f c =>
    rw [List.mem_singleton] at hch
    subst hch
    obtain ⟨i, r, hr, htp, hid, rfl⟩ := hw.delivery j f _ ch ht (.inl rfl)
    have hbefore := (ordered hrun).searched j f _ i r ht (.inl rfl) hr
    exact ⟨i, r, hr, rfl, .frame ht' htp.symm hid.symm (before_snoc.mpr (.inl hbefore))⟩

theorem pushed_step (hrun : run (program cfg D T).step (start d) acts = some s)
    (hp : Provenance acts s)
    (h : (program cfg D T).step s act = some s') (ch : Nat) (c' : RspChan) (v : ResponseData)
    (hc : s'.shared.chans[ch]? = some c') (hv : v ∈ c'.tried) :
    ∃ i r, Registered s' i r ∧ r.chan = ch ∧ Source (acts ++ [act]) s' i r v := by
  have hold {c : RspChan} (hc : s.shared.chans[ch]? = some c) (hv : v ∈ c.tried) :
      ∃ i r, Registered s' i r ∧ r.chan = ch ∧ Source (acts ++ [act]) s' i r v := by
    obtain ⟨i, r, hr, hch, hsource⟩ := hp.pushed ch c v hc hv
    exact ⟨i, r, registered_kept h hr, hch, hsource.step h⟩
  rcases step_cases h with ⟨u, rfl, hu, rfl⟩ | ⟨j, a, t, t', rfl, ht, hs, hthreads⟩
  · exact hold hc hv
  · rcases chan_section_back hs hc with rfl | ⟨c, hcold, rfl | rfl | ⟨x, chs, hchange, rfl⟩⟩
    · cases hv
    · exact hold hcold hv
    · exact hold hcold hv
    · rw [iterate_tryPush] at hv
      rcases List.mem_append.mp hv with hnew | hvold
      · obtain ⟨hcount, rfl⟩ := List.mem_replicate.mp hnew
        obtain ⟨hlt, -⟩ := List.getElem?_eq_some_iff.mp ht
        have ht' : s'.threads[j]? = some t' := by rw [hthreads, List.getElem?_set_self hlt]
        obtain ⟨i, r, hr, hch, hsource⟩ :=
          source_of_push hrun ht ht' hs hchange (List.count_pos_iff.mp (Nat.pos_of_ne_zero hcount))
        exact ⟨i, r, registered_kept h hr, hch, hsource⟩
      · exact hold hcold hvold

end Sources

section Firsts

/-- A push changes neither the first value nor what has been taken. -/
theorem First.push {c : RspChan} {answer : Option ResponseData} (h : First c answer)
    (v : ResponseData) (n : Nat) : First ((fun c : RspChan => c.tryPush v)^[n] c) answer := by
  rw [iterate_tryPush]
  by_cases hn : n = 0
  · subst hn
    simpa using h
  · have hlast : (List.replicate n v ++ c.tried).getLast? = c.tried.getLast?.or (some v) := by
      rw [List.getLast?_append]
      simp [List.getLast?_replicate, hn]
    cases answer with
    | none =>
      simp only [First] at h ⊢
      rw [if_neg hn, h, hlast]
    | some rsp =>
      simp only [First] at h ⊢
      rw [hlast, h, Option.some_or]

omit [DecidableEq T] in
/-- A section of the call itself. -/
theorem first_section {args : CallArgs} {sh sh' : ClientImpl D T}
    {pc pc' : CallPc T} {a : Label} {r : Reg T}
    {c' : RspChan} (h : CallStep cfg args sh pc a sh' pc') (hr : pc'.group = some r)
    (hc : sh'.chans[r.chan]? = some c')
    (hfirst : ∀ c, pc.group = some r → sh.chans[r.chan]? = some c →
      First c (pc.answer.map Prod.snd)) :
    First c' (pc'.answer.map Prod.snd) := by
  cases h with
  | early he => exact absurd (he.group'.symm.trans hr) (by simp)
  | number => split at hr <;> cases hr
  | group hg =>
    cases hr
    rw [List.getElem?_concat_length] at hc
    cases hc
    rfl
  | @pop r' c rsp hcold hq =>
    cases hr
    obtain ⟨hlt, -⟩ := List.getElem?_eq_some_iff.mp hcold
    rw [List.getElem?_set_self hlt] at hc
    cases hc
    have hwaiting : c.queue = c.tried.getLast? := hfirst c rfl hcold
    exact hwaiting.symm.trans hq
  | @sendResult _ r' ec hsent =>
    split at hc
    · obtain rfl : r = r' := by
        have hgroup := CallPc.group_of_registration (CallPc.registration_of_sentReg hsent)
        exact Option.some.inj (hr.symm.trans hgroup)
      rw [ClientImpl.tryPush, List.getElem?_modify_eq, Option.map_eq_map,
        Option.map_eq_some_iff] at hc
      obtain ⟨c, hcold, rfl⟩ := hc
      exact (hfirst c hr hcold).push (.ofEc ec) 1
    · exact hfirst c' hr hc
  | refuse hg hclosed =>
    cases hr
    exact hfirst c' rfl hc
  | register hg hclosed =>
    cases hr
    exact hfirst c' rfl hc
  | send =>
    cases hr
    exact hfirst c' rfl hc
  | grow =>
    cases hr
    exact hfirst c' rfl hc
  | timeout ht =>
    cases hr
    exact hfirst c' rfl hc
  | shrink =>
    cases hr
    exact hfirst c' rfl hc
  | erase hg =>
    cases hr
    exact hfirst c' rfl hc

theorem first_step (hrun : run (program cfg D T).step (start d) acts = some s)
    (hp : Provenance acts s)
    (h : (program cfg D T).step s act = some s') (i : Nat) (args : CallArgs) (pc' : CallPc T)
    (r : Reg T) (c' : RspChan)
    (ht : s'.threads[i]? = some (.call args pc')) (hr : pc'.group = some r)
    (hc : s'.shared.chans[r.chan]? = some c') : First c' (pc'.answer.map Prod.snd) := by
  have hw := wired hrun
  rcases thread_back h ht with ⟨hold, hother⟩ | ⟨a, t, rfl, hold, hs⟩ | ⟨-, hstart, -⟩
  · -- some other thread ran, and it can only push
    have hg : HasGroup s i r := ⟨args, pc', hold, hr⟩
    obtain ⟨c, hcold⟩ : ∃ c, s.shared.chans[r.chan]? = some c :=
      ⟨_, List.getElem?_eq_getElem (hw.held i r hg).2⟩
    have hfirst := hp.first i args pc' r c hold hr hcold
    rcases step_cases h with ⟨u, rfl, hu, rfl⟩ | ⟨j, a, t, t', rfl, hj, hs, hthreads⟩
    · obtain rfl : c' = c := Option.some.inj (hc.symm.trans hcold)
      exact hfirst
    · rcases chan_section hs hcold with hsame |
        ⟨args', r', rsp, rfl, -, hch, -, -⟩ | ⟨v, chs, -, hpush⟩
      · obtain rfl : c' = c := Option.some.inj (hc.symm.trans hsame)
        exact hfirst
      · have hj' : HasGroup s j r' := ⟨args', _, hj, rfl⟩
        obtain rfl := hw.distinct j i r' r hj' hg hch
        exact absurd rfl (hother a)
      · obtain rfl : c' = _ := Option.some.inj (hc.symm.trans hpush)
        exact hfirst.push v _
  · obtain ⟨pc, rfl, hcall⟩ := call_section hs
    exact first_section hcall hr hc fun c hg hcold => hp.first i args pc r c hold hg hcold
  · cases start_call hstart
    cases hr

theorem provenance (h : run (program cfg D T).step (start d) acts = some s) :
    Provenance acts s := by
  refine trace_invariant (I := Provenance) ?_ ?_ h
  · constructor
    · simp [start, ClientImpl.init]
    · simp [start]
  · intro acts m act m' hm hp ha
    exact ⟨pushed_step hm hp ha, first_step hm hp ha⟩

end Firsts

section Results

/-- A call that took a value from its channel returns the first that was pushed there, and
every value that was pushed there came from a frame with the call's id on its transport, from
the failure of its own `Send`, or from a disconnect of the group that it registered in. -/
theorem answer_first (cfg : Config) (d : D) (acts : List (Action (Thread T) Label)) (s : State D T)
    (h : run (program cfg D T).step (start d) acts = some s) (i : Nat) (args : CallArgs) (r : Reg T)
    (rsp : ResponseData) (ec : BoostEc)
    (ht : s.threads[i]? = some (.call args (.returned (.answered r rsp) ec))) :
    ∃ c, s.shared.chans[r.chan]? = some c ∧ c.tried.getLast? = some rsp ∧
    (∀ v ∈ c.tried, Source acts s i r v) ∧
      ec = callResult (cfg.parse (args.response.getD 0)) rsp := by
  have hp := provenance h
  have hg : HasGroup s i r := ⟨args, _, ht, rfl⟩
  obtain ⟨c, hc⟩ : ∃ c, s.shared.chans[r.chan]? = some c :=
    ⟨_, List.getElem?_eq_getElem ((wired h).held i r hg).2⟩
  refine ⟨c, hc, hp.first i args _ r c ht rfl hc, ?_, sane h _ (List.mem_of_getElem? ht)⟩
  intro v hv
  obtain ⟨j, r', hr, hch, hsource⟩ := hp.pushed r.chan c v hc hv
  obtain rfl := (wired h).distinct j i r' r hr.hasGroup hg hch
  obtain rfl := hr.hasGroup.unique hg
  exact hsource

/-- The send of a call fails, and its reply comes all the same, too late. -/
def brokenRun : List (Action (Thread Nat) Label) :=
  waitingRun ++ [.run 1 (.sendResult ⟨32, .system⟩),
    .spawn (.frame ⟨0, 1, [5]⟩ .received), .run 2 .lookup, .run 2 .search, .run 2 .push,
      .run 1 .pop, .run 1 .shrink, .run 1 .erase]

theorem answer_first_broken : ∃ s : State (RobinDispatcher Nat) Nat,
    run (program sampleConfig (RobinDispatcher Nat) Nat).step (start .init) brokenRun = some s ∧
      ∃ c, s.shared.chans[0]? = some c ∧ c.tried.getLast? = some (.ofEc ⟨32, .system⟩) ∧
        ∀ v ∈ c.tried, Source brokenRun s 1 ⟨0, 1, 0, 0⟩ v := by
  obtain ⟨s, hs, hret⟩ :=
    run_exists (program sampleConfig (RobinDispatcher Nat) Nat).step (start .init) brokenRun
    (fun s => s.threads[1]? = some (.call twoway
      (.returned (.answered ⟨0, 1, 0, 0⟩ (.ofEc ⟨32, .system⟩)) ⟨32, .system⟩))) (by decide +kernel)
  obtain ⟨c, hc, hfirst, hsource, -⟩ :=
    answer_first sampleConfig RobinDispatcher.init brokenRun s hs 1 _ _ _ _ (of_decide_eq_true hret)
  exact ⟨s, hs, c, hc, hfirst, hsource⟩

end Results

end Ucorf.ClientProvenance
