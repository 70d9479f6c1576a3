import Ucorf.ClientNumbers

/-!
# Disconnects and waiting calls

`OnDisconnected` takes the group out of `channels_` and closes its sixteen slots one
by one, pushing the error on every channel that it finds. A call that still holds the
group is refused by a closed slot or has found a value in its channel by the time the
last slot is closed, unless a later call has taken its key over, which takes 2^64
draws.
-/
namespace Ucorf.ClientDisconnect

open Ucorf.Message
open Ucorf.Dispatcher
open Ucorf.Threads
open Ucorf.Client
open Ucorf.ClientSections
open Ucorf.ClientInvariant
open Ucorf.ClientNumbers

section Predicates

variable {D T : Type}

/-- Somebody tried to push `rsp` on channel `ch`. -/
def Tried (s : ClientImpl D T) (ch : Nat) (rsp : ResponseData) : Prop :=
  ∃ c, s.chans[ch]? = some c ∧ rsp ∈ c.tried

def Answered (s : State D T) (i : Nat) (r : Reg T) : Prop :=
  ∃ args pc rsp, s.threads[i]? = some (.call args pc) ∧ pc.answer = some (r, rsp)

/-- The value is in the channel, or the call has taken it. -/
def GivenValue (s : State D T) (i : Nat) (r : Reg T) : Prop :=
  (∃ c, s.shared.chans[r.chan]? = some c ∧ c.queue ≠ none) ∨ Answered s i r

/-- The call has been or will be turned away by its slot. -/
def Refused (s : State D T) (i : Nat) (r : Reg T) : Prop :=
  Closed s.shared r.grp (slot r.msgId) ∧ ∃ args, s.threads[i]? = some (.call args (.grouped r)) ∨
    s.threads[i]? = some (.call args (.returned (.refused r) (makeUcorfErrorCode .ecNoEstab)))

end Predicates

variable {D T : Type} [DecidableEq T] [IDispatcher D T] {cfg : Config}

section Values

/-- What was pushed stays recorded. -/
theorem tried_kept {s s' : ClientImpl D T} {self : Nat} {t t' : Thread T} {a : Label} {ch : Nat}
    {rsp : ResponseData}
    (h : Section cfg s self t a s' t') (ht : Tried s ch rsp) : Tried s' ch rsp := by
  obtain ⟨c, hc, hrsp⟩ := ht
  rcases chan_section h hc with hsame | ⟨_, _, _, -, -, -, -, hpop⟩ | ⟨x, chs, -, hpush⟩
  · exact ⟨c, hsame, hrsp⟩
  · exact ⟨c.pop, hpop, hrsp⟩
  · exact ⟨_, hpush, by rw [iterate_tryPush]; exact List.mem_append_right _ hrsp⟩

variable {d : D} {s s' : State D T} {act : Action (Thread T) Label}
    {acts : List (Action (Thread T) Label)}

theorem tried_step (h : (program cfg D T).step s act = some s') {ch : Nat} {rsp : ResponseData}
    (ht : Tried s.shared ch rsp) : Tried s'.shared ch rsp := by
  rcases step_cases h with ⟨u, rfl, hu, rfl⟩ | ⟨j, a, t, t', rfl, hj, hs, hthreads⟩
  · exact ht
  · exact tried_kept hs ht

/-- A call that took a value has taken it for good. -/
theorem answered_step (h : (program cfg D T).step s act = some s') {i : Nat} {r : Reg T}
    (ha : Answered s i r) :
    Answered s' i r := by
  obtain ⟨args, pc, rsp, ht, hpc⟩ := ha
  rcases thread_next h ht with ⟨ht', -⟩ | ⟨a, t', -, ht', hs⟩
  · exact ⟨args, pc, rsp, ht', hpc⟩
  · cases hs with
    | call hc => exact ⟨args, _, rsp, ht', answer_kept hc hpc⟩

/-- Channels and what was pushed on them. -/
structure Valued (s : State D T) : Prop where
  queued : ∀ (ch : Nat) c rsp, s.shared.chans[ch]? = some c → c.queue = some rsp → rsp ∈ c.tried
  answered : ∀ i r, Answered s i r → ∃ rsp, Tried s.shared r.chan rsp
  given : ∀ i r rsp, HasGroup s i r → Tried s.shared r.chan rsp → GivenValue s i r

/-- A queue holds what was pushed. -/
theorem queued_step (h : (program cfg D T).step s act = some s') (hv : Valued s) (ch : Nat)
    (c' : RspChan)
    (rsp : ResponseData) (hc : s'.shared.chans[ch]? = some c') (hq : c'.queue = some rsp) :
    rsp ∈ c'.tried := by
  rcases step_cases h with ⟨u, rfl, hu, rfl⟩ | ⟨j, a, t, t', rfl, hj, hs, hthreads⟩
  · exact hv.queued ch c' rsp hc hq
  · rcases chan_section_back hs hc with rfl | ⟨c, hold, rfl | rfl | ⟨x, chs, -, rfl⟩⟩
    · cases hq
    · exact hv.queued ch _ rsp hold hq
    · cases hq
    · rw [iterate_tryPush]
      rcases queue_pushed hq with hq' | ⟨rfl, hmem⟩
      · exact List.mem_append_right _ (hv.queued ch c rsp hold hq')
      · exact List.mem_append_left _
          (List.mem_replicate.mpr ⟨(List.count_pos_iff.mpr hmem).ne', rfl⟩)

/-- So a value that was taken had been pushed. -/
theorem answered_back (h : (program cfg D T).step s act = some s') (hv : Valued s)
    (i : Nat) (r : Reg T)
    (ha : Answered s' i r) : ∃ rsp, Tried s'.shared r.chan rsp := by
  obtain ⟨args, pc, rsp, ht, hpc⟩ := ha
  have hold {pc₀ : CallPc T} (ht₀ : s.threads[i]? = some (.call args pc₀))
      (hpc₀ : pc₀.answer = some (r, rsp)) :
        ∃ rsp, Tried s'.shared r.chan rsp := by
    obtain ⟨x, hx⟩ := hv.answered i r ⟨args, pc₀, rsp, ht₀, hpc₀⟩
    exact ⟨x, tried_step h hx⟩
  rcases thread_back h ht with ⟨ht₀, -⟩ | ⟨a, t, rfl, ht₀, hs⟩ | ⟨-, hstart, -⟩
  · exact hold ht₀ hpc
  · obtain ⟨pc₀, rfl, hc⟩ := call_section hs
    rcases answer_back hc hpc with hpc₀ | ⟨c, rfl, hchan, hq⟩
    · exact hold ht₀ hpc₀
    · exact ⟨rsp, tried_step h ⟨c, hchan, hv.queued _ c rsp hchan hq⟩⟩
  · cases start_call hstart
    cases hpc

/-- A value that was pushed stays in the channel until the call takes it. -/
theorem given_step (h : (program cfg D T).step s act = some s') (hw : Wired s) (hv : Valued s)
    (i : Nat) (r : Reg T)
    (rsp : ResponseData) (hr : HasGroup s' i r) (hrsp : Tried s'.shared r.chan rsp) :
    GivenValue s' i r := by
  obtain ⟨c', hc', hmem⟩ := hrsp
  rcases hasGroup_back h hr with hold | ⟨-, -, hlen, hchans⟩
  · rcases step_cases h with ⟨u, rfl, hu, rfl⟩ | ⟨j, a, t, t', rfl, hj, hs, hthreads⟩
    · rcases hv.given i r rsp hold ⟨c', hc', hmem⟩ with hq | ha
      · exact .inl hq
      · exact .inr (answered_step h ha)
    · obtain ⟨c, hc⟩ : ∃ c, s.shared.chans[r.chan]? = some c :=
        ⟨_, List.getElem?_eq_getElem (hw.held i r hold).2⟩
      have hgiven (hmem : rsp ∈ c.tried) : c.queue ≠ none ∨ Answered s i r := by
        rcases hv.given i r rsp hold ⟨c, hc, hmem⟩ with ⟨c₂, hc₂, hq⟩ | ha
        · rw [hc] at hc₂
          cases hc₂
          exact .inl hq
        · exact .inr ha
      rcases chan_section hs hc with hsame | ⟨args, r', x, rfl, rfl, hch, -, -⟩ | ⟨x, chs, -, hpush⟩
      · obtain rfl : c' = c := Option.some.inj (hc'.symm.trans hsame)
        rcases hgiven hmem with hq | ha
        · exact .inl ⟨c', hc', hq⟩
        · exact .inr (answered_step h ha)
      · -- the owner of the channel took the value
        obtain ⟨hlt, -⟩ := List.getElem?_eq_some_iff.mp hj
        have hj' : HasGroup s j r' := ⟨args, _, hj, rfl⟩
        obtain rfl := hw.distinct j i r' r hj' hold hch
        obtain rfl := hj'.unique hold
        exact .inr ⟨args, _, x, by rw [hthreads, List.getElem?_set_self hlt], rfl⟩
      · obtain rfl : c' = (fun c : RspChan => c.tryPush x)^[chs.count r.chan] c :=
          Option.some.inj (hc'.symm.trans hpush)
        by_cases hcount : chs.count r.chan = 0
        · rw [hcount] at hmem hc'
          rcases hgiven hmem with hq | ha
          · exact .inl ⟨c, hc', hq⟩
          · exact .inr (answered_step h ha)
        · refine .inl ⟨_, hc', ?_⟩
          rw [iterate_tryPush]
          simp [hcount]
  · rw [hlen, hchans, List.getElem?_concat_length] at hc'
    cases hc'
    cases hmem

theorem valued (h : run (program cfg D T).step (start d) acts = some s) : Valued s := by
  refine trace_invariant (I := fun _ => Valued) ?_ (fun pre m a m' hrun hv hstep => ?_) h
  · constructor
    · simp [start, ClientImpl.init]
    · rintro i r ⟨args, pc, rsp, ht, -⟩
      simp [start] at ht
    · rintro i r rsp ⟨args, pc, ht, -⟩
      simp [start] at ht
  · exact ⟨queued_step hstep hv, answered_back hstep hv, given_step hstep (wired hrun) hv⟩

end Values

section Slots

variable {d : D} {s s' : State D T} {act : Action (Thread T) Label}
    {acts : List (Action (Thread T) Label)}

/-- A slot that is closed stays closed. -/
theorem closed_step {g : Nat} {k : Fin 16} (h : (program cfg D T).step s act = some s')
    (hk : Closed s.shared g k) :
    Closed s'.shared g k := by
  rcases step_cases h with ⟨u, rfl, hu, rfl⟩ | ⟨j, a, t, t', rfl, hj, hs, hthreads⟩
  · exact hk
  · exact closed_kept hs hk

/-- A handler has closed the slots it is past. -/
structure Closing (s : State D T) : Prop where
  closing : ∀ (j : Nat) tp ec g (k k' : Fin 16), s.threads[j]? = some (.disc tp ec (.closing g k)) →
    k' < k →
    Closed s.shared g k'
  done : ∀ (j : Nat) tp ec g k, s.threads[j]? = some (.disc tp ec (.done (some g))) →
    Closed s.shared g k

/-- A handler that is past a slot has closed it. -/
theorem closing_step {j : Nat} {tp : T} {ec : BoostEc} {pc : DiscPc} {g : Nat} {k : Fin 16}
    (h : (program cfg D T).step s act = some s') (hc : Closing s)
    (ht : s'.threads[j]? = some (.disc tp ec pc))
    (hpast : (∃ k', pc = .closing g k' ∧ k < k') ∨ pc = .done (some g)) : Closed s'.shared g k := by
  rcases thread_back h ht with ⟨hold, -⟩ | ⟨a, t, rfl, hold, hs⟩ | ⟨-, hstart, -⟩
  · rcases hpast with ⟨k', rfl, hlt⟩ | rfl
    · exact closed_step h (hc.closing j tp ec g k' k hold hlt)
    · exact closed_step h (hc.done j tp ec g k hold)
  · rcases disc_section hs with ⟨-, -, rfl⟩ | ⟨-, -, -, -, rfl⟩ | ⟨g', -, -, -, -, rfl⟩ |
      ⟨g', i, grp, rfl, rfl, -, -, hpc⟩
    · rcases hpast with ⟨k', hpc, -⟩ | hpc <;> cases hpc
    · rcases hpast with ⟨k', hpc, -⟩ | hpc <;> cases hpc
    · rcases hpast with ⟨k', hpc, hlt⟩ | hpc <;> cases hpc
      exact absurd hlt (Fin.not_lt_zero k)
    · -- the slot just closed, or one before it
      have hslot : g' = g ∧ (k = i ∨ k < i) := by
        rcases hpc with ⟨rfl, hi⟩ | ⟨rfl, hi⟩
        · rcases hpast with ⟨k', hpc, hlt⟩ | hpc <;> cases hpc
          have hval : (i + 1).val = i.val + 1 := by
            rw [Fin.val_add]
            exact Nat.mod_eq_of_lt hi
          rw [Fin.lt_def, hval] at hlt
          exact ⟨rfl, by rw [Fin.ext_iff, Fin.lt_def]; omega⟩
        · rcases hpast with ⟨k', hpc, -⟩ | hpc <;> cases hpc
          exact ⟨rfl, by rw [Fin.ext_iff, Fin.lt_def]; omega⟩
      obtain ⟨rfl, rfl | hlt⟩ := hslot
      · exact (close_section hs).1
      · exact closed_step h (hc.closing j tp ec g' i k hold hlt)
  · rcases hpast with ⟨k', rfl, -⟩ | rfl <;> cases hstart

theorem closing (h : run (program cfg D T).step (start d) acts = some s) : Closing s := by
  refine run_invariant (I := Closing) ?_ (fun m a m' hm hstep => ?_) h
  · constructor <;> simp [start]
  · constructor
    · intro j tp ec g k k' ht hlt
      exact closing_step hstep hm ht (.inl ⟨k, rfl, hlt⟩)
    · intro j tp ec g k ht
      exact closing_step hstep hm ht (.inr rfl)

/-- Nobody registers in a closed slot. -/
theorem registered_of_closed (h : (program cfg D T).step s act = some s') {i : Nat} {r : Reg T}
    (hr : Registered s' i r) (hk : Closed s.shared r.grp (slot r.msgId)) : Registered s i r := by
  rcases registered_back h hr with hold | ⟨rfl, args, ht, ht'⟩
  · exact hold
  · rcases thread_next h ht with ⟨-, hne⟩ | ⟨a, t', ha, ht'', hs⟩
    · exact absurd rfl (hne _)
    · rw [ht'] at ht''
      cases ht''
      obtain ⟨pc, he, hc⟩ := call_section hs
      cases he
      cases ha
      exact absurd hk (register_open hc)

/-- The channel of a registered call in a closed slot has been pushed on. -/
def SlotsNotified (s : State D T) : Prop :=
  ∀ i r, Registered s i r → Closed s.shared r.grp (slot r.msgId) → ∃ rsp, Tried s.shared r.chan rsp

/-- A slot is closed by pushing to all that wait there. -/
theorem slotsNotified_step (hrun : run (program cfg D T).step (start d) acts = some s)
    (hlen : (draws acts).length ≤ 2 ^ 64) (hn : SlotsNotified s)
    (h : (program cfg D T).step s act = some s') :
    SlotsNotified s' := by
  intro i r hr hk
  have hearlier (hold : Closed s.shared r.grp (slot r.msgId)) :
      ∃ rsp, Tried s'.shared r.chan rsp := by
    obtain ⟨rsp, hrsp⟩ := hn i r (registered_of_closed h hr hold) hold
    exact ⟨rsp, tried_step h hrsp⟩
  rcases step_cases h with ⟨u, rfl, hu, rfl⟩ | ⟨j, a, t, t', rfl, hj, hs, hthreads⟩
  · exact hearlier hk
  · rcases closed_back hs hk with hold | ⟨tp, ec, rfl, rfl⟩
    · exact hearlier hold
    · have hreg : Registered s i r := by
        rcases registered_back h hr with hold | ⟨hact, -⟩
        · exact hold
        · cases hact
      obtain ⟨args, pc, ht, hpc⟩ := hreg
      rcases CallPc.unerased_or_answer hpc with hun | ⟨rsp, hans⟩
      · -- the call still has its entry, so the handler meets its channel
        have hun : Unerased s i r := ⟨args, pc, ht, hun⟩
        have hown : OwnEntry s r := (own_iff hrun hun).mpr (not_reused hrun hlen hun.registered)
        have hchan := ((wired hrun).held i r hun.registered.hasGroup).2
        exact ⟨_, (close_section hs).2 r.msgId r.chan rfl hown hchan⟩
      · obtain ⟨x, hx⟩ := (valued hrun).answered i r ⟨args, pc, rsp, ht, hans⟩
        exact ⟨x, tried_step h hx⟩

/-- In a run of fewer than 2^64 numbers, whoever waited in a closed slot was given a value. -/
theorem slotsNotified (h : run (program cfg D T).step (start d) acts = some s)
    (hlen : (draws acts).length ≤ 2 ^ 64) : SlotsNotified s := by
  refine trace_invariant (I := fun acts s => (draws acts).length ≤ 2 ^ 64 →
    SlotsNotified s) ?_ ?_ h hlen
  · rintro - i r ⟨args, pc, ht, -⟩
    simp [start] at ht
  · intro pre m a m' hrun hn hstep hlen'
    have hlen₀ : (draws pre).length ≤ 2 ^ 64 := by
      rw [draws_snoc, List.length_append] at hlen'
      omega
    exact slotsNotified_step hrun hlen₀ (hn hlen₀) hstep

end Slots

section Results

omit [DecidableEq T] in
theorem refused_section {args : CallArgs} {sh sh' : ClientImpl D T} {pc pc' : CallPc T}
    {a : Label} {r : Reg T}
    {ec : BoostEc} (h : CallStep cfg args sh pc a sh' pc') (hpc : pc' = .returned (.refused r) ec) :
    ec = makeUcorfErrorCode .ecNoEstab := by
  cases h with
  | early he =>
    subst hpc
    cases he.group'
  | number => split at hpc <;> cases hpc
  | refuse =>
    cases hpc
    rfl
  | sendResult hr =>
    subst hpc
    cases hr
  | _ => cases hpc

/-- A call that a closed slot refused returns the error of the closed group. -/
theorem refused_code {d : D} {s : State D T} {acts : List (Action (Thread T) Label)}
    (h : run (program cfg D T).step (start d) acts = some s) :
    ∀ t ∈ s.threads, ∀ args r ec, t = .call args (.returned (.refused r) ec) →
      ec = makeUcorfErrorCode .ecNoEstab := by
  refine threads_invariant (by simp [start]) ?_ ?_ h
  · rintro t ht args r ec rfl
    cases ht
  · intro sh i t a sh' t' new hq hn
    obtain ⟨hs, rfl⟩ := next_section hn
    refine ⟨?_, by simp⟩
    rintro args r ec rfl
    obtain ⟨pc, rfl, hc⟩ := call_section hs
    exact refused_section hc rfl

/-- When `OnDisconnected` is done with a group, every call that holds the group is
refused or has been given a value, and no call registers in a closed slot any more. -/
theorem no_waiter_stranded (cfg : Config) (d : D) (acts : List (Action (Thread T) Label))
    (s : State D T)
    (h : run (program cfg D T).step (start d) acts = some s) (hlen : (draws acts).length ≤ 2 ^ 64) :
    (∀ (j : Nat) tp ec g, s.threads[j]? = some (.disc tp ec (.done (some g))) →
      ∀ i r, HasGroup s i r → r.grp = g → Refused s i r ∨ GivenValue s i r) ∧
    (∀ (i : Nat) args r a s', s.threads[i]? = some (.call args (.grouped r)) →
      Closed s.shared r.grp (slot r.msgId) → (program cfg D T).step s (.run i a) = some s' →
      s'.threads[i]? = some (.call args (.returned (.refused r) (makeUcorfErrorCode .ecNoEstab)))) ∧
    ∀ act s' i r, (program cfg D T).step s act = some s' → Closed s.shared r.grp (slot r.msgId) →
      Registered s' i r → Registered s i r ∧ ∃ rsp, Tried s.shared r.chan rsp := by
  refine ⟨?_, ?_, ?_⟩
  · intro j tp ec g hj i r hr hg
    have hclosed : Closed s.shared r.grp (slot r.msgId) := by
      rw [hg]
      exact (closing h).done j tp ec g _ hj
    obtain ⟨args, pc, ht, hpc⟩ := hr
    rcases CallPc.group_cases hpc with rfl | ⟨e, rfl⟩ | hreg
    · exact .inl ⟨hclosed, args, .inl ht⟩
    · obtain rfl := refused_code h _ (List.mem_of_getElem? ht) args r e rfl
      exact .inl ⟨hclosed, args, .inr ht⟩
    · obtain ⟨rsp, hrsp⟩ := slotsNotified h hlen i r ⟨args, pc, ht, hreg⟩ hclosed
      exact .inr ((valued h).given i r rsp ⟨args, pc, ht, hpc⟩ hrsp)
  · intro i args r a s' ht hclosed hstep
    rcases thread_next hstep ht with ⟨-, hne⟩ | ⟨b, t', ha, ht', hs⟩
    · exact absurd rfl (hne a)
    · cases hs with
      | call hc =>
        rw [register_closed hc hclosed] at ht'
        exact ht'
  · intro act s' i r hstep hclosed hr
    have hreg := registered_of_closed hstep hr hclosed
    exact ⟨hreg, slotsNotified h hlen i r hreg hclosed⟩

/-- `ec_no_estab` stands for the error of the broken connection. -/
def lost : BoostEc := makeUcorfErrorCode .ecNoEstab

def discLabels : List Label := [.del, .remove] ++ List.replicate 16 .close

/-- Thread `i` handles the disconnect of transport 0. -/
def discRun (i : Nat) : List (Action (Thread Nat) Label) :=
  .spawn (.disc 0 lost .entered) :: discLabels.map (.run i)

/-- The call of `waitingRun` waits while `n` one-way calls draw numbers. Then another
call waits and transport 0 is disconnected. -/
def overtakenRun (n : Nat) : List (Action (Thread Nat) Label) :=
  connectRun ++ (callRun 1 ++ (onewayCalls 2 n ++ (callRun (n + 2) ++ discRun (n + 3))))

/-- The client with a call under the key 1, about to give the same number again. -/
def wrapped : ClientImpl (RobinDispatcher Nat) Nat := { called connected (.init 0) with msgId := 0 }

/-- The client with two calls under the key 1, the later one in the map. -/
def overtaken : ClientImpl (RobinDispatcher Nat) Nat := called wrapped (joined connected (.init 0))

def closeSlot (sh : ClientImpl (RobinDispatcher Nat) Nat) (g : Nat) (grp : RspChanGroup Nat)
    (k : Fin 16) : ClientImpl (RobinDispatcher Nat) Nat :=
  { sh.setGroup g (grp.close k) with
    chans := pushAll (.ofEc lost) (RspChanMap.chans (grp.maps k)) sh.chans }

theorem solo_close (j g : Nat) (k : Fin 16) (sh : ClientImpl (RobinDispatcher Nat) Nat)
    (grp : RspChanGroup Nat)
    (hg : sh.groups[g]? = some grp) :
    (program sampleConfig (RobinDispatcher Nat) Nat).solo j
      (sh, .disc 0 lost (.closing g k)) .close =
      some (closeSlot sh g grp k,
        .disc 0 lost (if h : k.val + 1 < 16 then .closing g ⟨k.val + 1, h⟩
          else .done (some g))) := by
  simp [Program.solo, program, threadNext, discNext, hg, foldl_tryPush, closeSlot,
    ClientImpl.setGroup]

/-- A channel that is in no closed slot is left as it is. -/
theorem closeSlot_chans (sh : ClientImpl (RobinDispatcher Nat) Nat) (g : Nat)
    {grp : RspChanGroup Nat} {k : Fin 16}
    {ch : Nat} (hch : ch ∉ RspChanMap.chans (grp.maps k)) :
    (closeSlot sh g grp k).chans[ch]? = sh.chans[ch]? := by
  rw [closeSlot, getElem?_pushAll, List.count_eq_zero.mpr hch]
  simp

/-- The handler gets through the slots from `k` on, and touches no channel outside them. -/
theorem run_closing (j g m : Nat) (k : Fin 16) (hm : k.val + m = 15)
    (sh : ClientImpl (RobinDispatcher Nat) Nat)
    (grp : RspChanGroup Nat) (hg : sh.groups[g]? = some grp) :
    ∃ sh' : ClientImpl (RobinDispatcher Nat) Nat,
      run ((program sampleConfig (RobinDispatcher Nat) Nat).solo j)
        (sh, .disc 0 lost (.closing g k))
        (List.replicate (m + 1) .close) = some (sh', .disc 0 lost (.done (some g))) ∧
      ∀ ch : Nat, (∀ i, ch ∉ RspChanMap.chans (grp.maps i)) → sh'.chans[ch]? = sh.chans[ch]? := by
  induction m generalizing k sh grp with
  | zero =>
    refine ⟨closeSlot sh g grp k, ?_, fun ch hch => closeSlot_chans sh g (hch k)⟩
    rw [List.replicate_succ, run_cons, solo_close j g k sh grp hg, dif_neg (by omega)]
    rfl
  | succ m ih =>
    have hmore : k.val + 1 < 16 := by omega
    obtain ⟨hlt, -⟩ := List.getElem?_eq_some_iff.mp hg
    have hnext : (closeSlot sh g grp k).groups[g]? = some (grp.close k) :=
      List.getElem?_set_self hlt
    obtain ⟨sh', hrun, hkept⟩ := ih ⟨k.val + 1, hmore⟩ (by simp only; omega) _ _ hnext
    refine ⟨sh', ?_, fun ch hch => (hkept ch hch).trans (closeSlot_chans sh g (hch k))⟩
    rw [List.replicate_succ, run_cons, solo_close j g k sh grp hg, dif_pos hmore]
    exact hrun

/-- The handler of a disconnect runs from the group to its end. -/
theorem run_discRun (sh : ClientImpl (RobinDispatcher Nat) Nat) (threads : List (Thread Nat))
    (grp : RspChanGroup Nat)
    (hc : sh.channels 0 = some 0) (hg : sh.groups[0]? = some grp) :
    ∃ sh' : ClientImpl (RobinDispatcher Nat) Nat,
      run (program sampleConfig (RobinDispatcher Nat) Nat).step ⟨sh, threads⟩
        (discRun threads.length) =
        some ⟨sh', threads ++ [.disc 0 lost (.done (some 0))]⟩ ∧
      ∀ ch : Nat, (∀ i, ch ∉ RspChanMap.chans (grp.maps i)) → sh'.chans[ch]? = sh.chans[ch]? := by
  obtain ⟨sh', hrun, hkept⟩ := run_closing threads.length 0 15 0 rfl
    { sh.setChannel 0 none with dispatcher := IDispatcher.del sh.dispatcher 0 } grp hg
  refine ⟨sh', ?_, hkept⟩
  have hremove : run ((program sampleConfig (RobinDispatcher Nat) Nat).solo threads.length)
      (sh, .disc 0 lost .entered) [.del, .remove] =
      some ({ sh.setChannel 0 none with dispatcher := IDispatcher.del sh.dispatcher 0 },
        .disc 0 lost (.closing 0 0)) := by
    simp [Program.solo, program, threadNext, discNext, hc, ClientImpl.setChannel]
  exact run_spawned rfl (run_join hremove hrun)

/-- The threads before the second two-way call. -/
def idleThreads (n : Nat) : List (Thread Nat) :=
  [.conn 0 .done, .call twoway (.waiting ⟨0, 1, 0, 0⟩)] ++
    List.replicate n (.call oneway (.returned .early .ok))

theorem idleThreads_length (n : Nat) : (idleThreads n).length = n + 2 := by
  simp only [idleThreads, List.length_append, List.length_replicate, List.length_cons,
    List.length_nil]
  omega

/-- The numbers come round, and a second call takes the key of the first one. -/
theorem run_overtakenRun (n : Nat) (hn : (1 + n) % 2 ^ 64 = 0) :
    ∃ s : State (RobinDispatcher Nat) Nat,
    run (program sampleConfig (RobinDispatcher Nat) Nat).step (start .init)
      (overtakenRun n) = some s ∧
      s.threads[1]? = some (.call twoway (.waiting ⟨0, 1, 0, 0⟩)) ∧
      s.threads[n + 3]? = some (.disc 0 lost (.done (some 0))) ∧
    s.shared.chans[0]? = some .empty := by
  have hfirst := run_callRun connected [.conn 0 .done] (.init 0) rfl (by decide) rfl rfl rfl
  have hcalls := run_onewayCalls n (called connected (.init 0))
    [.conn 0 .done, .call twoway (.waiting ⟨0, 1, 0, 0⟩)] rfl (by decide) (by decide)
  rw [show (called connected (.init 0)).msgId = 1 from rfl, hn] at hcalls
  have hsecond :=
    run_callRun wrapped (idleThreads n) (joined connected (.init 0)) rfl (by decide) rfl rfl rfl
  rw [idleThreads_length] at hsecond
  obtain ⟨sh, hdisc, hkept⟩ :=
    run_discRun overtaken (idleThreads n ++ [.call twoway (.waiting ⟨0, 1, 0, 1⟩)])
    (joined wrapped (joined connected (.init 0))) rfl rfl
  have hlater : (idleThreads n ++ [Thread.call twoway (.waiting ⟨0, 1, 0, 1⟩)]).length = n + 3 := by
    rw [List.length_append, idleThreads_length]
    rfl
  rw [hlater] at hdisc
  have hrun := run_join run_connectRun (run_join hfirst (run_join hcalls (run_join hsecond hdisc)))
  refine ⟨_, hrun, ?_, ?_, ?_⟩
  · rw [List.getElem?_append_left (by omega)]
    rfl
  · rw [List.getElem?_append_right hlater.le, hlater, Nat.sub_self]
    rfl
  · exact (hkept 0 (by decide)).trans rfl

theorem no_waiter_stranded_waiting : ∃ s : State (RobinDispatcher Nat) Nat,
    run (program sampleConfig (RobinDispatcher Nat) Nat).step (start .init)
      (waitingRun ++ discRun 2) = some s ∧
      (Refused s 1 ⟨0, 1, 0, 0⟩ ∨ GivenValue s 1 ⟨0, 1, 0, 0⟩) := by
  have hcall := run_callRun connected [.conn 0 .done] (.init 0) rfl (by decide) rfl rfl rfl
  obtain ⟨sh, hdisc, -⟩ := run_discRun (called connected (.init 0))
    [.conn 0 .done, .call twoway (.waiting ⟨0, 1, 0, 0⟩)] (joined connected (.init 0)) rfl rfl
  have hrun := run_join (run_join run_connectRun hcall) hdisc
  exact ⟨_, hrun, (no_waiter_stranded sampleConfig RobinDispatcher.init _ _ hrun (by decide)).1
    2 0 lost 0 rfl 1 ⟨0, 1, 0, 0⟩
    ⟨twoway, _, rfl, rfl⟩ rfl⟩

/-- After 2^64 draws a call overwrites the entry of another one, which then waits for ever. -/
theorem waiter_stranded :
    ¬ ∀ (acts : List (Action (Thread Nat) Label)) (s : State (RobinDispatcher Nat) Nat),
      run (program sampleConfig (RobinDispatcher Nat) Nat).step (start .init) acts = some s →
      ∀ (j : Nat) tp ec g, s.threads[j]? = some (.disc tp ec (.done (some g))) →
        ∀ i r, HasGroup s i r → r.grp = g → Refused s i r ∨ GivenValue s i r := by
  intro hall
  obtain ⟨s, hs, hcall, hdisc, hchan⟩ := run_overtakenRun (2 ^ 64 - 1) (by decide)
  rcases hall _ s hs _ 0 lost 0 hdisc 1 ⟨0, 1, 0, 0⟩ ⟨twoway, _, hcall, rfl⟩ rfl with
    ⟨-, args, ht | ht⟩ | ⟨c, hc, hq⟩ | ⟨args, pc, rsp, ht, hpc⟩
  · rw [hcall] at ht
    cases ht
  · rw [hcall] at ht
    cases ht
  · rw [hchan] at hc
    cases hc
    exact hq rfl
  · rw [hcall] at ht
    cases ht
    cases hpc

end Results

end Ucorf.ClientDisconnect
