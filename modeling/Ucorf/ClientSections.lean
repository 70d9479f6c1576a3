import Ucorf.Client

/-!
# The sections of the client

What a section of each thread can do to the client, read off the model once, and
from it what a step can do to the channels, the groups, the response channels and
the calls. The invariants cite these and unfold no section.
-/
namespace Ucorf.ClientSections

open Ucorf.Message
open Ucorf.Dispatcher
open Ucorf.Threads
open Ucorf.Client

variable {D T : Type}

/-- Try to push one value on a list of channels. -/
def pushAll (rsp : ResponseData) (chs : List Nat) (l : List RspChan) : List RspChan :=
  chs.foldl (fun l ch => l.modify ch fun c => c.tryPush rsp) l

/-- A loop of pushes changes the channels only. -/
theorem foldl_tryPush (rsp : ResponseData) (chs : List Nat) (s : ClientImpl D T) :
    chs.foldl (fun s ch => s.tryPush rsp ch) s = { s with chans := pushAll rsp chs s.chans } := by
  induction chs generalizing s with
  | nil => rfl
  | cons ch chs ih =>
    rw [List.foldl_cons, ih]
    rfl

/-- Each channel is pushed to as often as it is listed. -/
theorem getElem?_pushAll (rsp : ResponseData) (chs : List Nat) (l : List RspChan) (ch : Nat) :
    (pushAll rsp chs l)[ch]? = l[ch]?.map (fun c => c.tryPush rsp)^[chs.count ch] := by
  induction chs generalizing l with
  | nil => simp [pushAll]
  | cons b chs ih =>
    have hcons : pushAll rsp (b :: chs) l = pushAll rsp chs (l.modify b fun c => c.tryPush rsp) :=
      rfl
    rw [hcons, ih, List.getElem?_modify, List.count_cons]
    by_cases hb : b = ch
    · simp [hb, Function.iterate_succ, Function.comp_def]
    · simp [hb]

theorem length_pushAll (rsp : ResponseData) (chs : List Nat) (l : List RspChan) :
    (pushAll rsp chs l).length = l.length := by
  induction chs generalizing l with
  | nil => rfl
  | cons b chs ih =>
    have hcons : pushAll rsp (b :: chs) l = pushAll rsp chs (l.modify b fun c => c.tryPush rsp) :=
      rfl
    rw [hcons, ih, List.length_modify]

/-- The queue keeps the first value. -/
theorem iterate_tryPush (rsp : ResponseData) (c : RspChan) (n : Nat) :
    (fun c : RspChan => c.tryPush rsp)^[n] c =
      ⟨if n = 0 then c.queue else c.queue.or (some rsp), List.replicate n rsp ++ c.tried⟩ := by
  induction n with
  | zero => rfl
  | succ n ih =>
    rw [Function.iterate_succ_apply', ih]
    by_cases hn : n = 0
    · subst hn
      rfl
    · simp [RspChan.tryPush, hn, List.replicate_succ]

/-- What a channel holds after the pushes was there before or is the pushed value. -/
theorem queue_pushed {rsp x : ResponseData} {chs : List Nat} {ch : Nat} {c : RspChan}
    (h : ((fun c : RspChan => c.tryPush rsp)^[chs.count ch] c).queue = some x) :
    c.queue = some x ∨ (x = rsp ∧ ch ∈ chs) := by
  simp only [iterate_tryPush] at h
  split at h
  · exact .inl h
  · rename_i hcount
    have hmem : ch ∈ chs := List.count_pos_iff.mp (Nat.pos_of_ne_zero hcount)
    rcases Option.or_eq_some_iff.mp h with hq | ⟨-, hx⟩
    · exact .inl hq
    · exact .inr ⟨(Option.some.inj hx).symm, hmem⟩

section Calls

variable [IDispatcher D T]

/-- The sections up to the group and the returns from them, the draw of a number apart. -/
structure Early (pc : CallPc T) (a : Label) (pc' : CallPc T) : Prop where
  group : pc.group = none
  isReturned : pc.isReturned = false
  label : a ≠ .number true ∧ a ≠ .register ∧ a ≠ .erase
  number' : pc'.number = none
  group' : pc'.group = none
  posted' : pc' ≠ .posted
  drawn : pc.drawn = true → pc'.drawn = true
  returned' : ∀ e ec, pc' = .returned e ec → pc = .posted ∨ ec.failed = true

/-- What a section of a call can do. The early ones touch the dispatcher only. -/
inductive CallStep (cfg : Config) (args : CallArgs) (s : ClientImpl D T) :
    CallPc T → Label → ClientImpl D T → CallPc T → Prop where
  | early {pc pc' : CallPc T} {a : Label} {d : D} : Early pc a pc' →
      (d = s.dispatcher ∨ ∃ service method request,
        d = (IDispatcher.get s.dispatcher service method request).2) →
      CallStep cfg args s pc a { s with dispatcher := d } pc'
  | number {tp : T} : CallStep cfg args s (.picked (some tp)) (.number true)
      { s with msgId := (s.msgId + 1) % 2 ^ 64 }
      (if args.response.isSome then .numbered tp ((s.msgId + 1) % 2 ^ 64) else .posted)
  | group {tp : T} {id g : Nat} : s.channels tp = some g →
      CallStep cfg args s (.numbered tp id) .findGroup { s with chans := s.chans ++ [.empty] }
        (.grouped ⟨tp, id, g, s.chans.length⟩)
  | refuse {r : Reg T} {grp : RspChanGroup T} : s.groups[r.grp]? = some grp →
      grp.closed (slot r.msgId) = true →
      CallStep cfg args s (.grouped r) .register s (.returned (.refused r)
        (makeUcorfErrorCode .ecNoEstab))
  | register {r : Reg T} {grp : RspChanGroup T} : s.groups[r.grp]? = some grp →
      grp.closed (slot r.msgId) = false →
      CallStep cfg args s (.grouped r) .register
        (s.setGroup r.grp (grp.setMap (slot r.msgId)
          ((grp.maps (slot r.msgId)).insert r.msgId r.chan)))
        (.registered r)
  | send {r : Reg T} : CallStep cfg args s (.registered r) .send s (.sent r)
  | grow {r : Reg T} :
      CallStep cfg args s (.sent r) .grow { s with wndSize := (s.wndSize + 1) % 2 ^ 64 }
      (.waiting r)
  | pop {r : Reg T} {c : RspChan} {rsp : ResponseData} :
      s.chans[r.chan]? = some c → c.queue = some rsp →
      CallStep cfg args s (.waiting r) .pop { s with chans := s.chans.set r.chan c.pop }
      (.popped r rsp)
  | timeout {r : Reg T} : cfg.opt.rcvTimeoutMs ≠ 0 →
      CallStep cfg args s (.waiting r) .timeout s (.returned (.timedOut r)
        (makeUcorfErrorCode .ecRcvTimeout))
  | shrink {r : Reg T} {rsp : ResponseData} :
      CallStep cfg args s (.popped r rsp) .shrink
        { s with wndSize := (s.wndSize + (2 ^ 64 - 1)) % 2 ^ 64 } (.shrunk r rsp)
  | erase {r : Reg T} {rsp : ResponseData} {grp : RspChanGroup T} : s.groups[r.grp]? = some grp →
      CallStep cfg args s (.shrunk r rsp) .erase
        (s.setGroup r.grp (grp.setMap (slot r.msgId) ((grp.maps (slot r.msgId)).erase r.msgId)))
        (.returned (.answered r rsp) (callResult (cfg.parse (args.response.getD 0)) rsp))
  | sendResult {pc : CallPc T} {r : Reg T} {ec : BoostEc} : pc.sentReg = some r →
      CallStep cfg args s pc (.sendResult ec)
      (if ec.failed then s.tryPush (.ofEc ec) r.chan else s) pc

theorem getLastD_failed {ecs : List BoostEc} (hne : ecs ≠ [])
    (hall : ecs.all BoostEc.failed = true) :
    (ecs.getLastD BoostEc.ok).failed = true := by
  rw [List.getLastD_eq_getLast?, List.getLast?_eq_some_getLast hne, Option.getD_some]
  exact List.all_eq_true.mp hall _ (List.getLast_mem hne)

/-- A section of `Call` is one of those of `CallStep`. -/
theorem callNext_step {cfg : Config} {args : CallArgs} {s s' : ClientImpl D T}
    {pc pc' : CallPc T} {a : Label}
    (h : callNext cfg args s pc a = some (s', pc')) : CallStep cfg args s pc a s' pc' := by
  unfold callNext at h
  split at h
  · split at h <;> cases h
    · exact .early ⟨rfl, rfl, by simp, rfl,
        rfl, by simp, by simp [CallPc.drawn], by rintro e ec ⟨⟩; right; rfl⟩
        (.inl rfl)
    · exact .early ⟨rfl, rfl, by simp, rfl,
        rfl, by simp, by simp [CallPc.drawn], by simp⟩ (.inl rfl)
  · split at h <;> cases h
    · rename_i hget
      exact .early ⟨rfl, rfl, by simp, rfl, rfl, by simp, by simp [CallPc.drawn], by simp⟩
        (.inr ⟨_, _, _, by rw [hget]⟩)
    · rename_i hget
      exact .early ⟨rfl, rfl, by simp, rfl, rfl, by simp, by simp [CallPc.drawn], by simp⟩
        (.inr ⟨_, _, _, by rw [hget]⟩)
  · rename_i ecs
    split at h
    · cases h
    · rename_i hlen
      split at h <;> cases h
      · rename_i hall
        have hne : ecs ≠ [] := by
          rintro rfl
          exact hlen (by simpa using cfg.findersPos.ne)
        exact .early ⟨rfl, rfl, by simp, rfl, rfl, by simp, by simp [CallPc.drawn],
          by rintro e ec ⟨⟩; exact .inr (getLastD_failed hne hall)⟩ (.inl rfl)
      · exact .early ⟨rfl, rfl, by simp, rfl,
          rfl, by simp, by simp [CallPc.drawn], by simp⟩ (.inl rfl)
  · cases h
    exact .early ⟨rfl, rfl, by simp, rfl, rfl, by simp, by simp [CallPc.drawn], by simp⟩
      (.inr ⟨_, _, _, rfl⟩)
  · cases h
    exact .number
  · cases h
    exact .early ⟨rfl, rfl, by simp, rfl,
      rfl, by simp, by simp [CallPc.drawn], by rintro e ec ⟨⟩; right; rfl⟩
      (.inl rfl)
  · cases h
    exact .early ⟨rfl, rfl, by simp, rfl, rfl, by simp, by simp [CallPc.drawn], by simp⟩ (.inl rfl)
  · split at h <;> cases h
    · exact .early ⟨rfl, rfl, by simp, rfl,
        rfl, by simp, by simp [CallPc.drawn], by rintro e ec ⟨⟩; right; rfl⟩
        (.inl rfl)
    · exact .group (by assumption)
  · split at h
    · cases h
    · split at h <;> cases h
      · exact .refuse (by assumption) (by assumption)
      · exact .register (by assumption) (Bool.eq_false_iff.mpr (by assumption))
  · cases h
    exact .send
  · cases h
    exact .grow
  · split at h
    · cases h
    · split at h <;> cases h
      exact .pop (by assumption) (by assumption)
  · split at h
    · cases h
    · split at h <;> cases h
      exact .timeout (And.left ‹_ ∧ _›)
  · cases h
    exact .shrink
  · split at h <;> cases h
    exact .erase (by assumption)
  · split at h <;> cases h
    exact .sendResult (by assumption)
  · cases h

variable {cfg : Config} {args : CallArgs} {s s' : ClientImpl D T}
    {pc pc' : CallPc T} {r : Reg T} {a : Label}

/-- A call gets its group in one section. -/
theorem group_back (h : CallStep cfg args s pc a s' pc') (hr : pc'.group = some r) :
    pc.group = some r ∨ (pc = .numbered r.tp r.msgId ∧ pc' = .grouped r ∧ a = .findGroup ∧
      s.channels r.tp = some r.grp ∧ r.chan = s.chans.length ∧ s'.chans = s.chans ++ [.empty]) := by
  cases h with
  | group hg =>
    cases hr
    exact .inr ⟨rfl, rfl, rfl, hg, rfl, rfl⟩
  | number => split at hr <;> cases hr
  | early he => simp [he.group'] at hr
  | _ => simp_all [CallPc.group]

/-- A registered call keeps what it registered. -/
theorem registration_kept (h : CallStep cfg args s pc a s' pc') (hr : pc.registration = some r) :
    pc'.registration = some r := by
  cases h with
  | early he => exact absurd (he.group.symm.trans (CallPc.group_of_registration hr)) (by simp)
  | _ => simp_all [CallPc.registration]

/-- A call is registered by one section. -/
theorem registration_back (h : CallStep cfg args s pc a s' pc') (hr : pc'.registration = some r) :
    pc.registration = some r ∨ (pc = .grouped r ∧ pc' = .registered r ∧ a = .register) := by
  cases h with
  | early he => exact absurd (he.group'.symm.trans (CallPc.group_of_registration hr)) (by simp)
  | number => split at hr <;> cases hr
  | _ => simp_all [CallPc.registration]

/-- A call gives its registration up at its receive timeout or when it erases its key. -/
theorem live_kept (h : CallStep cfg args s pc a s' pc') (hr : pc.live = some r) :
    pc'.live = some r ∨ a = .timeout ∨ (a = .erase ∧ ∃ rsp, pc = .shrunk r rsp) := by
  cases h with
  | early he =>
    have hgroup := CallPc.group_of_registration (CallPc.registration_of_live hr)
    exact absurd (he.group.symm.trans hgroup) (by simp)
  | timeout => exact .inr (.inl rfl)
  | erase =>
    cases hr
    exact .inr (.inr ⟨rfl, _, rfl⟩)
  | _ => simp_all [CallPc.live]

theorem answer_kept {rsp : ResponseData} (h : CallStep cfg args s pc a s' pc')
    (hr : pc.answer = some (r, rsp)) :
    pc'.answer = some (r, rsp) := by
  cases h with
  | early he =>
    have hgroup := CallPc.group_of_registration (CallPc.registration_of_answer hr)
    exact absurd (he.group.symm.trans hgroup) (by simp)
  | _ => simp_all [CallPc.answer]

/-- A call takes its value off its own channel. -/
theorem answer_back {rsp : ResponseData} (h : CallStep cfg args s pc a s' pc')
    (hr : pc'.answer = some (r, rsp)) :
    pc.answer = some (r, rsp) ∨ ∃ c, pc = .waiting r ∧ s.chans[r.chan]? = some c ∧
    c.queue = some rsp := by
  cases h with
  | early he =>
    have hgroup := CallPc.group_of_registration (CallPc.registration_of_answer hr)
    exact absurd (he.group'.symm.trans hgroup) (by simp)
  | number => split at hr <;> cases hr
  | pop hc hq =>
    cases hr
    exact .inr ⟨_, rfl, hc, hq⟩
  | _ => simp_all [CallPc.answer]

theorem unerased_back (h : CallStep cfg args s pc a s' pc') (hr : pc'.unerased = some r) :
    pc.unerased = some r ∨ (pc = .grouped r ∧ pc' = .registered r ∧ a = .register) := by
  cases h with
  | early he =>
    have hgroup := CallPc.group_of_registration (CallPc.registration_of_unerased hr)
    exact absurd (he.group'.symm.trans hgroup) (by simp)
  | number => split at hr <;> cases hr
  | _ => simp_all [CallPc.unerased, CallPc.live]

/-- A number is the counter after its draw. -/
theorem number_back {id : Nat} (h : CallStep cfg args s pc a s' pc') (hr : pc'.number = some id) :
    pc.number = some id ∨ (a = .number true ∧ id = s'.msgId) := by
  cases h with
  | early he => exact absurd (he.number'.symm.trans hr) (by simp)
  | number =>
    right
    split at hr <;> cases hr
    exact ⟨rfl, rfl⟩
  | group hg => exact .inl hr
  | _ => simp_all [CallPc.number]

theorem drawn_kept (h : CallStep cfg args s pc a s' pc') (hd : pc.drawn = true) :
    pc'.drawn = true := by
  cases h with
  | early he => exact he.drawn hd
  | number => cases hd
  | sendResult => exact hd
  | _ => rfl

theorem decided_kept (h : CallStep cfg args s pc a s' pc') (hd : pc.decided = true) :
    pc'.decided = true := by
  unfold CallPc.decided at hd ⊢
  rcases (Bool.or_eq_true _ _).mp hd with hret | hreg
  · cases h with
    | early he => simp [he.isReturned] at hret
    | sendResult => exact hd
    | _ => cases hret
  · obtain ⟨r, hr⟩ := Option.isSome_iff_exists.mp hreg
    simp [registration_kept h hr]

/-- Registering comes after the group was found. -/
theorem register_source (h : CallStep cfg args s pc .register s' pc') : ∃ r, pc = .grouped r := by
  cases h with
  | early he => exact absurd rfl he.label.2.1
  | refuse => exact ⟨_, rfl⟩
  | register => exact ⟨_, rfl⟩

/-- Erasing comes last, and the key is gone then. -/
theorem erase_source (h : CallStep cfg args s pc .erase s' pc') :
    ∃ r rsp, pc = .shrunk r rsp ∧ pc'.unerased = none := by
  cases h with
  | early he => exact absurd rfl he.label.2.2
  | erase => exact ⟨_, _, rfl, rfl⟩

theorem register_section (h : CallStep cfg args s pc .register s' pc') : pc'.decided = true := by
  cases h with
  | early he => exact absurd rfl he.label.2.1
  | _ => rfl

/-- A draw moves the counter on, modulo 2^64. -/
theorem number_section (h : CallStep cfg args s pc (.number true) s' pc') :
    pc.drawn = false ∧ pc'.drawn = true ∧ s'.msgId = (s.msgId + 1) % 2 ^ 64 := by
  cases h with
  | early he => exact absurd rfl he.label.1
  | number => exact ⟨rfl, by split <;> rfl, rfl⟩

end Calls

section Sections

variable [DecidableEq T] [IDispatcher D T]

/-- What a section of any thread can do. -/
inductive Section (cfg : Config) (s : ClientImpl D T) (self : Nat) :
    Thread T → Label → ClientImpl D T → Thread T → Prop where
  | call {args : CallArgs} {pc pc' : CallPc T} {a : Label} {s' : ClientImpl D T} :
      CallStep cfg args s pc a s' pc' → Section cfg s self (.call args pc) a s' (.call args pc')
  | add {tp : T} : Section cfg s self (.conn tp .entered) .add
      { s with dispatcher := IDispatcher.add s.dispatcher tp } (.conn tp .added)
  | install {tp : T} : Section cfg s self (.conn tp .added) .install
      { s.setChannel tp (some s.groups.length) with groups := s.groups ++ [.init tp] }
      (.conn tp .done)
  | del {tp : T} {ec : BoostEc} : Section cfg s self (.disc tp ec .entered) .del
      { s with dispatcher := IDispatcher.del s.dispatcher tp } (.disc tp ec .deleted)
  | absent {tp : T} {ec : BoostEc} : s.channels tp = none →
      Section cfg s self (.disc tp ec .deleted) .remove s (.disc tp ec (.done none))
  | remove {tp : T} {ec : BoostEc} {g : Nat} : s.channels tp = some g →
      Section cfg s self (.disc tp ec .deleted) .remove (s.setChannel tp none)
      (.disc tp ec (.closing g 0))
  | close {tp : T} {ec : BoostEc} {g : Nat} {i : Fin 16} {grp : RspChanGroup T} {pc : DiscPc} :
      s.groups[g]? = some grp →
      (pc = .closing g (i + 1) ∧ i.val + 1 < 16 ∨ pc = .done (some g) ∧ i.val = 15) →
      Section cfg s self (.disc tp ec (.closing g i)) .close
        ((RspChanMap.chans (grp.maps i)).foldl (fun s ch => s.tryPush (.ofEc ec) ch)
          (s.setGroup g (grp.close i)))
        (.disc tp ec pc)
  | discard {f : Frame T} {pc : FramePc} {a : Label} :
      (pc = .received ∧ a = .lookup) ∨ (∃ g, pc = .found g ∧ a = .search) →
      Section cfg s self (.frame f pc) a s (.frame f .discarded)
  | lookup {f : Frame T} {g : Nat} : s.channels f.tp = some g →
      Section cfg s self (.frame f .received) .lookup s (.frame f (.found g))
  | search {f : Frame T} {g ch : Nat} {grp : RspChanGroup T} : s.groups[g]? = some grp →
      (grp.maps (slot f.id))[f.id]? = some ch →
      Section cfg s self (.frame f (.found g)) .search s (.frame f (.delivering ch))
  | push {f : Frame T} {ch : Nat} : Section cfg s self (.frame f (.delivering ch)) .push
      (s.tryPush ⟨.ok, some self, f.data⟩ ch) (.frame f (.delivered ch))

theorem discNext_section {cfg : Config} {self : Nat} {tp : T} {ec : BoostEc} {s s' : ClientImpl D T}
    {pc pc' : DiscPc} {a : Label} (h : discNext tp ec s pc a = some (s', pc')) :
    Section cfg s self (.disc tp ec pc) a s' (.disc tp ec pc') := by
  unfold discNext at h
  split at h
  · cases h
    exact .del
  · split at h <;> cases h
    · exact .absent (by assumption)
    · exact .remove (by assumption)
  · rename_i g i
    split at h
    · cases h
    · split at h <;> cases h
      · rename_i grp hg hi
        have hnext : i + 1 = ⟨i.val + 1, hi⟩ := by
          apply Fin.ext
          rw [Fin.val_add]
          exact Nat.mod_eq_of_lt hi
        exact .close hg (.inl ⟨by rw [hnext], hi⟩)
      · exact .close (by assumption) (.inr ⟨rfl, by omega⟩)
  · cases h

theorem frameNext_section {cfg : Config} {self : Nat} {f : Frame T} {s s' : ClientImpl D T}
    {pc pc' : FramePc} {a : Label} (h : frameNext self f s pc a = some (s', pc')) :
    Section cfg s self (.frame f pc) a s' (.frame f pc') := by
  unfold frameNext at h
  split at h
  · split at h <;> cases h
    · exact .discard (.inl ⟨rfl, rfl⟩)
    · exact .lookup (by assumption)
  · split at h
    · cases h
    · split at h <;> cases h
      · exact .discard (.inr ⟨_, rfl, rfl⟩)
      · exact .search (by assumption) (by assumption)
  · cases h
    exact .push
  · cases h

theorem threadNext_section {cfg : Config} {self : Nat} {s s' : ClientImpl D T} {t t' : Thread T}
    {new : List (Thread T)} {a : Label} (h : threadNext cfg s self t a = some (s', t', new)) :
    Section cfg s self t a s' t' ∧ new = [] := by
  cases t with
  | call args pc =>
    obtain ⟨⟨sh, pc'⟩, hr, he⟩ := Option.map_eq_some_iff.mp h
    cases he
    exact ⟨.call (callNext_step hr), rfl⟩
  | conn tp pc =>
    obtain ⟨⟨sh, pc'⟩, hr, he⟩ := Option.map_eq_some_iff.mp h
    cases he
    refine ⟨?_, rfl⟩
    unfold connNext at hr
    split at hr <;> cases hr
    · exact .add
    · exact .install
  | disc tp ec pc =>
    obtain ⟨⟨sh, pc'⟩, hr, he⟩ := Option.map_eq_some_iff.mp h
    cases he
    exact ⟨discNext_section hr, rfl⟩
  | frame f pc =>
    obtain ⟨⟨sh, pc'⟩, hr, he⟩ := Option.map_eq_some_iff.mp h
    cases he
    exact ⟨frameNext_section hr, rfl⟩

/-- No section starts another thread. -/
theorem next_section {cfg : Config} {self : Nat} {s s' : ClientImpl D T} {t t' : Thread T}
    {new : List (Thread T)} {a : Label}
    (h : (program cfg D T).next s self t a = some (s', t', new)) :
    Section cfg s self t a s' t' ∧ new = [] :=
  threadNext_section h

/-- A call section, seen from the call it leaves behind. -/
theorem call_section {cfg : Config} {self : Nat} {s s' : ClientImpl D T} {t : Thread T} {a : Label}
    {args : CallArgs} {pc' : CallPc T} (h : Section cfg s self t a s' (.call args pc')) :
    ∃ pc, t = .call args pc ∧ CallStep cfg args s pc a s' pc' := by
  cases h with
  | call hc => exact ⟨_, rfl, hc⟩

omit [DecidableEq T] in
theorem start_call {args : CallArgs} {pc : CallPc T} (h : isStart (.call args pc) = true) :
    pc = .entered := by
  cases pc <;> simp [isStart] at h ⊢

/-- How a frame comes to where it is. -/
theorem frame_section {cfg : Config} {self : Nat} {s s' : ClientImpl D T} {t : Thread T} {a : Label}
    {f : Frame T} {pc' : FramePc} (h : Section cfg s self t a s' (.frame f pc')) :
    pc' = .discarded ∨
      (∃ g, t = .frame f .received ∧ a = .lookup ∧ s.channels f.tp = some g ∧ pc' = .found g) ∨
      (∃ g grp ch, t = .frame f (.found g) ∧ a = .search ∧ s.groups[g]? = some grp ∧
        (grp.maps (slot f.id))[f.id]? = some ch ∧ pc' = .delivering ch) ∨
      ∃ ch, t = .frame f (.delivering ch) ∧ a = .push ∧ pc' = .delivered ch := by
  cases h with
  | discard => exact .inl rfl
  | lookup hg => exact .inr (.inl ⟨_, rfl, rfl, hg, rfl⟩)
  | search hg hch => exact .inr (.inr (.inl ⟨_, _, _, rfl, rfl, hg, hch, rfl⟩))
  | push => exact .inr (.inr (.inr ⟨_, rfl, rfl, rfl⟩))

/-- A frame that was delivered is done. -/
theorem delivered_section {cfg : Config} {self : Nat} {s s' : ClientImpl D T}
    {t' : Thread T} {a : Label}
    {f : Frame T} {ch : Nat} : ¬ Section cfg s self (.frame f (.delivered ch)) a s' t' := by
  intro h
  cases h with
  | discard hpc => rcases hpc with ⟨hpc, -⟩ | ⟨g, hpc, -⟩ <;> cases hpc

/-- How the handler of a disconnect comes to where it is. -/
theorem disc_section {cfg : Config} {self : Nat} {s s' : ClientImpl D T} {t : Thread T} {a : Label}
    {tp : T} {ec : BoostEc} {pc' : DiscPc} (h : Section cfg s self t a s' (.disc tp ec pc')) :
    (t = .disc tp ec .entered ∧ a = .del ∧ pc' = .deleted) ∨
      (t = .disc tp ec .deleted ∧ a = .remove ∧ s.channels tp = none ∧ s' = s ∧ pc' = .done none) ∨
      (∃ g, t = .disc tp ec .deleted ∧ a = .remove ∧ s.channels tp = some g ∧
        s' = s.setChannel tp none ∧ pc' = .closing g 0) ∨
      ∃ g i grp, t = .disc tp ec (.closing g i) ∧ a = .close ∧ s.groups[g]? = some grp ∧
        s' = (RspChanMap.chans (grp.maps i)).foldl (fun s ch => s.tryPush (.ofEc ec) ch)
          (s.setGroup g (grp.close i)) ∧
        (pc' = .closing g (i + 1) ∧ i.val + 1 < 16 ∨ pc' = .done (some g) ∧ i.val = 15) := by
  cases h with
  | del => exact .inl ⟨rfl, rfl, rfl⟩
  | absent hc => exact .inr (.inl ⟨rfl, rfl, hc, rfl, rfl⟩)
  | remove hc => exact .inr (.inr (.inl ⟨_, rfl, rfl, hc, rfl, rfl⟩))
  | close hg hpc => exact .inr (.inr (.inr ⟨_, _, _, rfl, rfl, hg, rfl, hpc⟩))

/-- A step starts a thread or lets one execute a section. -/
theorem step_cases {cfg : Config} {s s' : System (ClientImpl D T) (Thread T)}
    {act : Action (Thread T) Label}
    (h : (program cfg D T).step s act = some s') :
    (∃ t, act = .spawn t ∧ isStart t = true ∧ s' = ⟨s.shared, s.threads ++ [t]⟩) ∨
      ∃ i a t t', act = .run i a ∧ s.threads[i]? = some t ∧
    Section cfg s.shared i t a s'.shared t' ∧
        s'.threads = s.threads.set i t' := by
  cases act with
  | spawn t =>
    obtain ⟨ht, rfl⟩ := step_spawn h
    exact .inl ⟨t, rfl, ht, rfl⟩
  | run i a =>
    obtain ⟨t, shared, t', new, ht, hn, rfl⟩ := step_run h
    obtain ⟨hs, rfl⟩ := threadNext_section hn
    exact .inr ⟨i, a, t, t', rfl, ht, hs, by simp⟩

variable {cfg : Config} {s s' : ClientImpl D T} {self : Nat} {t t' : Thread T} {a : Label}

/-- The channels change when a group is installed or removed. -/
theorem channels_section (h : Section cfg s self t a s' t') :
    s'.channels = s.channels ∨
      (∃ tp, t = .conn tp .added ∧ a = .install ∧ t' = .conn tp .done ∧
        s'.groups = s.groups ++ [.init tp] ∧
        s'.channels = (s.setChannel tp (some s.groups.length)).channels) ∨
      ∃ tp ec g, t = .disc tp ec .deleted ∧ a = .remove ∧ s.channels tp = some g ∧
        t' = .disc tp ec (.closing g 0) ∧ s'.channels = (s.setChannel tp none).channels := by
  cases h with
  | call hc =>
    left
    cases hc with
    | sendResult => split <;> rfl
    | _ => rfl
  | install => exact .inr (.inl ⟨_, rfl, rfl, rfl, rfl, rfl⟩)
  | remove hg => exact .inr (.inr ⟨_, _, _, rfl, rfl, hg, rfl, rfl⟩)
  | close => exact .inl (by rw [foldl_tryPush]; rfl)
  | _ => exact .inl rfl

/-- A section that changes one group. -/
inductive GroupChange (g : Nat) (grp : RspChanGroup T) :
    Thread T → Label → Thread T → RspChanGroup T → Prop where
  | register {args : CallArgs} {r : Reg T} : r.grp = g → grp.closed (slot r.msgId) = false →
      GroupChange g grp (.call args (.grouped r)) .register (.call args (.registered r))
        (grp.setMap (slot r.msgId) ((grp.maps (slot r.msgId)).insert r.msgId r.chan))
  | erase {args : CallArgs} {r : Reg T} {rsp : ResponseData} {ec : BoostEc} : r.grp = g →
      GroupChange g grp (.call args (.shrunk r rsp)) .erase
        (.call args (.returned (.answered r rsp) ec))
        (grp.setMap (slot r.msgId) ((grp.maps (slot r.msgId)).erase r.msgId))
  | close {tp : T} {ec : BoostEc} {i : Fin 16} {pc : DiscPc} :
      GroupChange g grp (.disc tp ec (.closing g i)) .close (.disc tp ec pc) (grp.close i)

/-- Groups are made by `OnConnected` and changed one at a time. -/
theorem groups_section (h : Section cfg s self t a s' t') :
    s'.groups = s.groups ∨
      (∃ tp, t = .conn tp .added ∧ a = .install ∧ s'.groups = s.groups ++ [.init tp]) ∨
      ∃ g grp grp', s.groups[g]? = some grp ∧ s'.groups = s.groups.set g grp' ∧
    GroupChange g grp t a t' grp' := by
  cases h with
  | call hc =>
    cases hc with
    | register hg hclosed => exact .inr (.inr ⟨_, _, _, hg, rfl, .register rfl hclosed⟩)
    | erase hg => exact .inr (.inr ⟨_, _, _, hg, rfl, .erase rfl⟩)
    | sendResult => left; split <;> rfl
    | _ => exact .inl rfl
  | install => exact .inr (.inl ⟨_, rfl, rfl, rfl⟩)
  | close hg => exact .inr (.inr ⟨_, _, _, hg, by rw [foldl_tryPush]; rfl, .close⟩)
  | _ => exact .inl rfl

/-- A section that tries to push one value on some channels. -/
inductive PushChange (s : ClientImpl D T) (self : Nat) :
    Thread T → Label → Thread T → ResponseData → List Nat → Prop where
  | sendResult {args : CallArgs} {pc : CallPc T} {r : Reg T} {ec : BoostEc} : pc.sentReg = some r →
      ec.failed = true → PushChange s self (.call args pc) (.sendResult ec)
      (.call args pc) (.ofEc ec) [r.chan]
  | close {tp : T} {ec : BoostEc} {g : Nat} {i : Fin 16} {grp : RspChanGroup T} {pc : DiscPc} :
      s.groups[g]? = some grp →
      PushChange s self (.disc tp ec (.closing g i)) .close (.disc tp ec pc)
        (.ofEc ec) (RspChanMap.chans (grp.maps i))
  | push {f : Frame T} {ch : Nat} : PushChange s self (.frame f (.delivering ch)) .push
      (.frame f (.delivered ch)) ⟨.ok, some self, f.data⟩ [ch]

/-- Channels are made by calls, popped by calls and pushed to. -/
theorem chans_section (h : Section cfg s self t a s' t') :
    s'.chans = s.chans ∨
      (∃ args tp id g, t = .call args (.numbered tp id) ∧ a = .findGroup ∧
        t' = .call args (.grouped ⟨tp, id, g, s.chans.length⟩) ∧ s'.chans = s.chans ++ [.empty]) ∨
      (∃ args r c rsp, t = .call args (.waiting r) ∧ a = .pop ∧ t' = .call args (.popped r rsp) ∧
        s.chans[r.chan]? = some c ∧ c.queue = some rsp ∧ s'.chans = s.chans.set r.chan c.pop) ∨
      ∃ rsp chs, s'.chans = pushAll rsp chs s.chans ∧ PushChange s self t a t' rsp chs := by
  cases h with
  | call hc =>
    cases hc with
    | group => exact .inr (.inl ⟨_, _, _, _, rfl, rfl, rfl, rfl⟩)
    | pop hch hq => exact .inr (.inr (.inl ⟨_, _, _, _, rfl, rfl, rfl, hch, hq, rfl⟩))
    | sendResult hr =>
      split
      · exact .inr (.inr (.inr ⟨_, _, rfl, .sendResult hr (by assumption)⟩))
      · exact .inl rfl
    | _ => exact .inl rfl
  | close hg => exact .inr (.inr (.inr ⟨_, _, by rw [foldl_tryPush]; rfl, .close hg⟩))
  | push => exact .inr (.inr (.inr ⟨_, _, rfl, .push⟩))
  | _ => exact .inl rfl

/-- What a section does to one channel. -/
theorem chan_section (h : Section cfg s self t a s' t') {ch : Nat} {c : RspChan}
    (hc : s.chans[ch]? = some c) :
    s'.chans[ch]? = some c ∨
      (∃ args r rsp, t = .call args (.waiting r) ∧ t' = .call args (.popped r rsp) ∧ r.chan = ch ∧
        c.queue = some rsp ∧ s'.chans[ch]? = some c.pop) ∨
      ∃ rsp chs, PushChange s self t a t' rsp chs ∧
        s'.chans[ch]? = some ((fun c : RspChan => c.tryPush rsp)^[chs.count ch] c) := by
  obtain ⟨hlt, -⟩ := List.getElem?_eq_some_iff.mp hc
  rcases chans_section h with hsame | ⟨_, _, _, _, -, -, -, hnew⟩ |
    ⟨args, r, c', rsp, ht, -, ht', hc', hq, hset⟩ |
    ⟨rsp, chs, hpush, hchange⟩
  · exact .inl (by rw [hsame, hc])
  · exact .inl (by rw [hnew, List.getElem?_append_left hlt, hc])
  · by_cases hch : r.chan = ch
    · subst hch
      obtain rfl : c = c' := Option.some.inj (hc.symm.trans hc')
      exact .inr (.inl ⟨args, r, rsp, ht, ht', rfl, hq, by rw [hset, List.getElem?_set_self hlt]⟩)
    · exact .inl (by rw [hset, List.getElem?_set_ne hch, hc])
  · exact .inr (.inr ⟨rsp, chs, hchange, by rw [hpush, getElem?_pushAll, hc]; rfl⟩)

/-- A channel of the next state is fresh and empty or comes from an old one. -/
theorem chan_section_back (h : Section cfg s self t a s' t') {ch : Nat} {c' : RspChan}
    (hc' : s'.chans[ch]? = some c') :
    c' = .empty ∨ ∃ c, s.chans[ch]? = some c ∧ (c' = c ∨ c' = c.pop ∨
      ∃ rsp chs, PushChange s self t a t' rsp chs ∧
    c' = (fun c : RspChan => c.tryPush rsp)^[chs.count ch] c) := by
  rcases hc : s.chans[ch]? with _ | c
  · left
    have hle : s.chans.length ≤ ch := List.getElem?_eq_none_iff.mp hc
    rcases chans_section h with hsame | ⟨_, _, _, _, -, -, -, hnew⟩ |
      ⟨_, _, _, _, -, -, -, -, -, hset⟩ |
      ⟨rsp, chs, hpush, -⟩
    · rw [hsame, hc] at hc'
      cases hc'
    · rw [hnew, List.getElem?_append_right hle] at hc'
      exact List.mem_singleton.mp (List.mem_of_getElem? hc')
    · rw [hset, List.getElem?_eq_none (by simpa using hle)] at hc'
      cases hc'
    · rw [hpush, getElem?_pushAll, hc] at hc'
      cases hc'
  · refine .inr ⟨c, rfl, ?_⟩
    rcases chan_section h hc with hsame | ⟨_, _, _, -, -, -, -, hpop⟩ | ⟨rsp, chs, hchange, hpush⟩
    · exact .inl (Option.some.inj (hc'.symm.trans hsame))
    · exact .inr (.inl (Option.some.inj (hc'.symm.trans hpop)))
    · exact .inr (.inr ⟨rsp, chs, hchange, Option.some.inj (hc'.symm.trans hpush)⟩)

/-- The counter moves when a call takes a number. -/
theorem msgId_section (h : Section cfg s self t a s' t') :
    (a ≠ .number true ∧ s'.msgId = s.msgId) ∨
      ∃ args pc pc', t = .call args pc ∧ t' = .call args pc' ∧ a = .number true ∧
        CallStep cfg args s pc (.number true) s' pc' := by
  cases h with
  | call hc =>
    cases hc with
    | early he => exact .inl ⟨he.label.1, rfl⟩
    | number => exact .inr ⟨_, _, _, rfl, rfl, rfl, .number⟩
    | sendResult => exact .inl ⟨by simp, by split <;> rfl⟩
    | _ => exact .inl ⟨by simp, rfl⟩
  | close => exact .inl ⟨by simp, by rw [foldl_tryPush]; rfl⟩
  | discard hpc =>
    left
    rcases hpc with ⟨-, rfl⟩ | ⟨g, -, rfl⟩ <;> exact ⟨by simp, rfl⟩
  | _ => exact .inl ⟨by simp, rfl⟩

variable {g : Nat} {grp grp' : RspChanGroup T}

/-- A group stays where it is and changes by one kind of section at a time. -/
theorem group_section (h : Section cfg s self t a s' t') (hg : s.groups[g]? = some grp) :
    ∃ grp', s'.groups[g]? = some grp' ∧ (grp' = grp ∨ GroupChange g grp t a t' grp') := by
  obtain ⟨hlt, -⟩ := List.getElem?_eq_some_iff.mp hg
  rcases groups_section h with hsame | ⟨tp, -, -, hnew⟩ | ⟨k, old, new, hk, hset, hchange⟩
  · exact ⟨grp, by rw [hsame, hg], .inl rfl⟩
  · exact ⟨grp, by rw [hnew, List.getElem?_append_left hlt, hg], .inl rfl⟩
  · by_cases hkg : k = g
    · subst hkg
      obtain rfl : grp = old := Option.some.inj (hg.symm.trans hk)
      exact ⟨new, by rw [hset, List.getElem?_set_self hlt], .inr hchange⟩
    · exact ⟨grp, by rw [hset, List.getElem?_set_ne hkg, hg], .inl rfl⟩

/-- Where the state of a group comes from. -/
theorem group_section_back (h : Section cfg s self t a s' t') (hg : s'.groups[g]? = some grp') :
    (∃ grp, s.groups[g]? = some grp ∧ (grp' = grp ∨ GroupChange g grp t a t' grp')) ∨
      ∃ tp, t = .conn tp .added ∧ a = .install ∧ g = s.groups.length ∧ grp' = .init tp := by
  rcases hold : s.groups[g]? with _ | grp
  · right
    have hle : s.groups.length ≤ g := List.getElem?_eq_none_iff.mp hold
    rcases groups_section h with hsame | ⟨tp, ht, ha, hnew⟩ | ⟨k, old, new, hk, hset, -⟩
    · rw [hsame, hold] at hg
      cases hg
    · rw [hnew, List.getElem?_append_right hle, List.getElem?_singleton] at hg
      split at hg
      · cases hg
        exact ⟨tp, ht, ha, by omega, rfl⟩
      · cases hg
    · rw [hset, List.getElem?_eq_none (by simpa using hle)] at hg
      cases hg
  · left
    obtain ⟨grp'', hg'', hc⟩ := group_section h hold
    obtain rfl : grp' = grp'' := Option.some.inj (hg.symm.trans hg'')
    exact ⟨grp, rfl, hc⟩

omit [DecidableEq T] in
/-- A group stays that of its transport. -/
theorem GroupChange.tp_eq (h : GroupChange g grp t a t' grp') : grp'.tp = grp.tp := by
  cases h <;> rfl

end Sections

end Ucorf.ClientSections
