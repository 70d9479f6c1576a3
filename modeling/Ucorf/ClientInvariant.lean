import Ucorf.ClientSections

/-!
# Groups, channels and registrations

How the maps of the client name calls in every reachable state: the group that
`channels_` holds for a transport was made for it, a call keeps the group and the
channel it obtained, no two calls share a channel, and every entry of a map is the
registration of a call.
-/
namespace Ucorf.ClientInvariant

open Ucorf.Message
open Ucorf.Dispatcher
open Ucorf.Threads
open Ucorf.Client
open Ucorf.ClientSections

abbrev State (D T : Type) := System (ClientImpl D T) (Thread T)

section Predicates

variable {D T : Type}

/-- Group `g` was made for `tp`. -/
def Owned (s : ClientImpl D T) (g : Nat) (tp : T) : Prop :=
  ∃ grp, s.groups[g]? = some grp ∧ grp.tp = tp

/-- Group `g` holds channel `ch` under the key `id`. -/
def Entry (s : ClientImpl D T) (g id ch : Nat) : Prop :=
  ∃ grp, s.groups[g]? = some grp ∧ (grp.maps (slot id))[id]? = some ch

def Closed (s : ClientImpl D T) (g : Nat) (k : Fin 16) : Prop :=
  ∃ grp, s.groups[g]? = some grp ∧ grp.closed k = true

def HasGroup (s : State D T) (i : Nat) (r : Reg T) : Prop :=
  ∃ args pc, s.threads[i]? = some (.call args pc) ∧ pc.group = some r

def Registered (s : State D T) (i : Nat) (r : Reg T) : Prop :=
  ∃ args pc, s.threads[i]? = some (.call args pc) ∧ pc.registration = some r

theorem not_closed {s : ClientImpl D T} {g : Nat} {grp : RspChanGroup T} {k : Fin 16}
    (hg : s.groups[g]? = some grp)
    (hk : grp.closed k = false) : ¬ Closed s g k := by
  rintro ⟨grp', hgrp', hc⟩
  rw [hg] at hgrp'
  cases hgrp'
  rw [hk] at hc
  cases hc

theorem Registered.hasGroup {s : State D T} {i : Nat} {r : Reg T} (h : Registered s i r) :
    HasGroup s i r := by
  obtain ⟨args, pc, ht, hr⟩ := h
  exact ⟨args, pc, ht, CallPc.group_of_registration hr⟩

theorem HasGroup.unique {s : State D T} {i : Nat} {r r' : Reg T} (h : HasGroup s i r)
    (h' : HasGroup s i r') :
    r = r' := by
  obtain ⟨args, pc, ht, hr⟩ := h
  obtain ⟨args', pc', ht', hr'⟩ := h'
  rw [ht] at ht'
  cases ht'
  exact Option.some.inj (hr.symm.trans hr')

end Predicates

variable {D T : Type} [DecidableEq T] [IDispatcher D T] {cfg : Config}

section SectionEffects

variable {s s' : ClientImpl D T} {self g id ch : Nat} {k : Fin 16}
    {t t' : Thread T} {a : Label} {tp : T}

theorem owned_kept (h : Section cfg s self t a s' t') (hg : Owned s g tp) : Owned s' g tp := by
  obtain ⟨grp, hgrp, htp⟩ := hg
  obtain ⟨grp', hgrp', rfl | hc⟩ := group_section h hgrp
  · exact ⟨grp', hgrp', htp⟩
  · exact ⟨grp', hgrp', hc.tp_eq.trans htp⟩

theorem closed_kept (h : Section cfg s self t a s' t') (hk : Closed s g k) : Closed s' g k := by
  obtain ⟨grp, hgrp, hc⟩ := hk
  obtain ⟨grp', hgrp', rfl | hchange⟩ := group_section h hgrp
  · exact ⟨grp', hgrp', hc⟩
  · refine ⟨grp', hgrp', ?_⟩
    cases hchange with
    | close => simp [RspChanGroup.close, hc]
    | _ => exact hc

/-- Only the disconnect handler closes a slot. -/
theorem closed_back (h : Section cfg s self t a s' t') (hk : Closed s' g k) :
    Closed s g k ∨ ∃ tp ec, t = .disc tp ec (.closing g k) ∧ a = .close := by
  obtain ⟨grp', hgrp', hc⟩ := hk
  rcases group_section_back h hgrp' with ⟨grp, hgrp, rfl | hchange⟩ | ⟨u, -, -, -, rfl⟩
  · exact .inl ⟨_, hgrp, hc⟩
  · cases hchange with
    | close =>
      rename_i u ec i pc
      by_cases hki : k = i
      · exact .inr ⟨u, ec, by rw [hki], rfl⟩
      · exact .inl ⟨grp, hgrp, by simpa [RspChanGroup.close, hki] using hc⟩
    | _ => exact .inl ⟨grp, hgrp, hc⟩
  · cases hc

/-- An entry leaves a map when its key is registered anew or erased. -/
theorem entry_kept (h : Section cfg s self t a s' t') (he : Entry s g id ch) :
    Entry s' g id ch ∨
      (∃ args r, t = .call args (.grouped r) ∧ a = .register ∧ t' = .call args (.registered r) ∧
        r.grp = g ∧ r.msgId = id) ∨
      ∃ args r rsp, t = .call args (.shrunk r rsp) ∧ a = .erase ∧ r.grp = g ∧ r.msgId = id := by
  obtain ⟨grp, hgrp, hm⟩ := he
  obtain ⟨grp', hgrp', rfl | hchange⟩ := group_section h hgrp
  · exact .inl ⟨grp', hgrp', hm⟩
  · cases hchange with
    | @register args r hrg hclosed =>
      by_cases hid : r.msgId = id
      · exact .inr (.inl ⟨args, r, rfl, rfl, rfl, hrg, hid⟩)
      · refine .inl ⟨_, hgrp', ?_⟩
        by_cases hk : slot id = slot r.msgId
        · simp [RspChanGroup.setMap, hk, Std.ExtTreeMap.getElem?_insert, hid, ← hm]
        · simp [RspChanGroup.setMap, hk, hm]
    | @erase args r rsp ec hrg =>
      by_cases hid : r.msgId = id
      · exact .inr (.inr ⟨args, r, rsp, rfl, rfl, hrg, hid⟩)
      · refine .inl ⟨_, hgrp', ?_⟩
        by_cases hk : slot id = slot r.msgId
        · simp [RspChanGroup.setMap, hk, Std.ExtTreeMap.getElem?_erase, hid, ← hm]
        · simp [RspChanGroup.setMap, hk, hm]
    | close => exact .inl ⟨_, hgrp', hm⟩

omit [DecidableEq T] in
theorem erase_absent {args : CallArgs} {pc' : CallPc T} {r : Reg T} {rsp : ResponseData}
    (h : CallStep cfg args s (.shrunk r rsp) .erase s' pc') : ¬ Entry s' r.grp r.msgId ch := by
  rintro ⟨grp', hgrp', hm⟩
  cases h with
  | early he => cases he.group
  | erase hg =>
    obtain ⟨hlt, -⟩ := List.getElem?_eq_some_iff.mp hg
    simp only [ClientImpl.setGroup, List.getElem?_set_self hlt, Option.some.injEq] at hgrp'
    subst hgrp'
    simp [RspChanGroup.setMap] at hm

omit [DecidableEq T] in
theorem register_open {args : CallArgs} {r : Reg T}
    (h : CallStep cfg args s (.grouped r) .register s' (.registered r)) :
    ¬ Closed s r.grp (slot r.msgId) := by
  cases h with
  | early he => cases he.group
  | register hg hclosed => exact not_closed hg hclosed

omit [DecidableEq T] in
theorem register_closed {args : CallArgs} {pc' : CallPc T} {r : Reg T} {a : Label}
    (h : CallStep cfg args s (.grouped r) a s' pc') (hk : Closed s r.grp (slot r.msgId)) :
    pc' = .returned (.refused r) (makeUcorfErrorCode .ecNoEstab) := by
  cases h with
  | early he => cases he.group
  | refuse => rfl
  | register hg hclosed => exact absurd hk (not_closed hg hclosed)
  | sendResult hr => cases hr

omit [DecidableEq T] in
theorem register_entry {args : CallArgs} {r : Reg T}
    (h : CallStep cfg args s (.grouped r) .register s' (.registered r)) :
    Entry s' r.grp r.msgId ch ↔ ch = r.chan := by
  cases h with
  | early he => cases he.group
  | register hg =>
    obtain ⟨hlt, -⟩ := List.getElem?_eq_some_iff.mp hg
    simp [Entry, ClientImpl.setGroup, List.getElem?_set_self hlt, RspChanGroup.setMap, eq_comm]

/-- An entry is as it was, or it is a new registration under an open slot. -/
theorem entry_back (h : Section cfg s self t a s' t') (he : Entry s' g id ch) :
    Entry s g id ch ∨ ∃ args r, t = .call args (.grouped r) ∧ a = .register ∧
    t' = .call args (.registered r) ∧
      r.grp = g ∧ r.msgId = id ∧ r.chan = ch ∧ ¬ Closed s g (slot id) := by
  obtain ⟨grp', hgrp', hm⟩ := he
  rcases group_section_back h hgrp' with ⟨grp, hgrp, rfl | hchange⟩ | ⟨u, rfl, rfl, -, rfl⟩
  · exact .inl ⟨_, hgrp, hm⟩
  · cases hchange with
    | @register args r hrg hclosed =>
      by_cases hid : r.msgId = id
      · subst hid
        have hch : r.chan = ch := by simpa [RspChanGroup.setMap] using hm
        exact .inr ⟨args, r, rfl, rfl, rfl, hrg, rfl, hch, not_closed hgrp hclosed⟩
      · refine .inl ⟨_, hgrp, ?_⟩
        by_cases hk : slot id = slot r.msgId
        · simpa [RspChanGroup.setMap, hk, Std.ExtTreeMap.getElem?_insert, hid] using hm
        · simpa [RspChanGroup.setMap, hk] using hm
    | @erase args r rsp ec hrg =>
      refine .inl ⟨_, hgrp, ?_⟩
      by_cases hk : slot id = slot r.msgId
      · simp only [RspChanGroup.setMap, hk, if_true, Std.ExtTreeMap.getElem?_erase] at hm
        split at hm
        · cases hm
        · rw [hk, hm]
      · simpa [RspChanGroup.setMap, hk] using hm
    | close => exact .inl ⟨_, hgrp, hm⟩
  · simp [RspChanGroup.init] at hm

/-- Closing a slot tries the error on every channel of the slot. -/
theorem close_section {ec : BoostEc}
    (h : Section cfg s self (.disc tp ec (.closing g k)) .close s' t') :
    Closed s' g k ∧ ∀ id ch, slot id = k → Entry s g id ch → ch < s.chans.length →
      ∃ c, s'.chans[ch]? = some c ∧ ResponseData.ofEc ec ∈ c.tried := by
  cases h with
  | @close _ _ _ _ grp₀ _ hg hpc =>
    obtain ⟨hlt, -⟩ := List.getElem?_eq_some_iff.mp hg
    rw [foldl_tryPush]
    constructor
    · exact ⟨_, List.getElem?_set_self hlt, by simp [RspChanGroup.close]⟩
    · rintro id ch rfl ⟨grp, hgrp, hm⟩ hch
      have he : grp₀ = grp := Option.some.inj (hg.symm.trans hgrp)
      subst he
      refine ⟨_, by rw [getElem?_pushAll, ClientImpl.setGroup, List.getElem?_eq_getElem hch]; rfl,
        ?_⟩
      have hcount : (RspChanMap.chans (grp₀.maps (slot id))).count ch ≠ 0 :=
        (List.count_pos_iff.mpr (RspChanMap.mem_chans hm)).ne'
      rw [iterate_tryPush]
      exact List.mem_append_left _ (List.mem_replicate.mpr ⟨hcount, rfl⟩)

end SectionEffects

section Steps

variable {s s' : State D T} {act : Action (Thread T) Label} {i j : Nat}
    {t t' : Thread T} {r r' : Reg T}

/-- Where the thread at an index comes from. -/
theorem thread_back (h : (program cfg D T).step s act = some s') (ht : s'.threads[i]? = some t') :
    (s.threads[i]? = some t' ∧ ∀ a, act ≠ .run i a) ∨
      (∃ a t, act = .run i a ∧ s.threads[i]? = some t ∧ Section cfg s.shared i t a s'.shared t') ∨
      (act = .spawn t' ∧ isStart t' = true ∧ s.threads.length ≤ i) := by
  rcases thread_step_back h ht with hsame | ⟨a, u, new, hact, hu, hn⟩ | ⟨hle, hact, hstart⟩ |
    ⟨-, j, a, u, u', new, -, -, hn, hnew⟩
  · exact .inl hsame
  · exact .inr (.inl ⟨a, u, hact, hu, (next_section hn).1⟩)
  · exact .inr (.inr ⟨hact, hstart, hle⟩)
  · rw [(next_section hn).2] at hnew
    cases hnew

/-- Where a thread goes. -/
theorem thread_next (h : (program cfg D T).step s act = some s') (ht : s.threads[i]? = some t) :
    (s'.threads[i]? = some t ∧ ∀ a, act ≠ .run i a) ∨
      ∃ a t', act = .run i a ∧ s'.threads[i]? = some t' ∧
    Section cfg s.shared i t a s'.shared t' := by
  rcases thread_step h ht with hsame | ⟨a, t', new, hact, hn, ht'⟩
  · exact .inl hsame
  · exact .inr ⟨a, t', hact, ht', (next_section hn).1⟩

theorem registered_kept (h : (program cfg D T).step s act = some s') (hr : Registered s i r) :
    Registered s' i r := by
  obtain ⟨args, pc, ht, hpc⟩ := hr
  rcases thread_next h ht with ⟨ht', -⟩ | ⟨a, t', -, ht', hs⟩
  · exact ⟨args, pc, ht', hpc⟩
  · cases hs with
    | call hc => exact ⟨args, _, ht', registration_kept hc hpc⟩

theorem hasGroup_back (h : (program cfg D T).step s act = some s') (hr : HasGroup s' i r) :
    HasGroup s i r ∨ (act = .run i .findGroup ∧ s.shared.channels r.tp = some r.grp ∧
      r.chan = s.shared.chans.length ∧ s'.shared.chans = s.shared.chans ++ [.empty]) := by
  obtain ⟨args, pc, ht, hpc⟩ := hr
  rcases thread_back h ht with ⟨ht', -⟩ | ⟨a, t, rfl, ht', hs⟩ | ⟨-, hstart, -⟩
  · exact .inl ⟨args, pc, ht', hpc⟩
  · obtain ⟨pc₀, rfl, hc⟩ := call_section hs
    rcases group_back hc hpc with hold | ⟨-, -, rfl, hch, hlen, hchans⟩
    · exact .inl ⟨args, pc₀, ht', hold⟩
    · exact .inr ⟨rfl, hch, hlen, hchans⟩
  · cases start_call hstart
    cases hpc

theorem registered_back (h : (program cfg D T).step s act = some s') (hr : Registered s' i r) :
    Registered s i r ∨
    (act = .run i .register ∧ ∃ args, s.threads[i]? = some (.call args (.grouped r)) ∧
      s'.threads[i]? = some (.call args (.registered r))) := by
  obtain ⟨args, pc, ht, hpc⟩ := hr
  rcases thread_back h ht with ⟨ht', -⟩ | ⟨a, t, rfl, ht', hs⟩ | ⟨-, hstart, -⟩
  · exact .inl ⟨args, pc, ht', hpc⟩
  · obtain ⟨pc₀, rfl, hc⟩ := call_section hs
    rcases registration_back hc hpc with hold | ⟨rfl, rfl, rfl⟩
    · exact .inl ⟨args, pc₀, ht', hold⟩
    · exact .inr ⟨rfl, args, ht', ht⟩
  · cases start_call hstart
    cases hpc

/-- Channels are never freed. -/
theorem chans_length_step (h : (program cfg D T).step s act = some s') :
    s.shared.chans.length ≤ s'.shared.chans.length := by
  rcases step_cases h with ⟨u, rfl, hu, rfl⟩ | ⟨j, a, u, u', rfl, hj, hs, hthreads⟩
  · exact le_rfl
  · rcases chans_section hs with hsame | ⟨_, _, _, _, -, -, -, hnew⟩ |
      ⟨_, _, _, _, -, -, -, -, -, hset⟩ |
      ⟨rsp, chs, hpush, -⟩
    · rw [hsame]
    · rw [hnew]
      simp
    · rw [hset, List.length_set]
    · rw [hpush, length_pushAll]

theorem owned_step {g : Nat} {tp : T} (h : (program cfg D T).step s act = some s')
    (hg : Owned s.shared g tp) :
    Owned s'.shared g tp := by
  rcases step_cases h with ⟨u, rfl, hu, rfl⟩ | ⟨j, a, u, u', rfl, hj, hs, hthreads⟩
  · exact hg
  · exact owned_kept hs hg

end Steps

/-- How groups, channels and registrations hang together. -/
structure Wired (s : State D T) : Prop where
  channel : ∀ tp g, s.shared.channels tp = some g → Owned s.shared g tp
  held : ∀ i r, HasGroup s i r → Owned s.shared r.grp r.tp ∧ r.chan < s.shared.chans.length
  distinct : ∀ i j r r', HasGroup s i r → HasGroup s j r' → r.chan = r'.chan → i = j
  entry : ∀ g id ch, Entry s.shared g id ch → ∃ i r, Registered s i r ∧ r.grp = g ∧
    r.msgId = id ∧ r.chan = ch
  found : ∀ (i : Nat) f g, s.threads[i]? = some (.frame f (.found g)) → Owned s.shared g f.tp
  delivery : ∀ (i : Nat) f pc ch, s.threads[i]? = some (.frame f pc) →
    pc = .delivering ch ∨ pc = .delivered ch →
    ∃ j r, Registered s j r ∧ r.tp = f.tp ∧ r.msgId = f.id ∧ r.chan = ch
  closing : ∀ (i : Nat) tp ec g k, s.threads[i]? = some (.disc tp ec (.closing g k)) →
    Owned s.shared g tp ∧ ∀ u, s.shared.channels u ≠ some g
  placed : ∀ (g : Nat) grp k id, s.shared.groups[g]? = some grp → id ∈ grp.maps k → k = slot id
  isOpen : ∀ tp g k, s.shared.channels tp = some g → ¬ Closed s.shared g k

section WiredStep

variable {s s' : State D T} {act : Action (Thread T) Label}

/-- The groups of the next state that `channels_` holds are the old ones and a fresh one. -/
theorem channels_back (h : (program cfg D T).step s act = some s') {tp : T} {g : Nat}
    (hg : s'.shared.channels tp = some g) :
    s.shared.channels tp = some g ∨ (g = s.shared.groups.length ∧
      s'.shared.groups = s.shared.groups ++ [.init tp] ∧ ∃ i, act = .run i .install) := by
  rcases step_cases h with ⟨u, rfl, hu, rfl⟩ | ⟨j, a, u, u', rfl, hj, hs, hthreads⟩
  · exact .inl hg
  · rcases channels_section hs with hsame | ⟨v, -, rfl, -, hgroups, hset⟩ |
      ⟨v, ec, old, -, -, -, -, hset⟩
    · exact .inl (by rw [← hsame, hg])
    · simp only [hset, ClientImpl.setChannel] at hg
      split at hg
      · cases hg
        subst tp
        exact .inr ⟨rfl, hgroups, j, rfl⟩
      · exact .inl hg
    · simp only [hset, ClientImpl.setChannel] at hg
      split at hg
      · cases hg
      · exact .inl hg

theorem channel_step (h : (program cfg D T).step s act = some s') (hw : Wired s) (tp : T) (g : Nat)
    (hg : s'.shared.channels tp = some g) : Owned s'.shared g tp := by
  rcases channels_back h hg with hold | ⟨rfl, hgroups, -⟩
  · exact owned_step h (hw.channel tp g hold)
  · exact ⟨.init tp, by rw [hgroups, List.getElem?_concat_length], rfl⟩

theorem held_step (h : (program cfg D T).step s act = some s') (hw : Wired s) (i : Nat) (r : Reg T)
    (hr : HasGroup s' i r) : Owned s'.shared r.grp r.tp ∧ r.chan < s'.shared.chans.length := by
  rcases hasGroup_back h hr with hold | ⟨-, hch, hlen, hchans⟩
  · obtain ⟨ho, hlt⟩ := hw.held i r hold
    exact ⟨owned_step h ho, lt_of_lt_of_le hlt (chans_length_step h)⟩
  · constructor
    · exact owned_step h (hw.channel _ _ hch)
    · rw [hlen, hchans]
      simp

theorem distinct_step (h : (program cfg D T).step s act = some s') (hw : Wired s) (i j : Nat)
    (r r' : Reg T)
    (hr : HasGroup s' i r) (hr' : HasGroup s' j r') (he : r.chan = r'.chan) : i = j := by
  rcases hasGroup_back h hr with hold | ⟨hact, -, hlen, -⟩ <;>
    rcases hasGroup_back h hr' with hold' | ⟨hact', -, hlen', -⟩
  · exact hw.distinct i j r r' hold hold' he
  · have := (hw.held i r hold).2
    omega
  · have := (hw.held j r' hold').2
    omega
  · rw [hact] at hact'
    cases hact'
    rfl

theorem entry_step (h : (program cfg D T).step s act = some s') (hw : Wired s) (g id ch : Nat)
    (he : Entry s'.shared g id ch) :
    ∃ i r, Registered s' i r ∧ r.grp = g ∧ r.msgId = id ∧ r.chan = ch := by
  have hold (he : Entry s.shared g id ch) : ∃ i r, Registered s' i r ∧ r.grp = g ∧
      r.msgId = id ∧ r.chan = ch := by
    obtain ⟨i, r, hr, hrest⟩ := hw.entry g id ch he
    exact ⟨i, r, registered_kept h hr, hrest⟩
  rcases step_cases h with ⟨u, rfl, hu, rfl⟩ | ⟨j, a, u, u', rfl, hj, hs, hthreads⟩
  · exact hold he
  · rcases entry_back hs he with hkept | ⟨args, r, rfl, rfl, rfl, hg, hid, hch, -⟩
    · exact hold hkept
    · obtain ⟨hlt, -⟩ := List.getElem?_eq_some_iff.mp hj
      exact ⟨j, r, ⟨args, _, by rw [hthreads, List.getElem?_set_self hlt], rfl⟩, hg, hid, hch⟩

theorem found_step (h : (program cfg D T).step s act = some s') (hw : Wired s) (i : Nat)
    (f : Frame T) (g : Nat)
    (ht : s'.threads[i]? = some (.frame f (.found g))) : Owned s'.shared g f.tp := by
  rcases thread_back h ht with ⟨hold, -⟩ | ⟨a, t, rfl, hold, hs⟩ | ⟨-, hstart, -⟩
  · exact owned_step h (hw.found i f g hold)
  · rcases frame_section hs with hpc | ⟨g', -, -, hch, hpc⟩ |
      ⟨_, _, _, -, -, -, -, hpc⟩ | ⟨_, -, -, hpc⟩ <;> cases hpc
    exact owned_step h (hw.channel _ _ hch)
  · cases hstart

theorem delivery_step (h : (program cfg D T).step s act = some s') (hw : Wired s)
    (i : Nat) (f : Frame T)
    (pc : FramePc) (ch : Nat) (ht : s'.threads[i]? = some (.frame f pc))
    (hpc : pc = .delivering ch ∨ pc = .delivered ch) :
    ∃ j r, Registered s' j r ∧ r.tp = f.tp ∧ r.msgId = f.id ∧ r.chan = ch := by
  have hkept (pc : FramePc) (hold : s.threads[i]? = some (.frame f pc))
      (hpc : pc = .delivering ch ∨ pc = .delivered ch) :
        ∃ j r, Registered s' j r ∧ r.tp = f.tp ∧ r.msgId = f.id ∧ r.chan = ch := by
    obtain ⟨j, r, hr, hrest⟩ := hw.delivery i f pc ch hold hpc
    exact ⟨j, r, registered_kept h hr, hrest⟩
  rcases thread_back h ht with ⟨hold, -⟩ | ⟨a, t, rfl, hold, hs⟩ | ⟨-, hstart, -⟩
  · exact hkept pc hold hpc
  · rcases frame_section hs with rfl | ⟨g', -, -, -, rfl⟩ |
      ⟨g, grp, c, rfl, -, hg, hch, rfl⟩ | ⟨c, rfl, -, rfl⟩
    · rcases hpc with hpc | hpc <;> cases hpc
    · rcases hpc with hpc | hpc <;> cases hpc
    · have hc : c = ch := by simpa using hpc
      subst hc
      -- the group that the frame found was made for its transport, so its entry is too
      obtain ⟨j, r, hr, hrg, hid, hrc⟩ := hw.entry g f.id c ⟨grp, hg, hch⟩
      obtain ⟨grp₁, hg₁, htp₁⟩ := (hw.held j r hr.hasGroup).1
      obtain ⟨grp₂, hg₂, htp₂⟩ := hw.found i f g hold
      rw [hrg, hg₂] at hg₁
      cases hg₁
      exact ⟨j, r, registered_kept h hr, htp₁.symm.trans htp₂, hid, hrc⟩
    · have hc : c = ch := by simpa using hpc
      exact hkept _ hold (.inl (by rw [hc]))
  · rcases hpc with rfl | rfl <;> cases hstart

theorem closing_step (h : (program cfg D T).step s act = some s') (hw : Wired s) (i : Nat) (tp : T)
    (ec : BoostEc)
    (g : Nat) (k : Fin 16) (ht : s'.threads[i]? = some (.disc tp ec (.closing g k))) :
    Owned s'.shared g tp ∧ ∀ u, s'.shared.channels u ≠ some g := by
  have hold (ho : Owned s.shared g tp) (hne : ∀ u, s.shared.channels u ≠ some g) :
      Owned s'.shared g tp ∧ ∀ u, s'.shared.channels u ≠ some g := by
    refine ⟨owned_step h ho, ?_⟩
    intro u hu
    rcases channels_back h hu with hu | ⟨rfl, -⟩
    · exact hne u hu
    · obtain ⟨grp, hgrp, -⟩ := ho
      simp at hgrp
  rcases thread_back h ht with ⟨ht', -⟩ | ⟨a, t, rfl, ht', hs⟩ | ⟨-, hstart, -⟩
  · obtain ⟨ho, hne⟩ := hw.closing i tp ec g k ht'
    exact hold ho hne
  · rcases disc_section hs with ⟨-, -, hpc⟩ | ⟨-, -, -, -, hpc⟩ | ⟨g', rfl, -, hch, hshared, hpc⟩ |
      ⟨g', k', grp, rfl, -, -, -, hpc⟩
    · cases hpc
    · cases hpc
    · cases hpc
      refine ⟨owned_step h (hw.channel tp g hch), ?_⟩
      intro u hu
      simp only [hshared, ClientImpl.setChannel] at hu
      split at hu
      · cases hu
      · -- two transports never share a group
        rename_i hne
        obtain ⟨grp, hgrp, htp⟩ := hw.channel tp g hch
        obtain ⟨grp', hgrp', htp'⟩ := hw.channel u g hu
        rw [hgrp] at hgrp'
        cases hgrp'
        exact hne (htp'.symm.trans htp)
    · rcases hpc with ⟨hpc, -⟩ | ⟨hpc, -⟩ <;> cases hpc
      obtain ⟨ho, hne⟩ := hw.closing i tp ec g k' ht'
      exact hold ho hne
  · cases hstart

theorem placed_step (h : (program cfg D T).step s act = some s') (hw : Wired s) (g : Nat)
    (grp' : RspChanGroup T)
    (k : Fin 16) (id : Nat) (hg : s'.shared.groups[g]? = some grp') (hid : id ∈ grp'.maps k) :
    k = slot id := by
  rcases step_cases h with ⟨u, rfl, hu, rfl⟩ | ⟨j, a, u, u', rfl, hj, hs, hthreads⟩
  · exact hw.placed g grp' k id hg hid
  · rcases group_section_back hs hg with ⟨grp, hgrp, rfl | hchange⟩ | ⟨v, -, -, -, rfl⟩
    · exact hw.placed g _ k id hgrp hid
    · cases hchange with
      | @register args r hrg hclosed =>
        by_cases hk : k = slot r.msgId
        · simp only [RspChanGroup.setMap, hk, if_true, Std.ExtTreeMap.mem_insert] at hid
          rcases hid with hid | hid
          · rw [hk, Nat.compare_eq_eq.mp hid]
          · exact hw.placed g grp k id hgrp (by rw [hk]; exact hid)
        · exact hw.placed g grp k id hgrp (by simpa [RspChanGroup.setMap, hk] using hid)
      | @erase args r rsp ec hrg =>
        by_cases hk : k = slot r.msgId
        · simp only [RspChanGroup.setMap, hk, if_true, Std.ExtTreeMap.mem_erase] at hid
          exact hw.placed g grp k id hgrp (by rw [hk]; exact hid.2)
        · exact hw.placed g grp k id hgrp (by simpa [RspChanGroup.setMap, hk] using hid)
      | close => exact hw.placed g grp k id hgrp hid
    · simp [RspChanGroup.init] at hid

theorem isOpen_step (h : (program cfg D T).step s act = some s') (hw : Wired s) (tp : T)
    (g : Nat) (k : Fin 16)
    (hg : s'.shared.channels tp = some g) : ¬ Closed s'.shared g k := by
  intro hk
  rcases channels_back h hg with hold | ⟨rfl, hgroups, -⟩
  · rcases step_cases h with ⟨u, rfl, hu, rfl⟩ | ⟨j, a, u, u', rfl, hj, hs, hthreads⟩
    · exact hw.isOpen tp g k hold hk
    · rcases closed_back hs hk with hk' | ⟨v, ec, rfl, -⟩
      · exact hw.isOpen tp g k hold hk'
      · exact (hw.closing j v ec g k hj).2 tp hold
  · obtain ⟨grp, hgrp, hc⟩ := hk
    rw [hgroups, List.getElem?_concat_length] at hgrp
    cases hgrp
    cases hc

theorem wired_step (s : State D T) (act : Action (Thread T) Label) (s' : State D T) (hw : Wired s)
    (h : (program cfg D T).step s act = some s') : Wired s' where
  channel := channel_step h hw
  held := held_step h hw
  distinct := distinct_step h hw
  entry := entry_step h hw
  found := found_step h hw
  delivery := delivery_step h hw
  closing := closing_step h hw
  placed := placed_step h hw
  isOpen := isOpen_step h hw

end WiredStep

omit [DecidableEq T] [IDispatcher D T] in
theorem wired_start (d : D) : Wired (start d : State D T) where
  channel := by simp [start, ClientImpl.init]
  held := by rintro i r ⟨args, pc, ht, -⟩; simp [start] at ht
  distinct := by rintro i j r r' ⟨args, pc, ht, -⟩; simp [start] at ht
  entry := by rintro g id ch ⟨grp, hgrp, -⟩; simp [start, ClientImpl.init] at hgrp
  found := by simp [start]
  delivery := by simp [start]
  closing := by simp [start]
  placed := by simp [start, ClientImpl.init]
  isOpen := by simp [start, ClientImpl.init]

theorem wired {d : D} {s : State D T} {acts : List (Action (Thread T) Label)}
    (h : run (program cfg D T).step (start d) acts = some s) : Wired s :=
  run_invariant (wired_start d) wired_step h

/-- A call that registered had its turn under the slot's mutex. -/
theorem register_mem {d : D} {s : State D T} {acts : List (Action (Thread T) Label)}
    (h : run (program cfg D T).step (start d) acts = some s) {i : Nat} {r : Reg T}
    (hr : Registered s i r) :
    .run i .register ∈ acts := by
  obtain ⟨args, pc, ht, hpc⟩ := hr
  refine label_of (Q := fun t => ∃ args pc r, t = .call args pc ∧
    pc.registration = some r) ?_ ?_ ?_ h ht
    ⟨args, pc, r, rfl, hpc⟩
  · simp [start]
  · rintro t ht ⟨args, pc, r, rfl, hpc⟩
    cases start_call ht
    cases hpc
  · intro sh j t b sh' t' new hn
    obtain ⟨hs, rfl⟩ := next_section hn
    refine ⟨?_, by simp⟩
    rintro ⟨args, pc', r, rfl, hpc'⟩
    obtain ⟨pc, rfl, hc⟩ := call_section hs
    rcases registration_back hc hpc' with hold | ⟨-, -, rfl⟩
    · exact .inl ⟨args, pc, r, rfl, hold⟩
    · exact .inr rfl

/-- After its turn a call has registered or returned. -/
theorem register_done {d : D} {s : State D T} {acts : List (Action (Thread T) Label)}
    (h : run (program cfg D T).step (start d) acts = some s) {i : Nat}
    (hi : .run i .register ∈ acts) {args : CallArgs}
    {pc : CallPc T} (ht : s.threads[i]? = some (.call args pc)) : pc.decided = true := by
  suffices hdone : ∃ t, s.threads[i]? = some t ∧ ∀ args pc, t = .call args pc → pc.decided = true by
    obtain ⟨t, ht', hq⟩ := hdone
    exact hq args pc (Option.some.inj (ht'.symm.trans ht))
  refine after_label ?_ ?_ h hi
  · intro sh j t sh' t' new hn args pc' he
    subst he
    obtain ⟨pc, rfl, hc⟩ := call_section (next_section hn).1
    exact register_section hc
  · intro sh j t b sh' t' new hq hn args pc' he
    subst he
    obtain ⟨pc, rfl, hc⟩ := call_section (next_section hn).1
    exact decided_kept hc (hq args pc rfl)

end Ucorf.ClientInvariant
