import Ucorf.ClientDisconnect

/-!
# Reconnects

The disconnect of one session of a transport and the connect of the next one run at
the same time, each in two structures that are keyed by the transport. The dispatcher
ends up with the transport once in every order. `channels_` does so only when the old
group is taken out before the new one is put in: in the other order the handler of the
old session takes the new group out and closes it, and nobody closes the old one.
-/
namespace Ucorf.ClientReconnect

open Ucorf.Message
open Ucorf.Dispatcher
open Ucorf.Threads
open Ucorf.Client
open Ucorf.ClientSections
open Ucorf.ClientInvariant
open Ucorf.ClientNumbers
open Ucorf.ClientDisconnect

section Predicates

variable {T : Type}

def connPhase : Option (Thread T) → Nat
  | some (.conn _ .added) => 1
  | some (.conn _ .done) => 2
  | _ => 0

def discPhase : Option (Thread T) → Nat
  | some (.disc _ _ .deleted) => 1
  | some (.disc _ _ (.closing _ _)) => 2
  | some (.disc _ _ (.done _)) => 2
  | _ => 0

/-- The group that a disconnect handler took out of `channels_`. -/
def taken : Option (Thread T) → Option Nat
  | some (.disc _ _ (.closing g _)) => some g
  | some (.disc _ _ (.done g)) => g
  | _ => none

/-- The transport whose connection a handler reports, and the error of a disconnect. -/
def handles : Thread T → Option (T × Option BoostEc)
  | .conn tp _ => some (tp, none)
  | .disc tp ec _ => some (tp, some ec)
  | _ => none

def finished : Thread T → Bool
  | .conn _ .done => true
  | .disc _ _ (.done _) => true
  | _ => false

theorem start_phase {t : Thread T} (h : isStart t = true) :
    connPhase (some t) = 0 ∧ discPhase (some t) = 0 ∧ taken (some t) = none := by
  unfold isStart at h
  split at h <;> first | exact ⟨rfl, rfl, rfl⟩ | cases h

/-- Starting a thread does not show in what it is counted by. -/
theorem spawn_view {α : Type} (f : Option (Thread T) → α) (l : List (Thread T)) (u : Thread T)
    (h : f (some u) = f none)
    (i : Nat) : f (l ++ [u])[i]? = f l[i]? := by
  by_cases hi : i < l.length
  · rw [List.getElem?_append_left hi]
  · rw [List.getElem?_append_right (Nat.le_of_not_lt hi), List.getElem?_singleton,
      List.getElem?_eq_none (Nat.le_of_not_lt hi)]
    split
    · exact h
    · rfl

variable [DecidableEq T]

/-- How often the dispatcher holds `tp`. -/
def held (s : ClientImpl (RobinDispatcher T) T) (tp : T) : Nat := s.dispatcher.tpList.count tp

/-- What a section does to the dispatcher and to `channels_` for one transport. -/
inductive RouteStep (tp : T) (s s' : ClientImpl (RobinDispatcher T) T) :
    Thread T → Label → Thread T → Prop where
  | other {t t' : Thread T} {a : Label} : (∀ pc, t ≠ .conn tp pc) → (∀ ec pc, t ≠ .disc tp ec pc) →
      held s' tp = held s tp → s'.channels tp = s.channels tp → RouteStep tp s s' t a t'
  | add : held s' tp = held s tp + 1 → s'.channels tp = s.channels tp →
      RouteStep tp s s' (.conn tp .entered) .add (.conn tp .added)
  | install {g : Nat} : held s' tp = held s tp → s'.channels tp = some g →
      RouteStep tp s s' (.conn tp .added) .install (.conn tp .done)
  | del {ec : BoostEc} : held s' tp = held s tp - 1 → s'.channels tp = s.channels tp →
      RouteStep tp s s' (.disc tp ec .entered) .del (.disc tp ec .deleted)
  | remove {ec : BoostEc} {pc : DiscPc} : held s' tp = held s tp → s'.channels tp = none →
      discPhase (some (.disc tp ec pc)) = 2 → taken (some (.disc tp ec pc)) = s.channels tp →
      RouteStep tp s s' (.disc tp ec .deleted) .remove (.disc tp ec pc)
  | close {ec : BoostEc} {g : Nat} {i : Fin 16} {pc : DiscPc} : held s' tp = held s tp →
      s'.channels tp = s.channels tp → discPhase (some (.disc tp ec pc)) = 2 →
      taken (some (.disc tp ec pc)) = some g →
      RouteStep tp s s' (.disc tp ec (.closing g i)) .close (.disc tp ec pc)

theorem held_of {s s' : ClientImpl (RobinDispatcher T) T} {tp : T}
    (h : s'.dispatcher = s.dispatcher) :
    held s' tp = held s tp := congrArg (fun d : RobinDispatcher T => d.tpList.count tp) h

/-- What a section does to the list of transports and to the group of this one. -/
theorem route_section {cfg : Config} {self : Nat} {s s' : ClientImpl (RobinDispatcher T) T}
    {t t' : Thread T} {a : Label}
    (h : Section cfg s self t a s' t') (tp : T) : RouteStep tp s s' t a t' := by
  cases h with
  | call hc =>
    cases hc with
    | early he hd =>
      refine .other (by simp) (by simp) ?_ rfl
      rcases hd with rfl | ⟨service, method, request, rfl⟩
      · rfl
      · exact congrArg (List.count tp) (RobinDispatcher.get_tpList _ service method request)
    | sendResult => split <;> exact .other (by simp) (by simp) rfl rfl
    | _ => exact .other (by simp) (by simp) (held_of rfl) rfl
  | @add u =>
    by_cases hu : u = tp
    · subst hu
      exact .add (RobinDispatcher.count_add _ _) rfl
    · exact .other (by simp [hu]) (by simp) (RobinDispatcher.count_add_other _ hu) rfl
  | @install u =>
    by_cases hu : u = tp
    · subst hu
      exact .install rfl (if_pos rfl)
    · exact .other (by simp [hu]) (by simp) rfl (if_neg (Ne.symm hu))
  | @del u ec =>
    by_cases hu : u = tp
    · subst hu
      exact .del (RobinDispatcher.count_del _ _) rfl
    · exact .other (by simp) (by simp [hu]) (RobinDispatcher.count_del_other _ hu) rfl
  | @absent u ec hc =>
    by_cases hu : u = tp
    · subst hu
      exact .remove rfl hc rfl hc.symm
    · exact .other (by simp) (by simp [hu]) rfl rfl
  | @remove u ec g hc =>
    by_cases hu : u = tp
    · subst hu
      exact .remove rfl (if_pos rfl) rfl hc.symm
    · exact .other (by simp) (by simp [hu]) rfl (if_neg (Ne.symm hu))
  | @close u ec g i grp pc hg hpc =>
    rw [foldl_tryPush]
    by_cases hu : u = tp
    · subst hu
      rcases hpc with ⟨rfl, -⟩ | ⟨rfl, -⟩ <;> exact .close rfl rfl rfl rfl
    · exact .other (by simp) (by simp [hu]) rfl rfl
  | _ => exact .other (by simp) (by simp) rfl rfl

theorem handles_section {D : Type} [IDispatcher D T] {cfg : Config} {self : Nat}
    {s s' : ClientImpl D T}
    {t t' : Thread T} {a : Label} (h : Section cfg s self t a s' t') :
    handles t' = handles t ∧ finished t = false := by
  cases h <;> exact ⟨rfl, rfl⟩

end Predicates

section Steps

variable {T : Type} [DecidableEq T] {cfg : Config} {s s' : State (RobinDispatcher T) T}
    {act : Action (Thread T) Label}
variable {acts : List (Action (Thread T) Label)} {n j k : Nat} {tp : T} {ec : BoostEc}

/-- The handlers of `tp` that start from thread number `n` on are the connect handler
`k` and the disconnect handler `j`. -/
structure Alone (n : Nat) (tp : T) (ec : BoostEc) (j k : Nat)
    (s : State (RobinDispatcher T) T) : Prop where
  apart : n ≤ j ∧ n ≤ k ∧ j ≠ k
  conn : ∀ t, s.threads[k]? = some t → handles t = some (tp, none)
  disc : ∀ t, s.threads[j]? = some t → handles t = some (tp, some ec)
  only : ∀ (i : Nat) t e, s.threads[i]? = some t → handles t = some (tp, e) →
    i < n ∨ (i = k ∧ e = none) ∨ (i = j ∧ e = some ec)

/-- If the handlers are alone now, they have been so before. -/
theorem alone_back (h : (program cfg (RobinDispatcher T) T).step s act = some s')
    (ha : Alone n tp ec j k s') :
    Alone n tp ec j k s := by
  have hnext {i : Nat} {t : Thread T} (ht : s.threads[i]? = some t) :
      ∃ t', s'.threads[i]? = some t' ∧ handles t' = handles t := by
    rcases thread_next h ht with ⟨ht', -⟩ | ⟨a, t', -, ht', hs⟩
    · exact ⟨t, ht', rfl⟩
    · exact ⟨t', ht', (handles_section hs).1⟩
  refine ⟨ha.apart, ?_, ?_, ?_⟩
  · intro t ht
    obtain ⟨t', ht', he⟩ := hnext ht
    exact he.symm.trans (ha.conn t' ht')
  · intro t ht
    obtain ⟨t', ht', he⟩ := hnext ht
    exact he.symm.trans (ha.disc t' ht')
  · intro i t e ht hhandles
    obtain ⟨t', ht', he⟩ := hnext ht
    exact ha.only i t' e ht' (he.trans hhandles)

/-- The earlier handlers of `tp` have finished. -/
def Quiet (n : Nat) (tp : T) (s : State (RobinDispatcher T) T) : Prop :=
  n ≤ s.threads.length ∧ ∀ (i : Nat) t e, i < n → s.threads[i]? = some t →
  handles t = some (tp, e) → finished t = true

theorem quiet_step (h : (program cfg (RobinDispatcher T) T).step s act = some s')
    (hq : Quiet n tp s) :
    Quiet n tp s' := by
  obtain ⟨hn, hfin⟩ := hq
  constructor
  · rcases step_cases h with ⟨u, -, -, rfl⟩ | ⟨i, a, t, t', -, -, -, hthreads⟩
    · rw [List.length_append]
      omega
    · rw [hthreads, List.length_set]
      exact hn
  · intro i t e hi ht he
    rcases thread_back h ht with ⟨hold, -⟩ | ⟨a, u, rfl, hold, hs⟩ | ⟨-, -, hle⟩
    · exact hfin i t e hi hold he
    · obtain ⟨hhandles, hf⟩ := handles_section hs
      rw [hfin i u e hi hold (hhandles.symm.trans he)] at hf
      cases hf
    · omega

/-- What a step does to the routing of `tp` when only two handlers are at work. -/
inductive HandlerStep (tp : T) (j k : Nat) (s s' : State (RobinDispatcher T) T) :
    Action (Thread T) Label → Prop where
  | other {act : Action (Thread T) Label} : act ≠ .run k .install → act ≠ .run j .remove →
      connPhase s'.threads[k]? = connPhase s.threads[k]? →
      discPhase s'.threads[j]? = discPhase s.threads[j]? →
      taken s'.threads[j]? = taken s.threads[j]? → held s'.shared tp = held s.shared tp →
      s'.shared.channels tp = s.shared.channels tp → HandlerStep tp j k s s' act
  | add : connPhase s.threads[k]? = 0 → connPhase s'.threads[k]? = 1 →
      s'.threads[j]? = s.threads[j]? →
      held s'.shared tp = held s.shared tp + 1 → s'.shared.channels tp = s.shared.channels tp →
      HandlerStep tp j k s s' (.run k .add)
  | install {g : Nat} : connPhase s.threads[k]? = 1 → connPhase s'.threads[k]? = 2 →
      s'.threads[j]? = s.threads[j]? →
      held s'.shared tp = held s.shared tp → s'.shared.channels tp = some g →
      HandlerStep tp j k s s' (.run k .install)
  | del : discPhase s.threads[j]? = 0 → discPhase s'.threads[j]? = 1 →
      s'.threads[k]? = s.threads[k]? →
      held s'.shared tp = held s.shared tp - 1 → s'.shared.channels tp = s.shared.channels tp →
      HandlerStep tp j k s s' (.run j .del)
  | remove : discPhase s.threads[j]? = 1 → discPhase s'.threads[j]? = 2 →
      s'.threads[k]? = s.threads[k]? →
      held s'.shared tp = held s.shared tp → s'.shared.channels tp = none →
      taken s'.threads[j]? = s.shared.channels tp → HandlerStep tp j k s s' (.run j .remove)

/-- What a step does to the two handlers of the transport. -/
theorem handler_step (h : (program cfg (RobinDispatcher T) T).step s act = some s')
    (ha : Alone n tp ec j k s)
    (hq : Quiet n tp s) : HandlerStep tp j k s s' act := by
  rcases step_cases h with ⟨u, rfl, hu, rfl⟩ | ⟨i, a, t, t', rfl, hi, hs, hthreads⟩
  · obtain ⟨hconn, hdisc, htaken⟩ := start_phase hu
    exact .other (by simp) (by simp) (spawn_view _ _ u hconn k) (spawn_view _ _ u hdisc j)
      (spawn_view _ _ u htaken j)
      rfl rfl
  · obtain ⟨hlt, -⟩ := List.getElem?_eq_some_iff.mp hi
    have hself : s'.threads[i]? = some t' := by rw [hthreads, List.getElem?_set_self hlt]
    have hrest {m : Nat} (hm : i ≠ m) : s'.threads[m]? = s.threads[m]? := by
      rw [hthreads, List.getElem?_set_ne hm]
    -- a handler of `tp` that still runs is one of the two
    have honly {e : Option BoostEc} (he : handles t = some (tp, e)) : (i = k ∧ e = none) ∨
        (i = j ∧ e = some ec) := by
      rcases ha.only i t e hi he with hold | hnew
      · have hf := (handles_section hs).2
        rw [hq.2 i t e hold hi he] at hf
        cases hf
      · exact hnew
    obtain ⟨-, -, hne⟩ := ha.apart
    cases route_section hs tp with
    | other hc hd hheld hch =>
      have hik : i ≠ k := by
        rintro rfl
        have he := ha.conn t hi
        cases t with
        | conn u pc =>
          cases he
          exact hc pc rfl
        | _ => cases he
      have hij : i ≠ j := by
        rintro rfl
        have he := ha.disc t hi
        cases t with
        | disc u e pc =>
          cases he
          exact hd _ pc rfl
        | _ => cases he
      exact .other (by simp [hik]) (by simp [hij]) (by rw [hrest hik]) (by rw [hrest hij])
        (by rw [hrest hij]) hheld hch
    | add hheld hch =>
      rcases honly rfl with ⟨rfl, -⟩ | ⟨-, he⟩
      · exact .add (by rw [hi]; rfl) (by rw [hself]; rfl) (hrest hne.symm) hheld hch
      · cases he
    | install hheld hch =>
      rcases honly rfl with ⟨rfl, -⟩ | ⟨-, he⟩
      · exact .install (by rw [hi]; rfl) (by rw [hself]; rfl) (hrest hne.symm) hheld hch
      · cases he
    | del hheld hch =>
      rcases honly rfl with ⟨-, he⟩ | ⟨rfl, -⟩
      · cases he
      · exact .del (by rw [hi]; rfl) (by rw [hself]; rfl) (hrest hne) hheld hch
    | remove hheld hch hphase htaken =>
      rcases honly rfl with ⟨-, he⟩ | ⟨rfl, -⟩
      · cases he
      · exact .remove (by rw [hi]; rfl) (by rw [hself, hphase])
          (hrest hne) hheld hch (by rw [hself, htaken])
    | close hheld hch hphase htaken =>
      rcases honly rfl with ⟨-, he⟩ | ⟨rfl, -⟩
      · cases he
      · exact .other (by simp) (by simp) (by rw [hrest hne]) (by rw [hself, hi, hphase]; rfl)
          (by rw [hself, hi, htaken]; rfl) hheld hch

/-- How far the two handlers are and what they have made of the routing. -/
structure Routed (tp : T) (g j k : Nat) (acts : List (Action (Thread T) Label))
    (s : State (RobinDispatcher T) T) : Prop where
  once : held s.shared tp + min (discPhase s.threads[j]?) 1 = 1 + min (connPhase s.threads[k]?) 1
  installed : .run k .install ∈ acts → connPhase s.threads[k]? = 2
  removed : .run j .remove ∈ acts ↔ discPhase s.threads[j]? = 2
  old : connPhase s.threads[k]? < 2 → discPhase s.threads[j]? < 2 → s.shared.channels tp = some g
  gone : connPhase s.threads[k]? < 2 → discPhase s.threads[j]? = 2 →
    s.shared.channels tp = none ∧ taken s.threads[j]? = some g
  late : Before acts (.run j .remove) (.run k .install) →
    (∃ g', s.shared.channels tp = some g') ∧ taken s.threads[j]? = some g
  early : connPhase s.threads[k]? = 2 → discPhase s.threads[j]? = 2 →
    ¬ Before acts (.run j .remove) (.run k .install) → s.shared.channels tp = none

variable {g : Nat}

theorem Routed.not_installed (hr : Routed tp g j k acts s) (hc : connPhase s.threads[k]? < 2) :
    .run k .install ∉ acts := by
  intro hmem
  have := hr.installed hmem
  omega

theorem Routed.not_removed (hr : Routed tp g j k acts s) (hd : discPhase s.threads[j]? < 2) :
    .run j .remove ∉ acts := by
  intro hmem
  have := hr.removed.mp hmem
  omega

/-- Each step of the two handlers moves the transport and its group on. -/
theorem routed_step (h : HandlerStep tp j k s s' act) (hr : Routed tp g j k acts s) :
    Routed tp g j k (acts ++ [act]) s' := by
  have honce := hr.once
  have hbefore (hne : act ≠ .run k .install) :
      Before (acts ++ [act]) (.run j .remove) (.run k .install) ↔
      Before acts (.run j .remove) (.run k .install) := by
    simp [before_snoc, hne]
  cases h with
  | other hinstall hremove hc hd ht hheld hch =>
    constructor
    · rw [hheld, hc, hd, honce]
    · rw [hc]
      simpa [hinstall.symm] using hr.installed
    · rw [hd]
      simpa [hremove.symm] using hr.removed
    · rw [hc, hd, hch]
      exact hr.old
    · rw [hc, hd, ht, hch]
      exact hr.gone
    · rw [hbefore hinstall, ht, hch]
      exact hr.late
    · rw [hbefore hinstall, hc, hd, hch]
      exact hr.early
  | add hc hc' hsame hheld hch =>
    have hin := hr.not_installed (by omega)
    constructor
    · rw [hheld, hc', hsame]
      omega
    · intro hmem
      exact absurd (by simpa using hmem) hin
    · rw [hsame]
      simpa using hr.removed
    · intro _ hd
      rw [hch]
      exact hr.old (by omega) (by rwa [hsame] at hd)
    · intro _ hd
      rw [hch, hsame]
      exact hr.gone (by omega) (by rwa [hsame] at hd)
    · rw [hbefore (by simp), hsame, hch]
      exact hr.late
    · intro hc₂
      omega
  | install hc hc' hsame hheld hch =>
    constructor
    · rw [hheld, hc', hsame]
      omega
    · exact fun _ => hc'
    · rw [hsame]
      simpa using hr.removed
    · intro hc₂
      omega
    · intro hc₂
      omega
    · intro hb
      rw [before_snoc] at hb
      have hmem : .run j .remove ∈ acts := by
        rcases hb with hb | ⟨-, hmem⟩
        · exact hb.mem_left
        · exact hmem
      rw [hsame]
      exact ⟨⟨_, hch⟩, (hr.gone (by omega) (hr.removed.mp hmem)).2⟩
    · intro _ hd hb
      rw [hsame] at hd
      exact absurd (before_snoc.mpr (.inr ⟨rfl, hr.removed.mpr hd⟩)) hb
  | del hd hd' hsame hheld hch =>
    have hin := hr.not_removed (by omega)
    constructor
    · rw [hheld, hd', hsame]
      omega
    · rw [hsame]
      simpa using hr.installed
    · constructor
      · intro hmem
        exact absurd (by simpa using hmem) hin
      · intro hd₂
        omega
    · intro hc _
      rw [hch]
      exact hr.old (by rwa [hsame] at hc) (by omega)
    · intro _ hd₂
      omega
    · intro hb
      exact absurd ((hbefore (by simp)).mp hb).mem_left hin
    · intro _ hd₂
      omega
  | remove hd hd' hsame hheld hch ht =>
    have hin := hr.not_removed (by omega)
    constructor
    · rw [hheld, hd', hsame]
      omega
    · rw [hsame]
      simpa using hr.installed
    · exact ⟨fun _ => hd', fun _ => by simp⟩
    · intro _ hd₂
      omega
    · intro hc _
      rw [hsame] at hc
      exact ⟨hch, ht.trans (hr.old hc (by omega))⟩
    · intro hb
      exact absurd ((hbefore (by simp)).mp hb).mem_left hin
    · exact fun _ _ _ => hch

end Steps

section Slots

variable {T : Type} [DecidableEq T] {cfg : Config} {s s' : State (RobinDispatcher T) T}
    {act : Action (Thread T) Label}
variable {n j k g : Nat} {tp : T} {ec : BoostEc}

/-- The calls whose entries stand in closed slots of the group have been told of the error. -/
def Notified (g : Nat) (ec : BoostEc) (s : State (RobinDispatcher T) T) : Prop :=
  ∀ id ch, Entry s.shared g id ch → Closed s.shared g (slot id) → Tried s.shared ch (.ofEc ec)

/-- Whoever is entered in a slot has been given the error once the slot is closed. -/
theorem entry_tried (h : (program cfg (RobinDispatcher T) T).step s act = some s') (hw : Wired s)
    (ha : Alone n tp ec j k s) (hq : Quiet n tp s) (hg : Owned s.shared g tp)
    (hn : Notified g ec s) {id ch : Nat}
    (he : Entry s.shared g id ch) (hc : Closed s'.shared g (slot id)) :
    Tried s'.shared ch (.ofEc ec) := by
  rcases step_cases h with ⟨u, rfl, hu, rfl⟩ | ⟨i, a, t, t', rfl, hi, hs, hthreads⟩
  · exact hn id ch he hc
  · rcases closed_back hs hc with hold | ⟨u, ec', rfl, rfl⟩
    · exact tried_kept hs (hn id ch he hold)
    · -- the group was made for `tp`, so its handler is the one that runs
      obtain ⟨⟨grp, hgrp, htp⟩, -⟩ := hw.closing i u ec' g _ hi
      obtain ⟨grp', hgrp', htp'⟩ := hg
      rw [hgrp] at hgrp'
      cases hgrp'
      obtain rfl : u = tp := htp.symm.trans htp'
      have hec : ec' = ec := by
        rcases ha.only i _ (some ec') hi rfl with hlt | ⟨-, he⟩ | ⟨-, he⟩
        · have hf := hq.2 i _ _ hlt hi rfl
          cases hf
        · cases he
        · exact Option.some.inj he
      obtain ⟨m, r, hr, -, -, rfl⟩ := hw.entry g id ch he
      rw [← hec]
      exact (close_section hs).2 id r.chan rfl he (hw.held m r hr.hasGroup).2

/-- So the closed slots of the group have told everybody in them. -/
theorem notified_step (h : (program cfg (RobinDispatcher T) T).step s act = some s') (hw : Wired s)
    (ha : Alone n tp ec j k s) (hq : Quiet n tp s) (hg : Owned s.shared g tp)
    (hn : Notified g ec s) :
    Notified g ec s' := by
  intro id ch he hc
  rcases step_cases h with ⟨u, rfl, hu, rfl⟩ | ⟨i, a, t, t', rfl, hi, hs, hthreads⟩
  · exact hn id ch he hc
  · rcases entry_back hs he with hold | ⟨args, r, rfl, rfl, rfl, -, -, -, hopen⟩
    · exact entry_tried h hw ha hq hg hn hold hc
    · rcases closed_back hs hc with hold | ⟨_, _, -, ha⟩
      · exact absurd hold hopen
      · cases ha

end Slots

section Results

variable {T : Type} [DecidableEq T]

/-- A session of `tp` is up: its handler and those of the sessions before have finished. -/
structure Established (tp : T) (g : Nat) (m : State (RobinDispatcher T) T) : Prop where
  once : held m.shared tp = 1
  group : m.shared.channels tp = some g
  finished : ∀ t ∈ m.threads, ∀ e, handles t = some (tp, e) → finished t = true

/-- After `m` one connect and one disconnect of `tp` were handled, both to the end. -/
structure Reconnected (tp : T) (ec : BoostEc) (j k : Nat)
    (m s : State (RobinDispatcher T) T) : Prop where
  conn : m.threads.length ≤ k ∧ s.threads[k]? = some (.conn tp .done)
  disc : m.threads.length ≤ j ∧ ∃ o, s.threads[j]? = some (.disc tp ec (.done o))
  only : ∀ (i : Nat) t e, s.threads[i]? = some t → handles t = some (tp, e) →
    i < m.threads.length ∨ i = k ∨ i = j

/-- The routing after a reconnect, and what became of the calls of the old group. -/
structure Settled (cfg : Config) (tp : T) (g : Nat) (ec : BoostEc) (m : State (RobinDispatcher T) T)
    (acts : List (Action (Thread T) Label)) (s : State (RobinDispatcher T) T) : Prop where
  once : held s.shared tp = 1
  fresh : ∃ g', s.shared.channels tp = some g' ∧ ∀ i, ¬ Closed s.shared g' i
  closed : ∀ i, Closed s.shared g i
  notified : ∀ pre act post p q, acts = pre ++ act :: post →
    run (program cfg (RobinDispatcher T) T).step m pre = some p →
    (program cfg (RobinDispatcher T) T).step p act = some q → ∀ id ch, Entry p.shared g id ch →
      Closed q.shared g (slot id) → Tried s.shared ch (.ofEc ec)

variable {cfg : Config} {m s : State (RobinDispatcher T) T} {acts : List (Action (Thread T) Label)}
variable {tp : T} {g j k : Nat} {ec : BoostEc}

omit [DecidableEq T] in
/-- Of the transport there were no handlers but these two. -/
theorem Reconnected.alone (h : Reconnected tp ec j k m s) : Alone m.threads.length tp ec j k s := by
  obtain ⟨hk, hconn⟩ := h.conn
  obtain ⟨hj, o, hdisc⟩ := h.disc
  refine ⟨⟨hj, hk, ?_⟩, ?_, ?_, ?_⟩
  · rintro rfl
    rw [hconn] at hdisc
    cases hdisc
  · intro t ht
    rw [hconn] at ht
    cases ht
    rfl
  · intro t ht
    rw [hdisc] at ht
    cases ht
    rfl
  · intro i t e ht he
    rcases h.only i t e ht he with hlt | rfl | rfl
    · exact .inl hlt
    · rw [hconn] at ht
      cases ht
      cases he
      exact .inr (.inl ⟨rfl, rfl⟩)
    · rw [hdisc] at ht
      cases ht
      cases he
      exact .inr (.inr ⟨rfl, rfl⟩)

/-- The invariant of the runs in which only the two handlers are at work. -/
theorem handling {d : RobinDispatcher T} {pre : List (Action (Thread T) Label)}
    (h₀ : run (program cfg (RobinDispatcher T) T).step (start d) pre = some m)
    (he : Established tp g m)
    (h : run (program cfg (RobinDispatcher T) T).step m acts = some s)
    (ha : Alone m.threads.length tp ec j k s) :
    Routed tp g j k acts s ∧ Quiet m.threads.length tp s ∧ Owned s.shared g tp ∧
    Notified g ec s := by
  refine trace_invariant (I := fun acts s => Alone m.threads.length tp ec j k s →
    Routed tp g j k acts s ∧
    Quiet m.threads.length tp s ∧ Owned s.shared g tp ∧ Notified g ec s) ?_ ?_ h ha
  · intro ha₀
    have hw := wired h₀
    obtain ⟨hj, hk, -⟩ := ha₀.apart
    have hjnone : m.threads[j]? = none := List.getElem?_eq_none hj
    have hknone : m.threads[k]? = none := List.getElem?_eq_none hk
    refine ⟨?_, ?_, hw.channel tp g he.group, ?_⟩
    · constructor <;> simp [hjnone, hknone, connPhase, discPhase, he.once, he.group, Before]
    · exact ⟨le_rfl, fun i t e _ ht hhandles => he.finished t (List.mem_of_getElem? ht) e hhandles⟩
    · intro id ch _ hc
      exact absurd hc (hw.isOpen tp g _ he.group)
  · intro acts p act q hrun hp hstep hq
    have hap := alone_back hstep hq
    obtain ⟨hr, hquiet, hown, hn⟩ := hp hap
    have hw := wired (run_join h₀ hrun)
    exact ⟨routed_step (handler_step hstep hap hquiet) hr, quiet_step hstep hquiet,
      owned_step hstep hown,
      notified_step hstep hw hap hquiet hown hn⟩

/-- A disconnect and a reconnect leave the routing right if and only if the old group is
taken out of `channels_` before the new one is put in. -/
theorem settled_iff (cfg : Config) (d : RobinDispatcher T)
    (pre acts : List (Action (Thread T) Label))
    (m s : State (RobinDispatcher T) T) (tp : T) (g j k : Nat) (ec : BoostEc)
    (h₀ : run (program cfg (RobinDispatcher T) T).step (start d) pre = some m)
    (he : Established tp g m)
    (h : run (program cfg (RobinDispatcher T) T).step m acts = some s)
    (hr : Reconnected tp ec j k m s) :
    Settled cfg tp g ec m acts s ↔ Before acts (.run j .remove) (.run k .install) := by
  have ha := hr.alone
  have hw := wired (run_join h₀ h)
  obtain ⟨hrouted, hquiet, hown, hn⟩ := handling h₀ he h ha
  obtain ⟨-, o, hdisc⟩ := hr.disc
  have hd : discPhase s.threads[j]? = 2 := by rw [hdisc]; rfl
  have hc : connPhase s.threads[k]? = 2 := by rw [hr.conn.2]; rfl
  constructor
  · intro hs
    by_contra hb
    obtain ⟨g', hg', -⟩ := hs.fresh
    rw [hrouted.early hc hd hb] at hg'
    cases hg'
  · intro hb
    obtain ⟨⟨g', hg'⟩, htaken⟩ := hrouted.late hb
    constructor
    · have := hrouted.once
      omega
    · exact ⟨g', hg', fun i => hw.isOpen tp g' i hg'⟩
    · intro i
      rw [hdisc] at htaken
      obtain rfl : o = some g := htaken
      exact (closing (run_join h₀ h)).done j tp ec g i hdisc
    · intro pre₁ act post p q hacts hp hstep id ch hentry hclosed
      have hpost : run (program cfg (RobinDispatcher T) T).step q post = some s := by
        rw [hacts, run_append, hp, Option.bind_some, run_cons, hstep, Option.bind_some] at h
        exact h
      have hback : Alone m.threads.length tp ec j k q :=
        run_back (fun _ _ _ hq hstep => alone_back hstep hq) hpost ha
      have hap := alone_back hstep hback
      obtain ⟨-, hquiet₁, hown₁, hn₁⟩ := handling h₀ he hp hap
      have htried := entry_tried hstep (wired (run_join h₀ hp)) hap hquiet₁ hown₁ hn₁ hentry hclosed
      exact run_invariant (I := fun s => Tried s.shared ch (.ofEc ec)) htried
        (fun _ _ _ ht hstep => tried_step hstep ht)
        hpost

/-- Thread `i` connects transport 0. -/
def connRun (i : Nat) : List (Action (Thread Nat) Label) :=
  [.spawn (.conn 0 .entered), .run i .add, .run i .install]

/-- The threads of `waitingRun`. -/
def waitingThreads : List (Thread Nat) := [.conn 0 .done, .call twoway (.waiting ⟨0, 1, 0, 0⟩)]

/-- The session of `waitingRun` is up, and a schedule that follows can be evaluated. -/
theorem waitingRun_then (acts : List (Action (Thread Nat) Label)) (threads : List (Thread Nat))
    (h : (run (program sampleConfig (RobinDispatcher Nat) Nat).step (start .init) waitingRun).any
      (fun m =>
      decide (held m.shared 0 = 1 ∧ m.shared.channels 0 = some 0 ∧ m.threads = waitingThreads) &&
      (run (program sampleConfig (RobinDispatcher Nat) Nat).step m acts).any fun s =>
      decide (s.threads = threads)) = true) :
    ∃ m s : State (RobinDispatcher Nat) Nat,
      run (program sampleConfig (RobinDispatcher Nat) Nat).step (start .init) waitingRun = some m ∧
      Established 0 0 m ∧ m.threads = waitingThreads ∧
      run (program sampleConfig (RobinDispatcher Nat) Nat).step m acts = some s ∧
    s.threads = threads := by
  obtain ⟨m, hm, hboth⟩ := run_exists _ _ _ _ h
  obtain ⟨hest, hrest⟩ := (Bool.and_eq_true _ _).mp hboth
  obtain ⟨honce, hgroup, hthreads⟩ := of_decide_eq_true hest
  obtain ⟨s, hs, ht⟩ := run_exists _ _ _ _ hrest
  refine ⟨m, s, hm, ⟨honce, hgroup, ?_⟩, hthreads, hs, of_decide_eq_true ht⟩
  intro t ht e he
  simp only [hthreads, waitingThreads, List.mem_cons, List.not_mem_nil, or_false] at ht
  rcases ht with rfl | rfl
  · rfl
  · cases he

theorem reconnected_of_threads {m s : State (RobinDispatcher Nat) Nat} {j k : Nat}
    (hm : m.threads = waitingThreads)
    (hs : s.threads.length = 4) (hjk : (j = 2 ∧ k = 3) ∨ (j = 3 ∧ k = 2))
    (hconn : s.threads[k]? = some (.conn 0 .done)) {o : Option Nat}
    (hdisc : s.threads[j]? = some (.disc 0 lost (.done o))) : Reconnected 0 lost j k m s := by
  have hlen : m.threads.length = 2 := congrArg List.length hm
  refine ⟨⟨by omega, hconn⟩, ⟨by omega, o, hdisc⟩, ?_⟩
  intro i t e ht _
  obtain ⟨hi, -⟩ := List.getElem?_eq_some_iff.mp ht
  omega

theorem settled_inOrder : ∃ m s : State (RobinDispatcher Nat) Nat,
    run (program sampleConfig (RobinDispatcher Nat) Nat).step (start .init) waitingRun = some m ∧
      run (program sampleConfig (RobinDispatcher Nat) Nat).step m
        (discRun 2 ++ connRun 3) = some s ∧
      Settled sampleConfig 0 0 lost m (discRun 2 ++ connRun 3) s := by
  obtain ⟨m, s, hm, he, hmt, hs, hst⟩ := waitingRun_then (discRun 2 ++ connRun 3)
    (waitingThreads ++ [.disc 0 lost (.done (some 0)), .conn 0 .done]) (by decide +kernel)
  have hr : Reconnected 0 lost 2 3 m s :=
    reconnected_of_threads hmt (by rw [hst]; rfl) (.inl ⟨rfl, rfl⟩)
      (by rw [hst]; rfl) (by rw [hst]; rfl)
  exact ⟨m, s, hm, hs,
    (settled_iff sampleConfig RobinDispatcher.init _ _ m s 0 0 2 3 lost hm he hs hr).mpr
    (by decide)⟩

/-- The new session is connected before the disconnect of the old one is handled. -/
theorem not_settled_overtaken :
    ¬ ∀ (acts : List (Action (Thread Nat) Label))
      (m s : State (RobinDispatcher Nat) Nat) (j k : Nat),
      run (program sampleConfig (RobinDispatcher Nat) Nat).step (start .init) waitingRun = some m →
      Established 0 0 m →
      run (program sampleConfig (RobinDispatcher Nat) Nat).step m acts = some s →
      Reconnected 0 lost j k m s → Settled sampleConfig 0 0 lost m acts s := by
  intro hall
  obtain ⟨m, s, hm, he, hmt, hs, hst⟩ := waitingRun_then (connRun 2 ++ discRun 3)
    (waitingThreads ++ [.conn 0 .done, .disc 0 lost (.done (some 1))]) (by decide +kernel)
  have hr : Reconnected 0 lost 3 2 m s :=
    reconnected_of_threads hmt (by rw [hst]; rfl) (.inr ⟨rfl, rfl⟩)
      (by rw [hst]; rfl) (by rw [hst]; rfl)
  obtain ⟨g, hg, -⟩ := (hall _ m s 3 2 hm he hs hr).fresh
  have hnone :=
    (handling hm he hs hr.alone).1.early (by rw [hst]; rfl) (by rw [hst]; rfl) (by decide)
  rw [hnone] at hg
  cases hg

end Results

end Ucorf.ClientReconnect
