import Mathlib.Data.Finset.Card
import Ucorf.ZookeeperHandles

/-!
# The zookeeper client never stops trying

Every lost session starts a `Connect`, and closes a handle only if one is set. So at every
moment a handle is open or a coroutine is going to open one, however late the session events
are handled, and each lost session that finds no open handle set leaves one more of them for good.
-/
namespace Ucorf.ZookeeperReconnects

open Ucorf.Message
open Ucorf.Scripts
open Ucorf.Threads
open Ucorf.Zookeeper
open Ucorf.ZookeeperFrames
open Ucorf.ZookeeperHandles

def SameChan (s s' : ZookeeperClient) : Prop := s'.eventChan = s.eventChan

variable {s s' : ZookeeperClient} {act : Action}

/-- What a step leaves alone besides the session events. -/
def Quiet (s s' : ZookeeperClient) : Prop := SameHandles s s' ∧ SameChan s s'

theorem quiet_frame (cb : Option Nat) : FetchFrame Quiet cb where
  refl s := ⟨sameHandles_refl s, rfl⟩
  trans s t u h h' := ⟨sameHandles_trans s t u h.1 h'.1, h'.2.trans h.2⟩
  create s path flags ret := ⟨(sameHandles_frame cb).create s path flags ret, rfl⟩
  addRetry s path := ⟨(sameHandles_frame cb).addRetry s path, rfl⟩
  addNode s path := ⟨(sameHandles_frame cb).addNode s path, rfl⟩
  asked s path a ha := ⟨(sameHandles_frame cb).asked s path a ha, rfl⟩
  notified s path a ha := ⟨(sameHandles_frame cb).notified s path a ha, by cases cb <;> rfl⟩

/-- The three kinds of events. -/
inductive Handled (e : Event) (s s' : ZookeeperClient) : Prop where
  | connected : e.type = zooSessionEvent → e.state = zooConnectedState →
      Quiet { s with zk := some e.zh } s' → Handled e s s'
  | lost : e.type = zooSessionEvent → e.state ≠ zooConnectedState → s' = onLost s → Handled e s s'
  | other : e.type ≠ zooSessionEvent → Quiet s s' → Handled e s s'

theorem onWatch_cases {e : Event} {answers : List Answer} {u : Unit}
    (h : exec (onWatch e) s answers = some (u, s')) : Handled e s s' := by
  unfold onWatch at h
  split at h
  · rename_i htype
    split at h
    · rename_i hstate
      exact .connected htype hstate ((quiet_frame none).respects_onConnected h)
    · rename_i hstate
      exact .lost htype hstate (congrArg Prod.fst (update_eq_some.mp (exec_eq_some.mp h)))
  · rename_i htype
    split at h
    · have hfetch : Respects Quiet (do
          let _ ← fetchChildren e.path none
          return ()) := ((quiet_frame none).respects_fetchChildren e.path).bind
            (quiet_frame none).trans fun _ =>
        respects_pure (quiet_frame none).refl _
      exact .other htype (hfetch.exec h)
    · obtain ⟨-, hp⟩ := pure_eq_some.mp (exec_eq_some.mp h)
      cases hp
      exact .other htype ((quiet_frame none).refl s)

/-- What a step can do to the handles and the channel. -/
inductive Moved (s s' : ZookeeperClient) : Action → Prop where
  | quiet {act : Action} : (∀ answers, act ≠ .onWatch answers) → Quiet s s' → Moved s s' act
  | connect : s.connects ≠ 0 → s' = connect s true → Moved s s' (.connect true)
  | enqueue {e : Event} : s.isOpen e.zh = true → s' = { s with eventChan := s.eventChan ++ [e] } →
      Moved s s' (.enqueue e)
  | onWatch {e : Event} {rest : List Event} {answers : List Answer} : s.eventChan = e :: rest →
      Handled e { s with eventChan := rest } s' → Moved s s' (.onWatch answers)

theorem step_moved (h : step s act = some s') : Moved s s' act := by
  have hf := quiet_frame none
  cases step_cases h with
  | connect ok hleft =>
    cases ok with
    | true => exact .connect hleft rfl
    | false => exact .quiet nofun (hf.refl s)
  | enqueue hopen hroom => exact .enqueue hopen rfl
  | onWatch hchan ht => exact .onWatch hchan (onWatch_cases ht)
  | @retry path _ _ _ hmem ht =>
    obtain ⟨⟨hzk, hopened, hclosed, hconnects⟩, hchan⟩ := (hf.respects_retry path).exec ht
    exact .quiet nofun ⟨⟨hzk, hopened, hclosed, hconnects⟩, hchan⟩
  | @watch path cb key _ _ _ ht =>
    have hwatchers (s : ZookeeperClient) (path : Bytes) (m : WatcherMap) :
        Quiet s (s.setWatchers path m) :=
      ⟨sameHandles_setWatchers s path m, rfl⟩
    exact .quiet nofun (((quiet_frame (some cb)).respects_watch hwatchers path key).exec ht)
  | @unwatch path key _ _ ht =>
    have hwatchers (s : ZookeeperClient) (path : Bytes) (m : WatcherMap) :
        Quiet s (s.setWatchers path m) :=
      ⟨sameHandles_setWatchers s path m, rfl⟩
    exact .quiet nofun ((hf.respects_unwatch hwatchers path key).exec ht)
  | @createNode path flags recursive _ _ _ ht =>
      exact .quiet nofun ((hf.respects_createNode path flags recursive).exec ht)
  | @delayCreateEphemeralNode path _ _ _ ht =>
      exact .quiet nofun ((hf.respects_delayCreateEphemeralNode path).exec ht)
  | @deleteNode path _ _ _ ht =>
    have hdelete (s : ZookeeperClient) (path : Bytes) (ret : Int) :
        Quiet s (s.addOp (.delete s.zk path ret)) :=
      ⟨sameHandles_delete s path ret, rfl⟩
    exact .quiet nofun ((hf.respects_deleteNode hdelete path).exec ht)

/-- The handles that `zookeeper_init` returned and nobody closed. -/
def openHandles (s : ZookeeperClient) : Finset Nat := (Finset.range s.opened).filter (· ∉ s.closed)

/-- A lost session is handled while no handle is set that is open. -/
def stray (s : ZookeeperClient) : Action → Bool
  | .onWatch _ =>
    match s.eventChan with
    | [] => false
    | e :: _ => e.type = zooSessionEvent ∧ e.state ≠ zooConnectedState ∧
        s.zk.all (fun h => h ∈ s.closed)
  | _ => false

/-- The handles that the client knows have all been opened. -/
structure Known (s : ZookeeperClient) : Prop where
  zk : ∀ h, s.zk = some h → h < s.opened
  closed : ∀ h ∈ s.closed, h < s.opened
  events : ∀ e ∈ s.eventChan, e.zh < s.opened

theorem SameHandles.openHandles (h : SameHandles s s') : openHandles s' = openHandles s := by
  rw [ZookeeperReconnects.openHandles, h.opened, h.closed]
  rfl

/-- A handle that was not there before is open. -/
theorem openHandles_connect (hk : Known s) :
    openHandles (connect s true) = insert s.opened (openHandles s) ∧ s.opened ∉ openHandles s := by
  have hfresh : s.opened ∉ s.closed := fun hmem => absurd (hk.closed _ hmem) (Nat.lt_irrefl _)
  constructor
  · ext h
    simp only [openHandles, connect, if_true, Finset.mem_filter,
      Finset.mem_range, Finset.mem_insert]
    constructor
    · rintro ⟨hlt, hopen⟩
      obtain hlt | rfl := Nat.lt_succ_iff_lt_or_eq.mp hlt
      · exact .inr ⟨hlt, hopen⟩
      · exact .inl rfl
    · rintro (rfl | ⟨hlt, hopen⟩)
      · exact ⟨Nat.lt_succ_self _, hfresh⟩
      · exact ⟨Nat.lt_succ_of_lt hlt, hopen⟩
  · simp [openHandles]

/-- Closing the handle that is set. -/
theorem openHandles_lost (s : ZookeeperClient) :
    openHandles (onLost s) = (openHandles s).filter (fun h => s.zk ≠ some h) := by
  ext k
  unfold onLost
  cases hzk : s.zk with
  | none => simp [openHandles]
  | some h =>
    simp only [openHandles, Finset.mem_filter, Finset.mem_range, List.mem_append,
      List.mem_singleton, not_or, ne_eq,
      Option.some.injEq]
    constructor
    · rintro ⟨hlt, hopen, hne⟩
      exact ⟨⟨hlt, hopen⟩, Ne.symm hne⟩
    · rintro ⟨⟨hlt, hopen⟩, hne⟩
      exact ⟨hlt, hopen, Ne.symm hne⟩

/-- A handle that is set and open is given up for a `Connect`, and otherwise there is one more of
them. -/
theorem counted_lost (hk : Known s) : (onLost s).connects + (openHandles (onLost s)).card =
    s.connects + (openHandles s).card + (if s.zk.all (fun h => h ∈ s.closed) =
      true then 1 else 0) := by
  have hconnects : (onLost s).connects = s.connects + 1 := by
    unfold onLost
    cases s.zk <;> rfl
  rw [hconnects, openHandles_lost]
  cases hzk : s.zk with
  | none =>
    simp
    omega
  | some h =>
    have hlt := hk.zk h hzk
    have hfilter : (openHandles s).filter (fun k => some h ≠ some k) = (openHandles s).erase h := by
      ext k
      simp [and_comm, eq_comm]
    rw [hfilter]
    by_cases hclosed : h ∈ s.closed
    · have hnot : h ∉ openHandles s := by simp [openHandles, hclosed]
      rw [Finset.erase_eq_of_notMem hnot]
      simp [hclosed]
      omega
    · have hopen : h ∈ openHandles s := by simp [openHandles, hclosed, hlt]
      have hcard := Finset.card_erase_add_one hopen
      simp [hclosed]
      omega

theorem Known.quiet (hk : Known s) (h : Quiet s s') : Known s' := by
  obtain ⟨⟨hzk, hopened, hclosed, -⟩, hchan⟩ := h
  constructor
  · rw [hzk, hopened]
    exact hk.zk
  · rw [hclosed, hopened]
    exact hk.closed
  · rw [hchan, hopened]
    exact hk.events

theorem Known.lost (hk : Known s) : Known (onLost s) := by
  unfold onLost
  cases hzk : s.zk with
  | none => exact ⟨fun h hh => hk.zk h (hzk.trans hh), hk.closed, hk.events⟩
  | some h =>
    refine ⟨nofun, ?_, hk.events⟩
    intro k hmem
    obtain hmem | hmem := List.mem_append.mp hmem
    · exact hk.closed k hmem
    · rw [List.mem_singleton.mp hmem]
      exact hk.zk h hzk

theorem known_step (hk : Known s) (h : step s act = some s') : Known s' := by
  cases step_moved h with
  | quiet _ hquiet => exact hk.quiet hquiet
  | connect _ hs' =>
    subst hs'
    exact ⟨fun h hh => Nat.lt_succ_of_lt (hk.zk h hh),
      fun h hh => Nat.lt_succ_of_lt (hk.closed h hh),
      fun e he => Nat.lt_succ_of_lt (hk.events e he)⟩
  | @enqueue e hopen hs' =>
    subst hs'
    refine ⟨hk.zk, hk.closed, ?_⟩
    intro e' he'
    obtain he' | he' := List.mem_append.mp he'
    · exact hk.events e' he'
    · rw [List.mem_singleton.mp he']
      exact (isOpen_iff.mp hopen).1
  | @onWatch e rest answers hchan hhandled =>
    have hevents : ∀ e' ∈ e :: rest, e'.zh < s.opened := hchan ▸ hk.events
    have hrest : Known { s with eventChan := rest } :=
      ⟨hk.zk, hk.closed, fun e' he' => hevents e' (List.mem_cons_of_mem e he')⟩
    cases hhandled with
    | connected _ _ hquiet =>
      have hset : Known { s with eventChan := rest, zk := some e.zh } := by
        refine ⟨?_, hrest.closed, hrest.events⟩
        intro h hh
        rw [← Option.some.inj hh]
        exact hevents e List.mem_cons_self
      exact hset.quiet hquiet
    | lost _ _ hs' =>
      subst hs'
      exact hrest.lost
    | other _ hquiet => exact hrest.quiet hquiet

/-- The coroutines that are going to open a handle, and the handles that are open. -/
def attempts (s : ZookeeperClient) : Nat := s.connects + (openHandles s).card

theorem attempts_quiet (h : Quiet s s') : attempts s' = attempts s := by
  rw [attempts, SameHandles.openHandles h.1, h.1.connects, attempts]

theorem attempts_step (hk : Known s) (h : step s act = some s') :
    attempts s' = attempts s + (stray s act).toNat := by
  cases step_moved h with
  | quiet hnot hquiet =>
    have hstray : stray s act = false := by
      cases act with
      | onWatch answers => exact absurd rfl (hnot answers)
      | _ => rfl
    rw [attempts_quiet hquiet, hstray]
    rfl
  | connect hleft hs' =>
    subst hs'
    obtain ⟨hopen, hfresh⟩ := openHandles_connect hk
    have hconnects : (connect s true).connects = s.connects - 1 := rfl
    have hstray : stray s (.connect true) = false := rfl
    rw [attempts, hopen, Finset.card_insert_of_notMem hfresh, hconnects,
      attempts, hstray, Bool.toNat_false]
    omega
  | enqueue hopen hs' =>
    subst hs'
    rfl
  | @onWatch e rest answers hchan hhandled =>
    cases hhandled with
    | connected htype hstate hquiet =>
      have hstray : stray s (.onWatch answers) = false := by simp [stray, hchan, hstate]
      rw [attempts_quiet hquiet, hstray]
      rfl
    | lost htype hstate hs' =>
      have hrest : Known { s with eventChan := rest } :=
        ⟨hk.zk, hk.closed, fun e' he' => hk.events e' (hchan ▸ List.mem_cons_of_mem e he')⟩
      have hstray : stray s (.onWatch answers) = s.zk.all (fun h => h ∈ s.closed) := by
        simp [stray, hchan, htype, hstate]
      have hcount := counted_lost hrest
      rw [hs', attempts, hcount, hstray]
      cases s.zk.all (fun h => decide (h ∈ s.closed)) <;> rfl
    | other htype hquiet =>
      have hstray : stray s (.onWatch answers) = false := by simp [stray, hchan, htype]
      rw [attempts_quiet hquiet, hstray]
      rfl

/-- In every run, there are one attempt and one more for each lost session that was handled while no
open handle was set, and so never none. -/
theorem attempts_counted (acts : List Action) (s : ZookeeperClient)
    (h : run step .init acts = some s) :
    attempts s = 1 + tally step (fun s act => (stray s act).toNat) .init acts := by
  have hinit : Known .init := ⟨nofun, nofun, nofun⟩
  exact run_tally (I := Known) hinit
    (fun m act m' hm hstep => ⟨known_step hm hstep, attempts_step hm hstep⟩) h

/-- The session is reported lost twice. -/
def twiceLost : List Action :=
  [.connect true, .enqueue (sessionEvent 0 zooConnectedState), .enqueue (sessionEvent 0 1),
    .enqueue (sessionEvent 0 2), .onWatch [], .onWatch [], .onWatch [], .connect true]

theorem attempts_counted_twice :
    ∃ s, run step .init twiceLost = some s ∧ s.connects = 1 ∧ s.opened = 2 ∧
      attempts s = 1 + tally step (fun s act => (stray s act).toNat) .init twiceLost := by
  obtain ⟨s, hs, hend⟩ := run_exists step .init twiceLost (fun s => s.connects = 1 ∧ s.opened = 2)
    (by decide +kernel)
  obtain ⟨hconnects, hopened⟩ := of_decide_eq_true hend
  exact ⟨s, hs, hconnects, hopened, attempts_counted twiceLost s hs⟩

end Ucorf.ZookeeperReconnects
