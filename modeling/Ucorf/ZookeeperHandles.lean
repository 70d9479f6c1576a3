import Ucorf.ZookeeperFrames

/-!
# Handles of the zookeeper client

Session events wait in `event_chan_` with the raw handle, so `OnWatch` may meet a
connected event of a handle that it has closed since, or a lost session while no handle
is set and a `Connect` is under way. While it meets neither, there is at every moment
either one open handle or one coroutine that is going to open one.
-/
namespace Ucorf.ZookeeperHandles

open Ucorf.Message
open Ucorf.Scripts
open Ucorf.Threads
open Ucorf.Zookeeper
open Ucorf.ZookeeperFrames

/-- What a method leaves alone unless it handles a session event or connects. -/
structure SameHandles (s s' : ZookeeperClient) : Prop where
  zk : s'.zk = s.zk
  opened : s'.opened = s.opened
  closed : s'.closed = s.closed
  connects : s'.connects = s.connects

theorem sameHandles_refl (s : ZookeeperClient) : SameHandles s s := ⟨rfl, rfl, rfl, rfl⟩

theorem sameHandles_trans (s t u : ZookeeperClient) (h : SameHandles s t) (h' : SameHandles t u) :
    SameHandles s u :=
  ⟨h'.zk.trans h.zk, h'.opened.trans h.opened, h'.closed.trans h.closed,
    h'.connects.trans h.connects⟩

/-- The calls of the zookeeper library leave the handles alone. -/
theorem sameHandles_frame (cb : Option Nat) : FetchFrame SameHandles cb where
  refl := sameHandles_refl
  trans := sameHandles_trans
  create _ _ _ _ := ⟨rfl, rfl, rfl, rfl⟩
  addRetry _ _ := ⟨rfl, rfl, rfl, rfl⟩
  addNode _ _ := ⟨rfl, rfl, rfl, rfl⟩
  asked _ _ _ _ := ⟨rfl, rfl, rfl, rfl⟩
  notified _ _ _ _ := by cases cb <;> exact ⟨rfl, rfl, rfl, rfl⟩

theorem sameHandles_setWatchers (s : ZookeeperClient) (path : Bytes) (m : WatcherMap) :
    SameHandles s (s.setWatchers path m) := ⟨rfl, rfl, rfl, rfl⟩

theorem sameHandles_delete (s : ZookeeperClient) (path : Bytes) (ret : Int) :
    SameHandles s (s.addOp (.delete s.zk path ret)) := ⟨rfl, rfl, rfl, rfl⟩

/-- What a step can do to the handles. -/
inductive HandleStep (s s' : ZookeeperClient) : Action → Prop where
  | same {act : Action} : SameHandles s s' → HandleStep s s' act
  | connected : 0 < s.connects → SameHandles (connect s true) s' → HandleStep s s' (.connect true)
  | taken {e : Event} {rest : List Event} {answers : List Answer} : s.eventChan = e :: rest →
      e.type = zooSessionEvent → e.state = zooConnectedState →
      SameHandles { s with zk := some e.zh } s' →
      HandleStep s s' (.onWatch answers)
  | lost {e : Event} {rest : List Event} {answers : List Answer} : s.eventChan = e :: rest →
      e.type = zooSessionEvent → e.state ≠ zooConnectedState → SameHandles (onLost s) s' →
      HandleStep s s' (.onWatch answers)

/-- `OnWatch` changes the handles by its session event only. -/
theorem onWatch_handles {s s' : ZookeeperClient} {e : Event} {rest : List Event}
    {answers : List Answer} {u : Unit}
    (hchan : s.eventChan = e :: rest)
    (h : exec (onWatch e) { s with eventChan := rest } answers = some (u, s')) :
    HandleStep s s' (.onWatch answers) := by
  unfold onWatch at h
  split at h
  · rename_i htype
    split at h
    · rename_i hstate
      obtain ⟨hzk, hopened, hclosed, hconnects⟩ := (sameHandles_frame none).respects_onConnected h
      exact .taken hchan htype hstate ⟨hzk, hopened, hclosed, hconnects⟩
    · rename_i hstate
      have hs' := congrArg Prod.fst (update_eq_some.mp (exec_eq_some.mp h))
      simp only at hs'
      subst hs'
      refine .lost hchan htype hstate ?_
      unfold onLost
      cases s.zk <;> exact ⟨rfl, rfl, rfl, rfl⟩
  · split at h
    · have hfetch : Respects SameHandles (do
          let _ ← fetchChildren e.path none
          return ()) := ((sameHandles_frame none).respects_fetchChildren e.path).bind
            sameHandles_trans fun _ =>
        respects_pure sameHandles_refl _
      obtain ⟨hzk, hopened, hclosed, hconnects⟩ := hfetch.exec h
      exact .same ⟨hzk, hopened, hclosed, hconnects⟩
    · obtain ⟨-, hp⟩ := pure_eq_some.mp (exec_eq_some.mp h)
      cases hp
      exact .same ⟨rfl, rfl, rfl, rfl⟩

/-- What one step can do to the handles. -/
theorem step_handles {s s' : ZookeeperClient} {act : Action} (h : step s act = some s') :
    HandleStep s s' act := by
  cases step_cases h with
  | connect ok hleft =>
    cases ok with
    | true => exact .connected (by omega) (sameHandles_refl _)
    | false => exact .same (sameHandles_refl _)
  | enqueue hopen hroom => exact .same ⟨rfl, rfl, rfl, rfl⟩
  | onWatch hchan ht => exact onWatch_handles hchan ht
  | @retry path _ _ _ hmem ht =>
    obtain ⟨hzk, hopened, hclosed, hconnects⟩ :=
      ((sameHandles_frame none).respects_retry path).exec ht
    exact .same ⟨hzk, hopened, hclosed, hconnects⟩
  | @watch path cb key _ _ _ ht =>
    exact .same (((sameHandles_frame (some cb)).respects_watch
      sameHandles_setWatchers path key).exec ht)
  | @unwatch path key _ _ ht =>
    exact .same (((sameHandles_frame none).respects_unwatch sameHandles_setWatchers path key).exec
      ht)
  | @createNode path flags recursive _ _ _ ht =>
    exact .same (((sameHandles_frame none).respects_createNode path flags recursive).exec ht)
  | @delayCreateEphemeralNode path _ _ _ ht =>
    exact .same (((sameHandles_frame none).respects_delayCreateEphemeralNode path).exec ht)
  | @deleteNode path _ _ _ ht =>
    exact .same (((sameHandles_frame none).respects_deleteNode sameHandles_delete path).exec ht)

/-- `zk_` is null or was not closed, no handle was closed twice and one is open at most. -/
structure HandlesOk (s : ZookeeperClient) : Prop where
  zk : ∀ h, s.zk = some h → h ∉ s.closed
  once : s.closed.Nodup
  single : ∀ h h', s.isOpen h = true → s.isOpen h' = true → h = h'

/-- A session event is handled in time: a connected event while its handle is open, and
the loss of the session while `zk_` is set. -/
def inTime (s : ZookeeperClient) : Action → Bool
  | .onWatch _ =>
    match s.eventChan with
    | [] => true
    | e :: _ =>
      if e.type = zooSessionEvent then
        if e.state = zooConnectedState then s.isOpen e.zh else s.zk.isSome
      else true
  | _ => true

/-- Either a coroutine is going to open a handle or exactly one is open. -/
structure Balanced (s : ZookeeperClient) : Prop where
  zk : ∀ h, s.zk = some h → s.isOpen h = true
  closed : ∀ h ∈ s.closed, h < s.opened
  once : s.closed.Nodup
  balance : (s.connects = 1 ∧ ∀ h, s.isOpen h = false) ∨
    (s.connects = 0 ∧ ∃ h, s.isOpen h = true ∧ ∀ h', s.isOpen h' = true → h' = h)

/-- A handle is open from its `zookeeper_init` on until it is closed. -/
theorem isOpen_iff {s : ZookeeperClient} {h : Nat} :
    s.isOpen h = true ↔ h < s.opened ∧ h ∉ s.closed := by
  simp [ZookeeperClient.isOpen]

theorem Balanced.ok {s : ZookeeperClient} (h : Balanced s) : HandlesOk s where
  zk k hk := (isOpen_iff.mp (h.zk k hk)).2
  once := h.once
  single k k' hk hk' := by
    rcases h.balance with ⟨-, hnone⟩ | ⟨-, g, -, hone⟩
    · rw [hnone k] at hk
      cases hk
    · rw [hone k hk, hone k' hk']

theorem SameHandles.isOpen {s s' : ZookeeperClient} (h : SameHandles s s') (k : Nat) :
    s'.isOpen k = s.isOpen k := by
  simp [ZookeeperClient.isOpen, h.opened, h.closed]

/-- A step that leaves the handles leaves the balance. -/
theorem Balanced.same {s s' : ZookeeperClient} (hb : Balanced s) (h : SameHandles s s') :
    Balanced s' where
  zk k hk := by
    rw [h.zk] at hk
    rw [h.isOpen, hb.zk k hk]
  closed := by
    rw [h.closed, h.opened]
    exact hb.closed
  once := by
    rw [h.closed]
    exact hb.once
  balance := by
    simp only [h.connects, h.isOpen]
    exact hb.balance

/-- A pending `Connect` becomes an open handle. -/
theorem Balanced.connect {s : ZookeeperClient} (hb : Balanced s) (hpos : 0 < s.connects) :
    Balanced (Zookeeper.connect s true) := by
  have hnone : s.connects = 1 ∧ ∀ h, s.isOpen h = false := by
    rcases hb.balance with hnone | ⟨hzero, -⟩
    · exact hnone
    · omega
  have hfresh : s.opened ∉ s.closed := fun hmem => absurd (hb.closed _ hmem) (Nat.lt_irrefl _)
  have hlt {h : Nat} (h₁ : (Zookeeper.connect s true).isOpen h = true) : h = s.opened := by
    obtain ⟨hlt, hclosed⟩ := isOpen_iff.mp h₁
    have hlt' : h < s.opened + 1 := hlt
    by_contra hne
    have hopen : s.isOpen h = true := isOpen_iff.mpr ⟨by omega, hclosed⟩
    rw [hnone.2 h] at hopen
    cases hopen
  constructor
  · intro k hk
    have hopen := hb.zk k hk
    rw [hnone.2 k] at hopen
    cases hopen
  · intro k hk
    exact Nat.lt_succ_of_lt (hb.closed k hk)
  · exact hb.once
  · right
    refine ⟨?_, s.opened, isOpen_iff.mpr ⟨Nat.lt_succ_self _, hfresh⟩, fun k hk => hlt hk⟩
    simp [Zookeeper.connect, hnone.1]

theorem Balanced.taken {s : ZookeeperClient} (hb : Balanced s) {zh : Nat}
    (hopen : s.isOpen zh = true) :
    Balanced { s with zk := some zh } where
  zk k hk := by
    obtain rfl : zh = k := Option.some.inj hk
    exact hopen
  closed := hb.closed
  once := hb.once
  balance := hb.balance

/-- A lost session closes its handle and starts a `Connect`. -/
theorem Balanced.lost {s : ZookeeperClient} (hb : Balanced s) (hzk : s.zk.isSome = true) :
    Balanced (onLost s) := by
  obtain ⟨h, hh⟩ := Option.isSome_iff_exists.mp hzk
  have hopen := hb.zk h hh
  obtain ⟨hlt, hnot⟩ := isOpen_iff.mp hopen
  have hone : s.connects = 0 ∧ ∀ k, s.isOpen k = true → k = h := by
    rcases hb.balance with ⟨-, hnone⟩ | ⟨hzero, g, -, hall⟩
    · rw [hnone h] at hopen
      cases hopen
    · exact ⟨hzero, fun k hk => (hall k hk).trans (hall h hopen).symm⟩
  have he : onLost s =
      { s with zk := none, closed := s.closed ++ [h], connects := s.connects + 1 } := by
    rw [onLost, hh]
  rw [he]
  constructor
  · intro k hk
    cases hk
  · intro k hk
    rw [List.mem_append, List.mem_singleton] at hk
    rcases hk with hk | rfl
    · exact hb.closed k hk
    · exact hlt
  · rw [List.nodup_append]
    refine ⟨hb.once, by simp, ?_⟩
    intro a ha b hb'
    rw [List.mem_singleton] at hb'
    subst hb'
    exact fun heq => hnot (heq ▸ ha)
  · left
    refine ⟨by simp [hone.1], fun k => ?_⟩
    rw [Bool.eq_false_iff]
    intro hk
    obtain ⟨hk, hkc⟩ := isOpen_iff.mp hk
    simp only [List.mem_append, List.mem_singleton, not_or] at hkc
    exact hkc.2 (hone.2 k (isOpen_iff.mpr ⟨hk, hkc.1⟩))

/-- Every step that is in time keeps the balance. -/
theorem balanced_step (s : ZookeeperClient) (act : Action) (s' : ZookeeperClient) (hb : Balanced s)
    (ht : inTime s act = true) (h : step s act = some s') : Balanced s' := by
  cases step_handles h with
  | same hs => exact hb.same hs
  | connected hpos hs => exact (hb.connect hpos).same hs
  | taken hchan htype hstate hs =>
    simp only [inTime, hchan, htype, hstate, if_true] at ht
    exact (hb.taken ht).same hs
  | lost hchan htype hstate hs =>
    simp only [inTime, hchan, htype, hstate, if_true, if_false] at ht
    exact (hb.lost ht).same hs

/-- While the session events are handled in time, the handles are all right. -/
theorem handlesOk_of_inTime (acts : List Action) (s : ZookeeperClient)
    (hc : Guarded step (fun s act => inTime s act = true) .init acts)
    (h : run step .init acts = some s) :
    HandlesOk s := by
  refine (guarded_invariant (I := Balanced) ?_ balanced_step hc h).ok
  constructor <;> simp [ZookeeperClient.init, ZookeeperClient.isOpen]

section Runs

def sessionEvent (zh : Nat) (state : Int) : Event := ⟨zh, zooSessionEvent, state, []⟩

/-- A session comes up, is lost and comes up again with the next handle. -/
def reconnectRun : List Action :=
  [.connect true, .enqueue (sessionEvent 0 zooConnectedState), .onWatch [],
    .enqueue (sessionEvent 0 1), .onWatch [], .connect true,
      .enqueue (sessionEvent 1 zooConnectedState), .onWatch []]

theorem handlesOk_reconnect : ∃ s, run step .init reconnectRun = some s ∧ HandlesOk s := by
  obtain ⟨s, hs, -⟩ := run_exists step .init reconnectRun (fun _ => true) (by decide +kernel)
  exact ⟨s, hs, handlesOk_of_inTime reconnectRun s (by decide +kernel) hs⟩

/-- The session is lost and comes up again before the first of the three events is handled. -/
def flickerRun : List Action :=
  [.connect true, .enqueue (sessionEvent 0 zooConnectedState), .enqueue (sessionEvent 0 1),
    .enqueue (sessionEvent 0 zooConnectedState), .onWatch [], .onWatch [], .onWatch []]

/-- `zk_` ends up with the handle that was closed. -/
theorem closed_handle_taken :
    ¬ ∀ (acts : List Action) (s : ZookeeperClient), run step .init acts = some s → HandlesOk s := by
  intro hall
  obtain ⟨s, hs, hend⟩ := run_exists step .init flickerRun (fun s => s.zk = some 0 ∧ s.closed = [0])
    (by decide +kernel)
  obtain ⟨hzk, hclosed⟩ := of_decide_eq_true hend
  exact (hall _ s hs).zk 0 hzk (by simp [hclosed])

end Runs

end Ucorf.ZookeeperHandles
